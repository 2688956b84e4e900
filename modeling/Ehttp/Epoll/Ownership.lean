import Mathlib.Data.List.Nodup
import Ehttp.Epoll.Socket
import Ehttp.Lib.Transition

/-!
# Who has a context

`EPOLLONESHOT` passes a context on: from epoll to the main loop, to the task
queue, to a worker and back.  Some threads know a context without having it: the
client table, a sweep or a client list that is being worked through, and
`write_func` behind the re-arm.

* `Inv`: a context is in one place at most, and all that are had or known are
  alive;
* `Inv.move`, `Inv.setWorker`, `Inv.setMain`: the steps that release nothing;
* `Inv.releaseMain`, `Inv.releaseWorker`: a context that no other thread knows.
-/

namespace Ehttp

open Lib

/-! ## Places -/

inductive Place (n : Nat)
  | epoll | main | tasks | worker (w : Fin n)
  deriving DecidableEq, Repr

def Ready.ctx : Ready → Option Nat
  | .listen => none
  | .client c _ => some c

/-- The contexts whose events the main loop handles or has yet to handle. -/
def MainPc.holds : MainPc → List Nat
  | .events evs => evs.filterMap Ready.ctx
  | .accepted c evs | .marked c _ evs | .stamped c _ evs => c :: evs.filterMap Ready.ctx
  | .wait | .sweep _ | .exited => []

/-- The contexts that `clear_idle_clients` has collected and not released. -/
def MainPc.collected : MainPc → List Nat
  | .sweep evs => evs
  | _ => []

theorem MainPc.ctx_mem (pc : MainPc) (c : Nat) (h : pc.ctx = some c) :
    c ∈ pc.holds ∨ c ∈ pc.collected := by
  cases pc with
  | wait => cases h
  | exited => cases h
  | events evs =>
    cases evs with
    | nil => cases h
    | cons ev evs =>
      cases ev with
      | listen => cases h
      | client d events =>
        obtain rfl := Option.some.inj h
        exact Or.inl List.mem_cons_self
  | accepted d evs =>
    obtain rfl := Option.some.inj h
    exact Or.inl List.mem_cons_self
  | marked d func evs =>
    obtain rfl := Option.some.inj h
    exact Or.inl List.mem_cons_self
  | stamped d func evs =>
    obtain rfl := Option.some.inj h
    exact Or.inl List.mem_cons_self
  | sweep evs =>
    cases evs with
    | nil => cases h
    | cons d evs =>
      obtain rfl := Option.some.inj h
      exact Or.inr List.mem_cons_self

/-- The context of the task a worker is at, up to its re-arm. -/
def WorkerPc.task : WorkerPc → Option Nat
  | .written _ => none
  | pc => pc.ctx

namespace EpollSocket

variable {n : Nat} (s : EpollSocket n)

/-- A place has a context: its event is there. -/
def Has : Place n → Nat → Prop
  | .epoll, c => (s.armed c).isSome
  | .main, c => c ∈ s.main.holds
  | .tasks, c => c ∈ s.tasks.map Task.ctx
  | .worker w, c => (s.workers w).task = some c

/-- A context is known without its event. -/
def Knows (c : Nat) : Prop :=
  c ∈ s.eclients ∨ c ∈ s.main.collected ∨ (∃ w, c ∈ (s.workers w).unread) ∨
    ∃ w, s.workers w = .written c

def Refers (c : Nat) : Prop := (∃ p, s.Has p c) ∨ s.Knows c

structure Inv : Prop where
  exclusive : Exclusive s.Has
  main : s.main.holds.Nodup
  tasks : (s.tasks.map Task.ctx).Nodup
  eclients : s.eclients.Nodup
  collected : s.main.collected.Nodup
  alive : ∀ c, s.Refers c → c ≤ s.gClientId ∧ c ∉ s.released
  released : ∀ c ∈ s.released, c ≤ s.gClientId

variable {s}

theorem inv_init : Inv ({} : EpollSocket n) := by
  constructor
  · intro c p q hp
    cases p <;> simp [Has, MainPc.holds, WorkerPc.task, WorkerPc.ctx] at hp
  · simp [MainPc.holds]
  · simp
  · simp
  · simp [MainPc.collected]
  · rintro c (⟨p, hp⟩ | hc)
    · cases p <;> simp [Has, MainPc.holds, WorkerPc.task, WorkerPc.ctx] at hp
    · simp [Knows, MainPc.collected, WorkerPc.unread] at hc
  · simp

/-! ## Changes of one place -/

section Has

variable (c : Nat) (p : Place n) (d : Nat)

@[simp] theorem has_setCtxStatus (status : Nat) :
    (s.setCtxStatus c status).Has p d ↔ s.Has p d := by
  cases p <;> rfl

@[simp] theorem knows_setCtxStatus (status : Nat) :
    (s.setCtxStatus c status).Knows d ↔ s.Knows d := Iff.rfl

@[simp] theorem has_arm (interest : Interest) :
    (s.arm c interest).Has p d ↔ (p = .epoll ∧ d = c) ∨ s.Has p d := by
  cases p with
  | epoll =>
    simp only [Has, arm, Function.update_apply]
    split <;> simp_all
  | main => simp [Has, arm]
  | tasks => simp [Has, arm]
  | worker w => simp [Has, arm]

@[simp] theorem has_setWorker (w : Fin n) (pc : WorkerPc) :
    (s.setWorker w pc).Has p d ↔ if p = .worker w then pc.task = some d else s.Has p d := by
  cases p with
  | epoll => simp [Has, setWorker]
  | main => simp [Has, setWorker]
  | tasks => simp [Has, setWorker]
  | worker v =>
    simp only [Has, setWorker, Function.update_apply, Place.worker.injEq]
    split <;> rfl

@[simp] theorem has_closeAndRelease :
    (s.closeAndRelease c).Has p d ↔ s.Has p d ∧ (p = .epoll → d ≠ c) := by
  cases p with
  | epoll =>
    simp only [Has, closeAndRelease, Function.update_apply]
    split <;> simp_all
  | main => simp [Has, closeAndRelease]
  | tasks => simp [Has, closeAndRelease]
  | worker w => simp [Has, closeAndRelease]

theorem knows_setWorker (w : Fin n) (pc : WorkerPc) (h : (s.setWorker w pc).Knows d) :
    s.Knows d ∨ d ∈ pc.unread ∨ pc = .written d := by
  rcases h with h | h | ⟨v, h⟩ | ⟨v, h⟩
  · exact Or.inl (Or.inl h)
  · exact Or.inl (Or.inr (Or.inl h))
  · simp only [setWorker, Function.update_apply] at h
    split at h
    · exact Or.inr (Or.inl h)
    · exact Or.inl (Or.inr (Or.inr (Or.inl ⟨v, h⟩)))
  · simp only [setWorker, Function.update_apply] at h
    split at h
    · exact Or.inr (Or.inr h)
    · exact Or.inl (Or.inr (Or.inr (Or.inr ⟨v, h⟩)))

end Has

/-! ## Actions that release nothing -/

/-- A worker that keeps its context, and learns of no other but from the table. -/
theorem Inv.setWorker (h : s.Inv) (w : Fin n) (pc : WorkerPc)
    (htask : pc.task = (s.workers w).task)
    (hunread : ∀ c ∈ pc.unread, s.Refers c) (hwritten : ∀ c, pc = .written c → s.Refers c) :
    (s.setWorker w pc).Inv := by
  have hhas : ∀ p c, (s.setWorker w pc).Has p c → s.Has p c := by
    intro p c hp
    rw [has_setWorker] at hp
    split at hp
    · rename_i hpw
      rw [hpw, Has, ← htask]
      exact hp
    · exact hp
  constructor
  · exact h.exclusive.mono hhas
  · exact h.main
  · exact h.tasks
  · exact h.eclients
  · exact h.collected
  · intro c hc
    apply h.alive
    rcases hc with ⟨p, hp⟩ | hc
    · exact Or.inl ⟨p, hhas p c hp⟩
    · rcases knows_setWorker c w pc hc with hc | hc | hc
      · exact Or.inr hc
      · exact hunread c hc
      · exact hwritten c hc
  · exact h.released

/-- A worker that goes on at its context, and learns of no other. -/
theorem Inv.advance (h : s.Inv) (w : Fin n) (pc : WorkerPc)
    (htask : pc.task = (s.workers w).task) (hunread : pc.unread = [])
    (hwritten : ∀ c, pc ≠ .written c) : (s.setWorker w pc).Inv := by
  apply h.setWorker w pc htask
  · rw [hunread]
    exact fun c hc => nomatch hc
  · exact fun c hc => absurd hc (hwritten c)

theorem Inv.setCtxStatus (h : s.Inv) (c status : Nat) : (s.setCtxStatus c status).Inv := by
  have hhas : (s.setCtxStatus c status).Has = s.Has := by
    funext p d
    exact propext (has_setCtxStatus c p d status)
  refine ⟨?_, h.main, h.tasks, h.eclients, h.collected, ?_, h.released⟩
  · rw [hhas]
    exact h.exclusive
  · intro d hd
    rw [Refers, hhas] at hd
    exact h.alive d hd

/-- A context goes from one place to another. -/
theorem Inv.move {s' : EpollSocket n} (h : s.Inv) (c : Nat) (src dst : Place n) (hsrc : s.Has src c)
    (hleft : s'.Has src c → src = dst)
    (hsub : ∀ p d, s'.Has p d → (p = dst ∧ d = c) ∨ s.Has p d)
    (hknows : ∀ d, s'.Knows d → s.Refers d) (hmain : s'.main.holds.Nodup)
    (htasks : (s'.tasks.map Task.ctx).Nodup) (heclients : s'.eclients.Nodup)
    (hcollected : s'.main.collected.Nodup) (hid : s'.gClientId = s.gClientId)
    (hreleased : s'.released = s.released) : s'.Inv := by
  refine ⟨h.exclusive.move c src dst hsrc hleft hsub, hmain, htasks, heclients, hcollected, ?_, ?_⟩
  · intro d hd
    rw [hid, hreleased]
    apply h.alive
    rcases hd with ⟨p, hp⟩ | hd
    · rcases hsub p d hp with ⟨-, rfl⟩ | hp
      · exact Or.inl ⟨src, hsrc⟩
      · exact Or.inl ⟨p, hp⟩
    · exact hknows d hd
  · rw [hid, hreleased]
    exact h.released

/-- A worker takes the first task. -/
theorem Inv.take (h : s.Inv) (w : Fin n) (t : Task) (tasks : List Task) (pc : WorkerPc)
    (ht : s.tasks = t :: tasks) (hpc : pc.task = some t.ctx)
    (hunread : pc.unread = []) (hwritten : ∀ c, pc ≠ .written c) :
    (({ s with tasks } : EpollSocket n).setWorker w pc).Inv := by
  have hnodup := h.tasks
  rw [ht, List.map_cons, List.nodup_cons] at hnodup
  apply h.move t.ctx .tasks (.worker w)
  · simp [Has, ht]
  · intro hp
    exact absurd hp hnodup.1
  · intro p d hp
    rw [has_setWorker] at hp
    split at hp
    · rename_i hpw
      rw [hpc, Option.some.injEq] at hp
      exact Or.inl ⟨hpw, hp.symm⟩
    · apply Or.inr
      cases p with
      | tasks =>
        rw [Has, ht]
        exact List.mem_cons_of_mem _ hp
      | epoll => exact hp
      | main => exact hp
      | worker v => exact hp
  · intro d hd
    rcases knows_setWorker d w pc hd with hd | hd | hd
    · exact Or.inr hd
    · simp [hunread] at hd
    · exact absurd hd (hwritten d)
  · exact h.main
  · exact hnodup.2
  · exact h.eclients
  · exact h.collected
  · rfl
  · rfl

/-- A worker re-arms its context. -/
theorem Inv.rearm (h : s.Inv) (w : Fin n) (c : Nat) (interest : Interest) (pc : WorkerPc)
    (hw : (s.workers w).task = some c) (hpc : pc.task = none) (hunread : pc.unread = [])
    (hwritten : ∀ d, pc = .written d → d = c) : ((s.arm c interest).setWorker w pc).Inv := by
  apply h.move c (.worker w) .epoll
  · exact hw
  · intro hp
    rw [has_setWorker, if_pos rfl, hpc] at hp
    cases hp
  · intro p d hp
    rw [has_setWorker] at hp
    split at hp
    · rw [hpc] at hp
      cases hp
    · rwa [has_arm] at hp
  · intro d hd
    rcases knows_setWorker d w pc hd with hd | hd | hd
    · exact Or.inr hd
    · simp [hunread] at hd
    · rw [hwritten d hd]
      exact Or.inl ⟨.worker w, hw⟩
  · exact h.main
  · exact h.tasks
  · exact h.eclients
  · exact h.collected
  · rfl
  · rfl

/-- The main loop goes on, and may learn of contexts in the table. -/
theorem Inv.setMain (h : s.Inv) (pc : MainPc) (status : EpollSocketStatus)
    (hholds : pc.holds.Sublist s.main.holds) (hnodup : pc.collected.Nodup)
    (hcollected : ∀ c ∈ pc.collected, c ∈ s.eclients) :
    ({ s with main := pc, status := status } : EpollSocket n).Inv := by
  have hhas : ∀ p c, ({ s with main := pc, status := status } : EpollSocket n).Has p c →
      s.Has p c := by
    intro p c hp
    cases p with
    | main => exact hholds.subset hp
    | epoll => exact hp
    | tasks => exact hp
    | worker w => exact hp
  refine ⟨h.exclusive.mono hhas, h.main.sublist hholds, h.tasks, h.eclients, hnodup, ?_, h.released⟩
  intro c hc
  apply h.alive
  rcases hc with ⟨p, hp⟩ | hc | hc | hc
  · exact Or.inl ⟨p, hhas p c hp⟩
  · exact Or.inr (Or.inl hc)
  · exact Or.inr (Or.inl (hcollected c hc))
  · exact Or.inr (Or.inr (Or.inr hc))

/-- The main loop goes on, and has collected nothing. -/
theorem Inv.goOn (h : s.Inv) (pc : MainPc) (status : EpollSocketStatus)
    (hholds : pc.holds.Sublist s.main.holds) (hcollected : pc.collected = []) :
    ({ s with main := pc, status := status } : EpollSocket n).Inv := by
  apply h.setMain pc status hholds
  · rw [hcollected]
    exact List.nodup_nil
  · rw [hcollected]
    exact fun c hc => nomatch hc

theorem Inv.updateInteractTime (h : s.Inv) (c : Nat) : (s.updateInteractTime c).Inv := by
  have hhas : (s.updateInteractTime c).Has = s.Has := by
    funext p d
    cases p <;> rfl
  refine ⟨?_, h.main, h.tasks, h.eclients, h.collected, ?_, h.released⟩
  · rw [hhas]
    exact h.exclusive
  · intro d hd
    rw [Refers, hhas] at hd
    exact h.alive d hd

theorem Inv.fresh (h : s.Inv) : ¬ s.Refers (s.gClientId + 1) := by
  intro hc
  have hle := (h.alive _ hc).1
  omega

/-- A context is created, and no place but the main loop has it. -/
theorem Inv.create {s' : EpollSocket n} (h : s.Inv) (hid : s'.gClientId = s.gClientId + 1)
    (hhas : ∀ p c, s'.Has p c → (c = s.gClientId + 1 ∧ p = .main) ∨ s.Has p c)
    (hknows : ∀ c, s'.Knows c → c = s.gClientId + 1 ∨ s.Knows c) (hmain : s'.main.holds.Nodup)
    (htasks : s'.tasks = s.tasks) (heclients : s'.eclients.Nodup)
    (hcollected : s'.main.collected.Nodup) (hreleased : s'.released = s.released) : s'.Inv := by
  constructor
  · apply h.exclusive.give (· = s.gClientId + 1) .main
    intro p c hp
    rcases hhas p c hp with hc | hp
    · exact Or.inl hc
    · refine Or.inr ⟨?_, hp⟩
      rintro rfl
      exact h.fresh (Or.inl ⟨p, hp⟩)
  · exact hmain
  · rw [htasks]
    exact h.tasks
  · exact heclients
  · exact hcollected
  · intro c hc
    have hcases : c = s.gClientId + 1 ∨ s.Refers c := by
      rcases hc with ⟨p, hp⟩ | hc
      · rcases hhas p c hp with ⟨hc, -⟩ | hp
        · exact Or.inl hc
        · exact Or.inr (Or.inl ⟨p, hp⟩)
      · rcases hknows c hc with hc | hc
        · exact Or.inl hc
        · exact Or.inr (Or.inr hc)
    rw [hid, hreleased]
    rcases hcases with rfl | hc
    · refine ⟨Nat.le_refl _, ?_⟩
      intro hrel
      have hle := h.released _ hrel
      omega
    · have halive := h.alive c hc
      exact ⟨Nat.le_succ_of_le halive.1, halive.2⟩
  · intro c hc
    rw [hreleased] at hc
    rw [hid]
    exact Nat.le_succ_of_le (h.released c hc)

/-- A new client: the main loop has it, and it is in the table. -/
theorem Inv.accept (h : s.Inv) (evs : List Ready) (hmain : s.main = .events (.listen :: evs))
    (context : Nat → EpollContext) (clients : Int) :
    ({ s with
      gClientId := s.gClientId + 1
      context := context
      clients := clients
      eclients := s.eclients ++ [s.gClientId + 1]
      main := .accepted (s.gClientId + 1) evs } : EpollSocket n).Inv := by
  have hholds : s.main.holds = evs.filterMap Ready.ctx := by
    rw [hmain]
    rfl
  apply h.create rfl
  · intro p c hp
    cases p with
    | main =>
      rcases List.mem_cons.mp hp with hc | hp
      · exact Or.inl ⟨hc, rfl⟩
      · exact Or.inr (by rwa [Has, hholds])
    | epoll => exact Or.inr hp
    | tasks => exact Or.inr hp
    | worker w => exact Or.inr hp
  · rintro c (hc | hc | hc)
    · rcases List.mem_append.mp hc with hc | hc
      · exact Or.inr (Or.inl hc)
      · exact Or.inl (List.mem_singleton.mp hc)
    · cases hc
    · exact Or.inr (Or.inr (Or.inr hc))
  · show ((s.gClientId + 1) :: evs.filterMap Ready.ctx).Nodup
    rw [List.nodup_cons, ← hholds]
    exact ⟨fun hc => h.fresh (Or.inl ⟨.main, hc⟩), h.main⟩
  · rfl
  · show (s.eclients ++ [s.gClientId + 1]).Nodup
    rw [← List.concat_eq_append]
    exact List.Nodup.concat (fun hc => h.fresh (Or.inr (Or.inl hc))) h.eclients
  · exact List.nodup_nil
  · rfl

/-- What `epoll_wait` reports was armed, and is so no longer. -/
theorem deliver_spec (evs : List Ready) (armed armed' : Nat → Option Interest)
    (h : deliver evs armed = some armed') :
    (evs.filterMap Ready.ctx).Nodup ∧
      (∀ c ∈ evs.filterMap Ready.ctx, (armed c).isSome ∧ armed' c = none) ∧
      ∀ c, c ∉ evs.filterMap Ready.ctx → armed' c = armed c := by
  induction evs generalizing armed with
  | nil =>
    cases h
    simp
  | cons ev evs ih =>
    cases ev with
    | listen => exact ih armed h
    | client c events =>
      rw [deliver] at h
      cases harmed : armed c with
      | none => simp [harmed] at h
      | some interest =>
        simp only [harmed] at h
        split at h
        · obtain ⟨hnodup, hin, hout⟩ := ih _ h
          have hc : c ∉ evs.filterMap Ready.ctx := by
            intro hc
            have hsome := (hin c hc).1
            rw [Function.update_self] at hsome
            cases hsome
          rw [show (Ready.client c events :: evs).filterMap Ready.ctx =
            c :: evs.filterMap Ready.ctx from rfl]
          refine ⟨List.nodup_cons.mpr ⟨hc, hnodup⟩, ?_, ?_⟩
          · intro d hd
            rcases List.mem_cons.mp hd with rfl | hd
            · rw [harmed, hout d hc, Function.update_self]
              exact ⟨rfl, rfl⟩
            · have hne : d ≠ c := fun heq => hc (heq ▸ hd)
              have hd' := hin d hd
              rwa [Function.update_of_ne hne] at hd'
          · intro d hd
            rw [List.mem_cons, not_or] at hd
            rw [hout d hd.2, Function.update_of_ne hd.1]
        · cases h

/-- The main loop gets the contexts that `epoll_wait` reports. -/
theorem Inv.poll (h : s.Inv) (evs : List Ready) (armed : Nat → Option Interest)
    (hdeliver : deliver evs s.armed = some armed) :
    ({ s with armed := armed, main := .events evs } : EpollSocket n).Inv := by
  obtain ⟨hnodup, hin, hout⟩ := deliver_spec evs s.armed armed hdeliver
  have hgive : ∀ p c, ({ s with armed := armed, main := .events evs } : EpollSocket n).Has p c →
      (c ∈ evs.filterMap Ready.ctx ∧ p = .main) ∨ (c ∉ evs.filterMap Ready.ctx ∧ s.Has p c) := by
    intro p c hp
    have hother : p ≠ .epoll → s.Has p c → c ∉ evs.filterMap Ready.ctx := by
      intro hne hs hc
      exact hne (h.exclusive c p .epoll hs (hin c hc).1)
    cases p with
    | main => exact Or.inl ⟨hp, rfl⟩
    | epoll =>
      change (armed c).isSome at hp
      have hc : c ∉ evs.filterMap Ready.ctx := by
        intro hc
        rw [(hin c hc).2] at hp
        cases hp
      rw [hout c hc] at hp
      exact Or.inr ⟨hc, hp⟩
    | tasks => exact Or.inr ⟨hother (by simp) hp, hp⟩
    | worker w => exact Or.inr ⟨hother (by simp) hp, hp⟩
  refine ⟨h.exclusive.give _ .main hgive, hnodup, h.tasks, h.eclients, ?_, ?_, h.released⟩
  · simp [MainPc.collected]
  · intro c hc
    apply h.alive
    rcases hc with ⟨p, hp⟩ | hc | hc | hc
    · rcases hgive p c hp with ⟨hc, -⟩ | ⟨-, hp⟩
      · exact Or.inl ⟨.epoll, (hin c hc).1⟩
      · exact Or.inl ⟨p, hp⟩
    · exact Or.inr (Or.inl hc)
    · simp [MainPc.collected] at hc
    · exact Or.inr (Or.inr (Or.inr hc))

/-! ## Releases -/

variable (s) in
/-- No worker knows a context without its event. -/
def Unshared (c : Nat) : Prop := ∀ w, c ∉ (s.workers w).unread ∧ s.workers w ≠ .written c

/-- What is left are references to other contexts. -/
theorem Inv.release {s' : EpollSocket n} (h : s.Inv) (c : Nat) (hc : s.Refers c)
    (hhas : ∀ p d, s'.Has p d → s.Has p d ∧ d ≠ c)
    (hknows : ∀ d, s'.Knows d → s.Knows d ∧ d ≠ c) (hmain : s'.main.holds.Nodup)
    (htasks : s'.tasks = s.tasks) (heclients : s'.eclients = s.eclients.erase c)
    (hcollected : s'.main.collected.Nodup) (hid : s'.gClientId = s.gClientId)
    (hreleased : s'.released = c :: s.released) : s'.Inv := by
  constructor
  · exact h.exclusive.mono fun p d hp => (hhas p d hp).1
  · exact hmain
  · rw [htasks]
    exact h.tasks
  · rw [heclients]
    exact h.eclients.erase c
  · exact hcollected
  · intro d hd
    have hold : s.Refers d ∧ d ≠ c := by
      rcases hd with ⟨p, hp⟩ | hd
      · exact ⟨Or.inl ⟨p, (hhas p d hp).1⟩, (hhas p d hp).2⟩
      · exact ⟨Or.inr (hknows d hd).1, (hknows d hd).2⟩
    have halive := h.alive d hold.1
    rw [hid, hreleased, List.mem_cons, not_or]
    exact ⟨halive.1, hold.2, halive.2⟩
  · intro d hd
    rw [hreleased, List.mem_cons] at hd
    rw [hid]
    rcases hd with rfl | hd
    · exact (h.alive d hc).1
    · exact h.released d hd

/-- The main loop releases a context that only it or epoll has. -/
theorem Inv.releaseMain (h : s.Inv) (c : Nat) (pc : MainPc) (hc : s.Refers c)
    (hshare : s.Unshared c) (hplace : ∀ p, s.Has p c → p = .main ∨ p = .epoll)
    (hholds : pc.holds.Sublist s.main.holds) (hfree : c ∉ pc.holds)
    (hcollected : pc.collected.Sublist s.main.collected) (hleft : c ∉ pc.collected) :
    ({ s.closeAndRelease c with main := pc } : EpollSocket n).Inv := by
  apply h.release c hc
  · intro p d hp
    have hother : p ≠ .main → p ≠ .epoll → s.Has p d → s.Has p d ∧ d ≠ c := by
      intro hm he hs
      refine ⟨hs, ?_⟩
      rintro rfl
      exact (hplace p hs).elim hm he
    cases p with
    | main => exact ⟨hholds.subset hp, fun heq => hfree (heq ▸ hp)⟩
    | epoll =>
      obtain ⟨hs, hne⟩ := (has_closeAndRelease c .epoll d).mp hp
      exact ⟨hs, hne rfl⟩
    | tasks => exact hother (by simp) (by simp) hp
    | worker w => exact hother (by simp) (by simp) hp
  · rintro d (hd | hd | ⟨w, hd⟩ | ⟨w, hd⟩)
    · have hd' := (h.eclients.mem_erase_iff).mp hd
      exact ⟨Or.inl hd'.2, hd'.1⟩
    · exact ⟨Or.inr (Or.inl (hcollected.subset hd)), fun heq => hleft (heq ▸ hd)⟩
    · exact ⟨Or.inr (Or.inr (Or.inl ⟨w, hd⟩)), fun heq => (hshare w).1 (heq ▸ hd)⟩
    · exact ⟨Or.inr (Or.inr (Or.inr ⟨w, hd⟩)), fun heq => (hshare w).2 (heq ▸ hd)⟩
  · exact h.main.sublist hholds
  · rfl
  · rfl
  · exact h.collected.sublist hcollected
  · rfl
  · rfl

/-- A worker releases the context of its task. -/
theorem Inv.releaseWorker (h : s.Inv) (w : Fin n) (c : Nat) (hw : (s.workers w).task = some c)
    (hshare : s.Unshared c) (hcollected : c ∉ s.main.collected) :
    ((s.closeAndRelease c).setWorker w .idle).Inv := by
  have hat : s.Has (.worker w) c := hw
  have hother : ∀ p d, p ≠ .worker w → s.Has p d → d ≠ c := by
    rintro p d hne hp rfl
    exact hne (h.exclusive d p (.worker w) hp hat)
  apply h.release c (Or.inl ⟨.worker w, hat⟩)
  · intro p d hp
    rw [has_setWorker] at hp
    split at hp
    · cases hp
    · rename_i hne
      have hs := ((has_closeAndRelease c p d).mp hp).1
      exact ⟨hs, hother p d hne hs⟩
  · intro d hd
    rcases knows_setWorker d w .idle hd with (hd | hd | ⟨v, hd⟩ | ⟨v, hd⟩) | hd | hd
    · have hd' := (h.eclients.mem_erase_iff).mp hd
      exact ⟨Or.inl hd'.2, hd'.1⟩
    · exact ⟨Or.inr (Or.inl hd), fun heq => hcollected (heq ▸ hd)⟩
    · exact ⟨Or.inr (Or.inr (Or.inl ⟨v, hd⟩)), fun heq => (hshare v).1 (heq ▸ hd)⟩
    · exact ⟨Or.inr (Or.inr (Or.inr ⟨v, hd⟩)), fun heq => (hshare v).2 (heq ▸ hd)⟩
    · cases hd
    · cases hd
  · exact h.main
  · rfl
  · rfl
  · exact h.collected
  · rfl
  · rfl

end EpollSocket

end Ehttp
