import Ehttp.Epoll.Ownership

/-!
# No context is used after its release

The event loop and the workers hand a context on with its event, and the thread
that has the event releases it.  Three kinds of threads do not keep to this: a
worker that stores `CONTEXT_WRITE_OVER` behind its re-arm, a worker that reads
the copied table of `/_clients`, and the sweep, which releases what it has
collected without a look at who has it.

* `Clear`: what a release must find;
* `inv_step`: a step that is clear keeps the invariant;
* `stale_of_not_clear`: a release that is not clear leaves a reference behind;
* `safe_of_clear`: a run of clear steps uses no released context.
-/

namespace Ehttp

open Lib

namespace EpollSocket

variable {n : Nat}

/-- The condition on a release: no worker is behind the re-arm of the context or
has it in a copied table, the sweep finds no task for it, queued or taken, and a
worker or the main loop does not find it collected by the sweep. -/
def Clear (cfg : EpollConfig) (s : EpollSocket n) (a : Action n) : Prop :=
  ∀ c ∈ s.releases cfg a,
    s.Unshared c ∧
      if a = .main .remove then
        c ∉ s.tasks.map Task.ctx ∧ ∀ w, (s.workers w).task ≠ some c
      else c ∉ s.main.collected

instance (cfg : EpollConfig) (s : EpollSocket n) (a : Action n) : Decidable (Clear cfg s a) := by
  unfold Clear Unshared
  infer_instance

/-- The action uses no released context, and releases none twice. -/
def Safe (cfg : EpollConfig) (s : EpollSocket n) (a : Action n) : Prop :=
  (∀ c ∈ s.touches cfg a, c ∉ s.released) ∧ ∀ c ∈ s.releases cfg a, c ∉ s.released

instance (cfg : EpollConfig) (s : EpollSocket n) (a : Action n) : Decidable (Safe cfg s a) := by
  unfold Safe
  infer_instance

variable {cfg : EpollConfig} {s s' : EpollSocket n}

/-! ## What an action uses is known -/

theorem main_refers (c : Nat) (hc : s.main.ctx = some c) : s.Refers c := by
  rcases s.main.ctx_mem c hc with hc | hc
  · exact Or.inl ⟨.main, hc⟩
  · exact Or.inr (Or.inr (Or.inl hc))

theorem worker_refers (w : Fin n) (c : Nat) (hc : (s.workers w).ctx = some c) : s.Refers c := by
  cases hpc : s.workers w with
  | written d =>
    rw [hpc] at hc
    obtain rfl := Option.some.inj hc
    exact Or.inr (Or.inr (Or.inr (Or.inr ⟨w, hpc⟩)))
  | _ =>
    apply Or.inl
    refine ⟨.worker w, ?_⟩
    rw [hpc] at hc
    rw [Has, hpc]
    exact hc

theorem touches_refers (a : Action n) (c : Nat) (hc : c ∈ s.touches cfg a) : s.Refers c := by
  have hmain : c ∈ s.main.ctx.toList → s.Refers c := fun h => main_refers c (by simpa using h)
  cases a with
  | main a =>
    cases a with
    | add ok => exact hmain hc
    | mark => exact hmain hc
    | stamp => exact hmain hc
    | remove => exact hmain hc
    | enqueue =>
      simp only [touches, mainTouches] at hc
      split at hc
      · exact hmain hc
      · cases hc
    | collect =>
      simp only [touches, mainTouches] at hc
      split at hc
      · cases hc
      · exact Or.inr (Or.inl hc)
    | poll evs => cases hc
    | pollFail eintr => cases hc
    | accept => cases hc
    | skip => cases hc
    | endSweep => cases hc
  | worker w a =>
    have hworker : c ∈ (s.workers w).ctx.toList → s.Refers c :=
      fun h => worker_refers w c (by simpa using h)
    cases a with
    | look => exact Or.inr (Or.inr (Or.inr (Or.inl ⟨w, List.mem_of_mem_take hc⟩)))
    | _ => exact hworker hc
  | tick => cases hc
  | stop => cases hc
  | destroy => cases hc

theorem releases_touches (a : Action n) (c : Nat) (hc : c ∈ s.releases cfg a) :
    c ∈ s.touches cfg a := by
  unfold releases at hc
  split at hc
  · exact Option.mem_toList.mpr hc
  · exact Option.mem_toList.mpr hc
  · split at hc
    · rename_i hfull
      simp only [touches, mainTouches, if_pos hfull]
      exact Option.mem_toList.mpr hc
    · cases hc
  · exact Option.mem_toList.mpr hc
  · cases hc

theorem Inv.safe (h : s.Inv) (a : Action n) : Safe cfg s a := by
  constructor
  · intro c hc
    exact (h.alive c (touches_refers a c hc)).2
  · intro c hc
    exact (h.alive c (touches_refers a c (releases_touches a c hc))).2

/-! ## Every clear step keeps the invariant -/

theorem loopHead_holds (status : EpollSocketStatus) : (loopHead status).holds = [] := by
  cases status <;> rfl

theorem loopHead_collected (status : EpollSocketStatus) : (loopHead status).collected = [] := by
  cases status <;> rfl

theorem removeEvs_sublist : (s.removeEvs cfg).Sublist s.eclients := by
  unfold removeEvs
  split
  · exact List.nil_sublist _
  · exact List.filter_sublist

/-- The main loop releases the context it is at. -/
theorem Inv.drop (h : s.Inv) (c : Nat) (evs : List Ready)
    (hholds : s.main.holds = c :: evs.filterMap Ready.ctx) (hshare : s.Unshared c) :
    ({ s.closeAndRelease c with main := .events evs } : EpollSocket n).Inv := by
  have hc : s.Has .main c := by
    rw [Has, hholds]
    exact List.mem_cons_self
  have hnodup := h.main
  rw [hholds, List.nodup_cons] at hnodup
  apply h.releaseMain c (.events evs) (Or.inl ⟨.main, hc⟩) hshare
  · exact fun p hp => Or.inl (h.exclusive c p .main hp hc)
  · rw [hholds]
    exact List.sublist_cons_self _ _
  · exact hnodup.1
  · exact List.nil_sublist _
  · exact List.not_mem_nil

/-- The main loop gives the context it is at to epoll or to the pool. -/
theorem Inv.pass {s' : EpollSocket n} (h : s.Inv) (c : Nat) (evs : List Ready) (dst : Place n)
    (hholds : s.main.holds = c :: evs.filterMap Ready.ctx) (hmain : s'.main = .events evs)
    (hsub : ∀ p d, p ≠ .main → s'.Has p d → (p = dst ∧ d = c) ∨ s.Has p d)
    (htasks : (s'.tasks.map Task.ctx).Nodup) (heclients : s'.eclients = s.eclients)
    (hworkers : s'.workers = s.workers) (hid : s'.gClientId = s.gClientId)
    (hreleased : s'.released = s.released) : s'.Inv := by
  have hnodup := h.main
  rw [hholds, List.nodup_cons] at hnodup
  apply h.move c .main dst
  · rw [Has, hholds]
    exact List.mem_cons_self
  · intro hc
    rw [Has, hmain] at hc
    exact absurd hc hnodup.1
  · intro p d hp
    by_cases hp' : p = .main
    · subst hp'
      rw [Has, hmain] at hp
      rw [Has, hholds]
      exact Or.inr (List.mem_cons_of_mem _ hp)
    · exact hsub p d hp' hp
  · intro d hd
    simp only [Knows, hmain, heclients, hworkers, MainPc.collected] at hd
    rcases hd with hd | hd | hd
    · exact Or.inr (Or.inl hd)
    · cases hd
    · exact Or.inr (Or.inr (Or.inr hd))
  · rw [hmain]
    exact hnodup.2
  · exact htasks
  · rw [heclients]
    exact h.eclients
  · rw [hmain]
    exact List.nodup_nil
  · exact hid
  · exact hreleased

theorem inv_pollFail (h : s.Inv) (eintr : Bool) (hs : s.mainStep cfg (.pollFail eintr) = some s') :
    s'.Inv := by
  simp only [mainStep] at hs
  split at hs
  · obtain rfl := Option.some.inj hs
    cases eintr with
    | false => exact h.goOn .exited s.status (List.nil_sublist _) rfl
    | true =>
      apply h.goOn (loopHead s.status) s.status
      · rw [loopHead_holds]
        exact List.nil_sublist _
      · exact loopHead_collected _
  · cases hs

theorem inv_add (h : s.Inv) (ok : Bool) (hclear : Clear cfg s (.main (.add ok)))
    (hs : s.mainStep cfg (.add ok) = some s') : s'.Inv := by
  simp only [mainStep] at hs
  split at hs
  · rename_i c evs hpc
    have hholds : s.main.holds = c :: evs.filterMap Ready.ctx := by rw [hpc]; rfl
    cases ok with
    | true =>
      obtain rfl := Option.some.inj hs
      apply h.pass c evs .epoll hholds rfl
      · intro p d hne hp
        have hold := (@has_arm n s c p d .epollin).mp
        cases p with
        | main => exact absurd rfl hne
        | _ => exact hold hp
      · exact h.tasks
      · rfl
      · rfl
      · rfl
      · rfl
    | false =>
      obtain rfl := Option.some.inj hs
      exact h.drop c evs hholds (hclear c (by rw [releases, hpc]; rfl)).1
  · cases hs

theorem inv_mark (h : s.Inv) (hs : s.mainStep cfg .mark = some s') : s'.Inv := by
  -- the event becomes the one that is handled, whatever `_ctx_status` is set to
  have hmark : ∀ c events evs func status, s.main = .events (.client c events :: evs) →
      ({ s.setCtxStatus c status with main := .marked c func evs } : EpollSocket n).Inv := by
    intro c events evs func status hpc
    apply (h.setCtxStatus c status).goOn (.marked c func evs)
    · show (MainPc.marked c func evs).holds.Sublist s.main.holds
      rw [hpc]
      exact List.Sublist.refl _
    · rfl
  simp only [mainStep] at hs
  split at hs
  · rename_i c evs hpc
    obtain rfl := Option.some.inj hs
    exact hmark c _ evs _ _ hpc
  · rename_i c evs hpc
    obtain rfl := Option.some.inj hs
    exact hmark c _ evs _ _ hpc
  · cases hs

theorem inv_stamp (h : s.Inv) (hs : s.mainStep cfg .stamp = some s') : s'.Inv := by
  simp only [mainStep] at hs
  split at hs
  · rename_i c func evs hpc
    obtain rfl := Option.some.inj hs
    apply (h.updateInteractTime c).goOn (.stamped c func evs)
    · show (MainPc.stamped c func evs).holds.Sublist s.main.holds
      rw [hpc]
      exact List.Sublist.refl _
    · rfl
  · cases hs

/-- `add_task` takes the context. -/
theorem Inv.addTask (h : s.Inv) (c : Nat) (func : TaskFunc) (evs : List Ready)
    (hholds : s.main.holds = c :: evs.filterMap Ready.ctx) :
    ({ s with tasks := s.tasks ++ [⟨func, c⟩], main := .events evs } : EpollSocket n).Inv := by
  have hfree : c ∉ s.tasks.map Task.ctx := by
    intro hc
    have hm : s.Has .main c := by
      rw [Has, hholds]
      exact List.mem_cons_self
    cases h.exclusive c .tasks .main hc hm
  apply h.pass c evs .tasks hholds rfl
  · intro p d hne hp
    cases p with
    | main => exact absurd rfl hne
    | tasks =>
      simp only [Has, List.map_append, List.mem_append] at hp
      rcases hp with hp | hp
      · exact Or.inr hp
      · exact Or.inl ⟨rfl, List.mem_singleton.mp hp⟩
    | epoll => exact Or.inr hp
    | worker w => exact Or.inr hp
  · show ((s.tasks ++ [Task.mk func c]).map Task.ctx).Nodup
    rw [List.map_append, List.map_singleton, ← List.concat_eq_append]
    exact List.Nodup.concat hfree h.tasks
  · rfl
  · rfl
  · rfl
  · rfl

theorem inv_enqueue (h : s.Inv) (hclear : Clear cfg s (.main .enqueue))
    (hs : s.mainStep cfg .enqueue = some s') : s'.Inv := by
  simp only [mainStep, EpollSocket.addTask] at hs
  split at hs
  · rename_i c func evs hpc
    have hholds : s.main.holds = c :: evs.filterMap Ready.ctx := by rw [hpc]; rfl
    by_cases hfull : s.taskLimitReached cfg = true
    · rw [if_pos hfull] at hs
      obtain rfl := Option.some.inj hs
      exact h.drop c evs hholds (hclear c (by rw [releases, if_pos hfull, hpc]; rfl)).1
    · rw [if_neg hfull] at hs
      obtain rfl := Option.some.inj hs
      exact h.addTask c func evs hholds
  · cases hs

theorem inv_skip (h : s.Inv) (hs : s.mainStep cfg .skip = some s') : s'.Inv := by
  simp only [mainStep] at hs
  split at hs
  · rename_i evs hpc
    obtain rfl := Option.some.inj hs
    apply h.goOn
    · rw [hpc]
      exact List.Sublist.refl _
    · rfl
  · rename_i c evs hpc
    obtain rfl := Option.some.inj hs
    apply h.goOn
    · rw [hpc]
      exact List.sublist_cons_self _ _
    · rfl
  · cases hs

theorem inv_collect (h : s.Inv) (hs : s.mainStep cfg .collect = some s') : s'.Inv := by
  simp only [mainStep] at hs
  split at hs
  · obtain rfl := Option.some.inj hs
    apply h.setMain
    · exact List.nil_sublist _
    · exact h.eclients.sublist removeEvs_sublist
    · exact fun c hc => removeEvs_sublist.subset hc
  · cases hs

theorem inv_remove (h : s.Inv) (hclear : Clear cfg s (.main .remove))
    (hs : s.mainStep cfg .remove = some s') : s'.Inv := by
  simp only [mainStep] at hs
  split at hs
  · rename_i c evs hpc
    obtain rfl := Option.some.inj hs
    obtain ⟨hshare, hother⟩ := hclear c (by rw [releases, hpc]; rfl)
    rw [if_pos rfl] at hother
    have hnodup := h.collected
    rw [hpc] at hnodup
    apply h.releaseMain c (.sweep evs)
    · exact main_refers c (by rw [hpc]; rfl)
    · exact hshare
    · intro p hp
      cases p with
      | main => exact Or.inl rfl
      | epoll => exact Or.inr rfl
      | tasks => exact absurd hp hother.1
      | worker w => exact absurd hp (hother.2 w)
    · exact List.nil_sublist _
    · exact List.not_mem_nil
    · rw [hpc]
      exact List.sublist_cons_self _ _
    · exact (List.nodup_cons.mp hnodup).1
  · cases hs

theorem inv_endSweep (h : s.Inv) (hs : s.mainStep cfg .endSweep = some s') : s'.Inv := by
  simp only [mainStep] at hs
  split at hs
  · obtain rfl := Option.some.inj hs
    apply h.goOn
    · rw [loopHead_holds]
      exact List.nil_sublist _
    · exact loopHead_collected _
  · cases hs

theorem inv_mainStep (h : s.Inv) (a : MainAction) (hclear : Clear cfg s (.main a))
    (hs : s.mainStep cfg a = some s') : s'.Inv := by
  cases a with
  | poll evs =>
    simp only [mainStep] at hs
    split at hs
    · obtain ⟨armed, hdeliver, rfl⟩ := Option.map_eq_some_iff.mp hs
      exact h.poll evs armed hdeliver
    · cases hs
  | pollFail eintr => exact inv_pollFail h eintr hs
  | accept =>
    simp only [mainStep] at hs
    split at hs
    · rename_i evs hpc
      split at hs
      · obtain rfl := Option.some.inj hs
        exact h.accept evs hpc _ _
      · cases hs
    · cases hs
  | add ok => exact inv_add h ok hclear hs
  | mark => exact inv_mark h hs
  | stamp => exact inv_stamp h hs
  | enqueue => exact inv_enqueue h hclear hs
  | skip => exact inv_skip h hs
  | collect => exact inv_collect h hs
  | remove => exact inv_remove h hclear hs
  | endSweep => exact inv_endSweep h hs

theorem inv_take (h : s.Inv) (w : Fin n) (hs : s.workerStep w .take = some s') : s'.Inv := by
  simp only [workerStep] at hs
  split at hs
  · rename_i t tasks hpc ht
    split at hs
    · cases hs
    · obtain rfl := Option.some.inj hs
      obtain ⟨func, c⟩ := t
      apply h.take w ⟨func, c⟩ tasks _ ht
      · cases func <;> rfl
      · cases func <;> rfl
      · intro d hd
        cases func <;> cases hd
  · cases hs

theorem inv_getClients (h : s.Inv) (w : Fin n) (hs : s.workerStep w .getClients = some s') :
    s'.Inv := by
  simp only [workerStep] at hs
  split at hs
  · rename_i c hpc
    obtain rfl := Option.some.inj hs
    apply h.setWorker
    · rw [hpc]
      rfl
    · exact fun d hd => Or.inr (Or.inl hd)
    · intro d hd
      cases hd
  · cases hs

theorem inv_look (h : s.Inv) (w : Fin n) (hs : s.workerStep w .look = some s') : s'.Inv := by
  simp only [workerStep] at hs
  split at hs
  · rename_i c e eclients hpc
    obtain rfl := Option.some.inj hs
    apply h.setWorker
    · rw [hpc]
      rfl
    · intro d hd
      refine Or.inr (Or.inr (Or.inr (Or.inl ⟨w, ?_⟩)))
      rw [hpc]
      exact List.mem_cons_of_mem _ hd
    · intro d hd
      cases hd
  · cases hs

theorem inv_close (h : s.Inv) (w : Fin n) (hclear : Clear cfg s (.worker w .close))
    (hs : s.workerStep w .close = some s') : s'.Inv := by
  have hrelease : ∀ c, (s.workers w).task = some c → (s.workers w).ctx = some c →
      ((s.closeAndRelease c).setWorker w .idle).Inv := by
    intro c htask hctx
    obtain ⟨hshare, hother⟩ := hclear c hctx
    rw [if_neg (by simp)] at hother
    exact h.releaseWorker w c htask hshare hother
  simp only [workerStep] at hs
  split at hs
  · rename_i c ret hpc
    split at hs
    · obtain rfl := Option.some.inj hs
      exact hrelease c (by rw [hpc]; rfl) (by rw [hpc]; rfl)
    · cases hs
  · rename_i c ret hpc
    split at hs
    · obtain rfl := Option.some.inj hs
      exact hrelease c (by rw [hpc]; rfl) (by rw [hpc]; rfl)
    · cases hs
  · cases hs

theorem inv_store (h : s.Inv) (w : Fin n) (hs : s.workerStep w .store = some s') : s'.Inv := by
  have hstore : ∀ c status pc, pc.task = (s.workers w).task → pc.unread = [] →
      (∀ d, pc ≠ .written d) → ((s.setCtxStatus c status).setWorker w pc).Inv := by
    intro c status pc htask hunread hwritten
    exact (h.setCtxStatus c status).advance w pc htask hunread hwritten
  simp only [workerStep] at hs
  split at hs
  · rename_i c ret hpc
    obtain ⟨interest, -, rfl⟩ := Option.map_eq_some_iff.mp hs
    exact hstore c _ (.readStored c interest) (by rw [hpc]; rfl) rfl (by simp)
  · rename_i c hpc
    obtain rfl := Option.some.inj hs
    exact hstore c _ .idle (by rw [hpc]; rfl) rfl (by simp)
  · cases hs

theorem inv_rearm (h : s.Inv) (w : Fin n) (hs : s.workerStep w .rearm = some s') : s'.Inv := by
  simp only [workerStep] at hs
  split at hs
  · rename_i c interest hpc
    obtain rfl := Option.some.inj hs
    apply h.rearm w c interest .idle
    · rw [hpc]
      rfl
    · rfl
    · rfl
    · intro d hd
      cases hd
  · rename_i c ret hpc
    obtain ⟨interest, -, rfl⟩ := Option.map_eq_some_iff.mp hs
    apply h.rearm w c interest (.written c)
    · rw [hpc]
      rfl
    · rfl
    · rfl
    · intro d hd
      exact (WorkerPc.written.inj hd).symm
  · cases hs

theorem inv_workerStep (h : s.Inv) (w : Fin n) (a : WorkerAction)
    (hclear : Clear cfg s (.worker w a)) (hs : s.workerStep w a = some s') : s'.Inv := by
  cases a with
  | take => exact inv_take h w hs
  | onReadable ret =>
    simp only [workerStep] at hs
    split at hs
    · rename_i c hpc
      split at hs
      · cases hs
      · obtain rfl := Option.some.inj hs
        exact h.advance w _ (by rw [hpc]; rfl) rfl (by simp)
    · cases hs
  | getClients => exact inv_getClients h w hs
  | look => exact inv_look h w hs
  | endList =>
    simp only [workerStep] at hs
    split at hs
    · rename_i c hpc
      obtain rfl := Option.some.inj hs
      exact h.advance w _ (by rw [hpc]; rfl) rfl (by simp)
    · cases hs
  | onWriteable ret =>
    simp only [workerStep] at hs
    split at hs
    · rename_i c hpc
      obtain rfl := Option.some.inj hs
      exact h.advance w _ (by rw [hpc]; rfl) rfl (by simp)
    · cases hs
  | close => exact inv_close h w hclear hs
  | store => exact inv_store h w hs
  | rearm => exact inv_rearm h w hs

theorem inv_step (h : s.Inv) (a : Action n) (hclear : Clear cfg s a)
    (hs : s.step cfg a = some s') : s'.Inv := by
  cases a with
  | main a => exact inv_mainStep h a hclear hs
  | worker w a => exact inv_workerStep h w a hclear hs
  | tick =>
    obtain rfl := Option.some.inj hs
    exact ⟨h.exclusive, h.main, h.tasks, h.eclients, h.collected, h.alive, h.released⟩
  | stop =>
    obtain rfl := Option.some.inj hs
    exact ⟨h.exclusive, h.main, h.tasks, h.eclients, h.collected, h.alive, h.released⟩
  | destroy =>
    simp only [step] at hs
    split at hs
    · cases hs
    · obtain rfl := Option.some.inj hs
      exact ⟨h.exclusive, h.main, h.tasks, h.eclients, h.collected, h.alive, h.released⟩

/-! ## A release that is not clear -/

theorem mainStep_releases (a : MainAction) (c : Nat) (hc : c ∈ s.releases cfg (.main a))
    (hs : s.mainStep cfg a = some s') :
    (∃ pc, s' = { s.closeAndRelease c with main := pc }) ∧
      (a ≠ .remove → s.main.collected = []) := by
  cases a with
  | add ok =>
    simp only [mainStep] at hs
    split at hs
    · rename_i d evs hpc
      cases ok with
      | true => cases hc
      | false =>
        have hd : s.main.ctx = some c := hc
        rw [hpc] at hd
        obtain rfl := Option.some.inj hd
        exact ⟨⟨_, (Option.some.inj hs).symm⟩, fun _ => by rw [hpc]; rfl⟩
    · cases hs
  | enqueue =>
    simp only [releases] at hc
    split at hc
    · rename_i hfull
      simp only [mainStep, addTask, if_pos hfull] at hs
      split at hs
      · rename_i d func evs hpc
        rw [hpc] at hc
        obtain rfl := Option.some.inj hc
        exact ⟨⟨_, (Option.some.inj hs).symm⟩, fun _ => by rw [hpc]; rfl⟩
      · cases hs
    · cases hc
  | remove =>
    simp only [mainStep] at hs
    split at hs
    · rename_i d evs hpc
      have hd : s.main.ctx = some c := hc
      rw [hpc] at hd
      obtain rfl := Option.some.inj hd
      exact ⟨⟨_, (Option.some.inj hs).symm⟩, fun hne => absurd rfl hne⟩
    · cases hs
  | _ => cases hc

theorem close_releases (w : Fin n) (c : Nat) (hc : (s.workers w).ctx = some c)
    (hs : s.workerStep w .close = some s') :
    s' = (s.closeAndRelease c).setWorker w .idle ∧
      (s.workers w).unread = [] ∧ s.workers w ≠ .written c := by
  simp only [workerStep] at hs
  split at hs
  · rename_i d ret hpc
    rw [hpc] at hc
    obtain rfl := Option.some.inj hc
    split at hs
    · rw [hpc]
      exact ⟨(Option.some.inj hs).symm, rfl, nofun⟩
    · cases hs
  · rename_i d ret hpc
    rw [hpc] at hc
    obtain rfl := Option.some.inj hc
    split at hs
    · rw [hpc]
      exact ⟨(Option.some.inj hs).symm, rfl, nofun⟩
    · cases hs
  · cases hs

theorem shared_of_not {c : Nat} (h : ¬ s.Unshared c) :
    ∃ w, c ∈ (s.workers w).unread ∨ s.workers w = .written c := by
  obtain ⟨w, hw⟩ := Classical.not_forall.mp h
  refine ⟨w, ?_⟩
  rw [not_and_or, Classical.not_not, not_ne_iff] at hw
  exact hw

/-- Behind a release that is not clear, a released context is known or had. -/
theorem stale_of_not_clear (a : Action n) (hclear : ¬ Clear cfg s a)
    (hs : s.step cfg a = some s') : ∃ c ∈ s'.released, s'.Refers c := by
  simp only [Clear, Classical.not_forall] at hclear
  obtain ⟨c, hc, hleft⟩ := hclear
  refine ⟨c, ?_⟩
  cases a with
  | main a =>
    obtain ⟨⟨pc, rfl⟩, hcollected⟩ := mainStep_releases a c hc hs
    refine ⟨List.mem_cons_self, ?_⟩
    by_cases hshare : s.Unshared c
    · have hother := fun h => hleft ⟨hshare, h⟩
      by_cases heq : a = .remove
      · rw [if_pos (by rw [heq])] at hother
        by_cases htask : c ∈ s.tasks.map Task.ctx
        · exact Or.inl ⟨.tasks, htask⟩
        · have hworker := fun h => hother ⟨htask, h⟩
          obtain ⟨w, hw⟩ := Classical.not_forall.mp hworker
          exact Or.inl ⟨.worker w, Classical.not_not.mp hw⟩
      · rw [if_neg (by simp [heq]), hcollected heq] at hother
        exact absurd List.not_mem_nil hother
    · obtain ⟨w, hw | hw⟩ := shared_of_not hshare
      · exact Or.inr (Or.inr (Or.inr (Or.inl ⟨w, hw⟩)))
      · exact Or.inr (Or.inr (Or.inr (Or.inr ⟨w, hw⟩)))
  | worker w a =>
    cases a with
    | close =>
      obtain ⟨rfl, hunread, hwritten⟩ := close_releases w c hc hs
      refine ⟨List.mem_cons_self, ?_⟩
      have hkeep : ∀ v, v ≠ w →
          ((s.closeAndRelease c).setWorker w .idle).workers v = s.workers v :=
        fun v hne => Function.update_of_ne hne _ _
      by_cases hshare : s.Unshared c
      · have hother := fun h => hleft ⟨hshare, h⟩
        rw [if_neg (by simp)] at hother
        exact Or.inr (Or.inr (Or.inl (Classical.not_not.mp hother)))
      · obtain ⟨v, hv⟩ := shared_of_not hshare
        have hne : v ≠ w := by
          rintro rfl
          rw [hunread] at hv
          exact hv.elim List.not_mem_nil hwritten
        rw [← hkeep v hne] at hv
        rcases hv with hv | hv
        · exact Or.inr (Or.inr (Or.inr (Or.inl ⟨v, hv⟩)))
        · exact Or.inr (Or.inr (Or.inr (Or.inr ⟨v, hv⟩)))
    | _ => cases hc
  | tick => cases hc
  | stop => cases hc
  | destroy => cases hc

/-! ## Runs -/

/-- **Lifetime.**  In a run of the event loop and its workers in which every
release is clear, no action uses a released context. -/
theorem safe_of_clear (cfg : EpollConfig) (as : List (Action n))
    (h : Throughout (step cfg) (Clear cfg) {} as) : Throughout (step cfg) (Safe cfg) {} as := by
  apply Throughout.of_invariant (step cfg) Inv (Clear cfg) (Safe cfg)
  · intro s a s' hs hclear hstep
    exact ⟨hs.safe a, inv_step hs a hclear hstep⟩
  · exact inv_init
  · exact h

/-- A client is accepted, and its first request read and answered by the first
worker, up to the re-arm of `handle_writeable_event`. -/
def answered : List (Action 2) :=
  [.main (.poll [.listen]), .main .accept, .main (.add true), .main .collect, .main .endSweep,
    .main (.poll [.client 1 (some .epollin)]), .main .mark, .main .stamp, .main .enqueue,
    .main .collect, .main .endSweep,
    .worker 0 .take, .worker 0 (.onReadable .readOver), .worker 0 .store, .worker 0 .rearm,
    .main (.poll [.client 1 (some .epollout)]), .main .mark, .main .stamp, .main .enqueue,
    .main .collect, .main .endSweep,
    .worker 0 .take, .worker 0 (.onWriteable .connAlive), .worker 0 .rearm]

/-- The client closes, which the second worker reads. -/
def closed : List (Action 2) :=
  [.main (.poll [.client 1 (some .epollin)]), .main .mark, .main .stamp, .main .enqueue,
    .worker 1 .take, .worker 1 (.onReadable .readClose), .worker 1 .close]

theorem safe_of_clear_closed :
    ((answered ++ .worker 0 .store :: closed).foldlM (step {}) {}).map EpollSocket.released =
        some [1] ∧
      Throughout (step {}) (Safe {}) {} (answered ++ .worker 0 .store :: closed) :=
  ⟨by decide +kernel, safe_of_clear {} (answered ++ .worker 0 .store :: closed) (by decide +kernel)⟩

/-- The first worker is in `write_func`, behind the re-arm, when the second one
closes. -/
theorem released_while_written :
    ¬ Throughout (step {}) (Safe {}) {} (answered ++ closed ++ [.worker 0 .store]) := by
  decide +kernel

end EpollSocket

end Ehttp
