import Ehttp.Epoll.Server

/-!
# `stop_epoll`

What is left of the clients when `stop_epoll` has returned, and whether the loop
then comes to its end.

* `Quiet`: the steps that leave nothing to a pool that is stopped;
* `QuietInv.not_busy`: then no context waits for a task;
* `stop_completes`: the loop can stop;
* `stop_stuck`: an event behind the stop that is not quiet.
-/

namespace Ehttp

open Lib

namespace Server

variable {n : Nat} {cfg : EpollConfig} {s s' : Server n} {p : Ptr}

/-! ## The pool on its own -/

theorem pool_of_addTask (task : Task) (woken : Option (Fin n))
    (h : s.addTask cfg task woken = some s') :
    ThreadPool.step cfg.taskSizeLimit s.pool (.addTask task woken) = some s'.pool := by
  obtain ⟨⟨ret, pool⟩, hadd, rfl⟩ := Option.map_eq_some_iff.mp h
  rw [ThreadPool.step, hadd]
  rfl

/-- A step of the server is a step of its pool, or none. -/
theorem pool_of_step (a : Action n) (hc : step cfg s a = some s') : s'.pool = s.pool ∨
    ∃ b, ThreadPool.step cfg.taskSizeLimit s.pool b = some s'.pool ∧
      (b = .ret → a = .pool .ret) := by
  cases a with
  | accept p addOk =>
    obtain ⟨-, hc⟩ := Option.ite_none_right_eq_some.mp hc
    obtain rfl := Option.some.inj hc
    exact Or.inl rfl
  | send id =>
    obtain ⟨-, hc⟩ := Option.ite_none_right_eq_some.mp hc
    obtain rfl := Option.some.inj hc
    exact Or.inl rfl
  | shut id =>
    obtain ⟨-, hc⟩ := Option.ite_none_right_eq_some.mp hc
    obtain rfl := Option.some.inj hc
    exact Or.inl rfl
  | dispatch p events woken =>
    obtain ⟨hp, ⟨func, -, hadd⟩ | ⟨-, rfl⟩⟩ := dispatch_cases events woken hc
    · have hpool := pool_of_addTask ⟨func, p⟩ woken hadd
      exact Or.inr ⟨_, hpool, by simp⟩
    · exact Or.inl rfl
  | run w onReadable onWriteable =>
    obtain ⟨offer, events, hw, rfl⟩ := run_cases w onReadable onWriteable hc
    exact Or.inr ⟨.finish w, by simp only [ThreadPool.step, hw], by simp⟩
  | sweep | check | tick =>
    obtain rfl := Option.some.inj hc
    exact Or.inl rfl
  | reject =>
    obtain ⟨-, hc⟩ := Option.ite_none_right_eq_some.mp hc
    obtain rfl := Option.some.inj hc
    exact Or.inl rfl
  | pool a =>
    obtain ⟨-, -, hc⟩ := pool_cases a hc
    obtain ⟨pool, hpool, rfl⟩ := Option.map_eq_some_iff.mp hc
    refine Or.inr ⟨a.action, hpool, fun hret => ?_⟩
    cases a with
    | ret => rfl
    | lock | spurious | exit | stop | join => cases hret

theorem pool_of_reachable (h : Reachable (step cfg) s s') :
    Reachable (ThreadPool.step cfg.taskSizeLimit) s.pool s'.pool := by
  induction h with
  | refl => exact .refl
  | tail a _ hc ih =>
    rcases pool_of_step a hc with heq | ⟨b, hb, -⟩
    · rw [heq]
      exact ih
    · exact ih.tail b hb

/-! ## Quiet runs -/

/-- A step that leaves nothing to a pool that is stopped: the pool is stopped
with an empty queue, no event of a client is dispatched to it afterwards, and
`stop_epoll` returns only where the sweep will find those clients that are left. -/
def Quiet (cfg : EpollConfig) (s : Server n) : Action n → Prop
  | .pool .stop => s.pool.tasks = []
  | .dispatch _ events _ => s.pool.poolState = .stopped → ¬ (events.epollin ∨ events.epollout)
  | .pool .ret => 0 < cfg.maxIdleSec ∨ s.core.eclients = []
  | _ => True

instance (cfg : EpollConfig) (s : Server n) (a : Action n) : Decidable (s.Quiet cfg a) :=
  match a with
  | .dispatch _ events _ => inferInstanceAs (Decidable (s.pool.poolState = .stopped →
      ¬ (events.epollin = true ∨ events.epollout = true)))
  | .pool .stop => inferInstanceAs (Decidable (s.pool.tasks = []))
  | .pool .ret => inferInstanceAs (Decidable (0 < cfg.maxIdleSec ∨ s.core.eclients = []))
  | .pool (.lock _) | .pool (.spurious _) | .pool (.exit _) | .pool .join | .accept _ _ | .send _
  | .shut _ | .run _ _ _ | .sweep | .check | .tick | .reject => isTrue trivial

/-- `stop_epoll` has returned. -/
def Returned (s : Server n) : Prop := ∃ ret, s.pool.destroy = .returned ret

/-- A context that is there is held by a task that was accepted, and that no
thread will take. -/
def Stuck (cfg : EpollConfig) (s : Server n) : Prop :=
  ∃ offer ∈ s.pool.accepted, s.core.Live offer.task.ctx ∧
    ∀ s', Reachable (step cfg) s s' → offer ∉ s'.pool.taken

/-- Some steps lead to `S_STOP`: every context is released, every client has
closed its socket. -/
def CanStop (cfg : EpollConfig) (s : Server n) : Prop :=
  ∃ s', Reachable (step cfg) s s' ∧ s'.core.status = .stop ∧ (∀ p, ¬ s'.core.Live p) ∧
    ∀ id ∈ s'.core.accepted, id ∈ s'.core.released ∧ id ∈ s'.shut

structure QuietInv (cfg : EpollConfig) (s : Server n) : Prop where
  inv : s.Inv
  pool : Reachable (ThreadPool.step cfg.taskSizeLimit) {} s.pool
  tasks : s.pool.poolState = .stopped → s.pool.tasks = []
  swept : s.Returned → 0 < cfg.maxIdleSec ∨ ∀ p, ¬ s.core.Live p

theorem quietInv_init : QuietInv cfg ({} : Server n) where
  inv := inv_init
  pool := .refl
  tasks := fun _ => rfl
  swept := by
    rintro ⟨ret, hret⟩
    cases hret

theorem QuietInv.stopped (h : QuietInv cfg s) (hret : s.Returned) :
    s.pool.poolState = .stopped := by
  obtain ⟨ret, hret⟩ := hret
  refine (ThreadPool.inv_of_reachable h.pool).stopped ?_
  rw [hret]
  exact DestroyPc.noConfusion

theorem quiet_tasks (h : QuietInv cfg s) (a : Action n) (hquiet : s.Quiet cfg a)
    (hc : step cfg s a = some s') (hstop : s'.pool.poolState = .stopped) : s'.pool.tasks = [] := by
  cases a with
  | accept | send | shut | reject =>
    obtain ⟨-, hc⟩ := Option.ite_none_right_eq_some.mp hc
    obtain rfl := Option.some.inj hc
    exact h.tasks hstop
  | sweep | check | tick =>
    obtain rfl := Option.some.inj hc
    exact h.tasks hstop
  | dispatch p events woken =>
    obtain ⟨-, ⟨func, hknown, hadd⟩ | ⟨-, rfl⟩⟩ := dispatch_cases events woken hc
    · rcases addTask_cases ⟨func, p⟩ woken hadd with rfl | ⟨threads, -, rfl⟩
      · exact absurd hknown (hquiet hstop)
      · exact absurd hknown (hquiet hstop)
    · exact h.tasks hstop
  | run w onReadable onWriteable =>
    obtain ⟨offer, events, -, rfl⟩ := run_cases w onReadable onWriteable hc
    exact h.tasks hstop
  | pool a =>
    obtain ⟨-, -, hc⟩ := pool_cases a hc
    obtain ⟨pool, hpool, rfl⟩ := Option.map_eq_some_iff.mp hc
    cases a with
    | lock w =>
      obtain ⟨-, rfl⟩ := ThreadPool.lock_cases w hpool
      rcases s.pool.pick_cases w with ⟨hstate, hpick⟩ | ⟨hstate, -, hpick⟩ |
        ⟨offer, tasks, hstate, -, hpick⟩
      · simp only [hpick]
        exact h.tasks hstate
      · simp only [hpick] at hstop
        exact PoolState.noConfusion (hstate.symm.trans hstop)
      · simp only [hpick] at hstop
        exact PoolState.noConfusion (hstate.symm.trans hstop)
    | spurious w =>
      obtain ⟨-, rfl⟩ := ThreadPool.spurious_cases w hpool
      exact h.tasks hstop
    | exit w =>
      rcases ThreadPool.finish_cases w hpool with ⟨-, -, rfl⟩ | ⟨-, rfl⟩
      · exact h.tasks hstop
      · exact h.tasks hstop
    | stop =>
      obtain ⟨-, rfl⟩ := ThreadPool.stop_cases hpool
      exact hquiet
    | join =>
      obtain ⟨i, hi, -, -, rfl⟩ := ThreadPool.join_cases hpool
      exact h.tasks hstop
    | ret =>
      obtain ⟨-, rfl⟩ := ThreadPool.ret_cases hpool
      exact h.tasks hstop

/-- A context that is new is accepted while the server runs. -/
theorem live_step (h : s.Inv) (a : Action n) (hc : step cfg s a = some s')
    (hrun : s.core.status ≠ .run) (hp : s'.core.Live p) : s.core.Live p := by
  cases a with
  | accept q addOk =>
    obtain ⟨⟨hstatus, -⟩, -⟩ := Option.ite_none_right_eq_some.mp hc
    exact absurd hstatus hrun
  | send | shut | reject =>
    obtain ⟨-, hc⟩ := Option.ite_none_right_eq_some.mp hc
    obtain rfl := Option.some.inj hc
    exact hp
  | dispatch q events woken =>
    obtain ⟨hq, ⟨func, -, hadd⟩ | ⟨-, rfl⟩⟩ := dispatch_cases events woken hc
    · have hd := h.core.dispatch hq func
      have hlive := (hd.live q).mpr (h.core.armed q hq).1
      rcases addTask_cases ⟨func, q⟩ woken hadd with rfl | ⟨threads, -, rfl⟩
      · exact (hd.live p).mp ((Clients.live_closeAndRelease hlive p).mp hp).1
      · exact (hd.live p).mp hp
    · exact hp
  | run w onReadable onWriteable =>
    obtain ⟨offer, events, hw, rfl⟩ := run_cases w onReadable onWriteable hc
    have hbusy := (h.busy offer.task.ctx).mp ⟨some w, offer, hw, rfl⟩
    exact Clients.live_finish hbusy.live events p hp
  | sweep =>
    obtain rfl := Option.some.inj hc
    exact (Clients.clearIdleClients_spec h.core cfg.maxIdleSec).2.1 p hp
  | check =>
    obtain rfl := Option.some.inj hc
    rw [Clients.stopIfEmpty_eq] at hp
    exact hp
  | tick =>
    obtain rfl := Option.some.inj hc
    exact hp
  | pool a =>
    obtain ⟨-, -, hc⟩ := pool_cases a hc
    obtain ⟨pool, -, rfl⟩ := Option.map_eq_some_iff.mp hc
    exact hp

theorem returned_step (a : Action n) (hc : step cfg s a = some s') (hret : s'.Returned) :
    s.Returned ∨ a = .pool .ret := by
  obtain ⟨ret, hret⟩ := hret
  rcases pool_of_step a hc with heq | ⟨b, hb, ha⟩
  · exact Or.inl ⟨ret, heq ▸ hret⟩
  · rcases ThreadPool.returned_step b hb ret hret with hold | hb
    · exact Or.inl ⟨ret, hold⟩
    · exact Or.inr (ha hb)

theorem Inv.not_live (h : s.Inv) (hempty : s.core.eclients = []) (p : Ptr) : ¬ s.core.Live p := by
  intro hp
  obtain ⟨id, hid⟩ := Clients.live_iff_idAt.mp hp
  rw [← h.core.keyed, hempty] at hid
  exact List.not_mem_nil hid

theorem quietInv_step (s : Server n) (a : Action n) (s' : Server n) (h : QuietInv cfg s)
    (hquiet : s.Quiet cfg a) (hc : step cfg s a = some s') : QuietInv cfg s' where
  inv := inv_step s a s' h.inv hc
  pool := by
    rcases pool_of_step a hc with heq | ⟨b, hb, -⟩
    · rw [heq]
      exact h.pool
    · exact h.pool.tail b hb
  tasks := quiet_tasks h a hquiet hc
  swept := by
    intro hret
    have hold : s.pool.poolState = .stopped ∧ (0 < cfg.maxIdleSec ∨ ∀ p, ¬ s.core.Live p) := by
      rcases returned_step a hc hret with hret | rfl
      · exact ⟨h.stopped hret, h.swept hret⟩
      · obtain ⟨-, -, hpool⟩ := pool_cases .ret hc
        obtain ⟨pool, hpool, -⟩ := Option.map_eq_some_iff.mp hpool
        obtain ⟨hd, -⟩ := ThreadPool.ret_cases hpool
        refine ⟨(ThreadPool.inv_of_reachable h.pool).stopped ?_, hquiet.imp id h.inv.not_live⟩
        rw [hd]
        exact DestroyPc.noConfusion
    refine hold.2.imp id fun hnone p hp => hnone p ?_
    exact live_step h.inv a hc (h.inv.stopped hold.1) hp

/-! ## The way to `S_STOP` -/

theorem QuietInv.not_busy (h : QuietInv cfg s) (hret : s.Returned) (p : Ptr) :
    ¬ s.core.Busy p := by
  rw [← h.inv.busy]
  rintro ⟨o, ho⟩
  cases o with
  | none =>
    rw [Has, h.tasks (h.stopped hret)] at ho
    exact List.not_mem_nil ho
  | some w =>
    obtain ⟨offer, hw, -⟩ := ho
    obtain ⟨ret, hret⟩ := hret
    rw [ThreadPool.exited_of_returned h.pool ret hret w] at hw
    cases hw

theorem reachable_tick (k : Nat) (s : Server n) : Reachable (step cfg) s
    { s with core := { s.core with now := s.core.now + k } } := by
  induction k with
  | zero =>
    have heq : s.core.now + (0 : Nat) = s.core.now := by omega
    rw [heq]
    exact .refl
  | succ k ih =>
    have hc : step cfg { s with core := { s.core with now := s.core.now + k } } .tick =
        some { s with core := { s.core with now := s.core.now + (k + 1 : Nat) } } := by
      simp only [step, Nat.cast_add, Nat.cast_one, add_assoc]
    exact ih.tail .tick hc

/-- The clients close their sockets. -/
theorem reachable_shut (cfg : EpollConfig) (ids : List Nat) (s : Server n)
    (hids : ∀ id ∈ ids, id ∈ s.core.accepted) :
    ∃ s', Reachable (step cfg) s s' ∧ s'.core = s.core ∧ (∀ id ∈ s.shut, id ∈ s'.shut) ∧
      ∀ id ∈ ids, id ∈ s'.shut := by
  induction ids generalizing s with
  | nil => exact ⟨s, .refl, rfl, fun _ hid => hid, fun _ hid => absurd hid List.not_mem_nil⟩
  | cons id ids ih =>
    have hrest : ∀ id ∈ ids, id ∈ s.core.accepted := fun id hid =>
      hids id (List.mem_cons_of_mem _ hid)
    by_cases hshut : id ∈ s.shut
    · obtain ⟨s', hreach, hcore, hkeep, hall⟩ := ih s hrest
      refine ⟨s', hreach, hcore, hkeep, fun id' hid' => ?_⟩
      rcases List.mem_cons.mp hid' with rfl | hid'
      · exact hkeep id' hshut
      · exact hall id' hid'
    · have hc : step cfg s (.shut id) = some { s with shut := id :: s.shut } :=
        if_pos ⟨hids id List.mem_cons_self, hshut⟩
      obtain ⟨s', hreach, hcore, hkeep, hall⟩ := ih { s with shut := id :: s.shut } hrest
      refine ⟨s', hreach.head _ _ hc, hcore, fun id' hid' => ?_, fun id' hid' => ?_⟩
      · exact hkeep id' (List.mem_cons_of_mem _ hid')
      · rcases List.mem_cons.mp hid' with rfl | hid'
        · exact hkeep id' List.mem_cons_self
        · exact hall id' hid'

/-- The check at the end of the loop, where no context is left. -/
theorem Inv.canStop (cfg : EpollConfig) (h : s.Inv) (hrun : s.core.status ≠ .run)
    (hnone : ∀ p, ¬ s.core.Live p) : CanStop cfg s := by
  have hc : step cfg s .check = some { s with core := s.core.stopIfEmpty } := rfl
  obtain ⟨s', hreach, hcore, -, hshut⟩ := reachable_shut cfg s.core.accepted
    { s with core := s.core.stopIfEmpty } (by rw [Clients.stopIfEmpty_eq]; exact fun _ hid => hid)
  have hstop := h.core.stopIfEmpty_stop hrun hnone
  rw [Clients.stopIfEmpty_eq] at hcore hstop
  refine ⟨s', hreach.head _ _ hc, ?_, ?_, ?_⟩
  · rw [hcore]
    exact hstop
  · rw [hcore]
    exact hnone
  · rw [hcore]
    intro id hid
    refine ⟨?_, hshut id hid⟩
    by_contra hnot
    obtain ⟨p, hp⟩ := (h.core.exact.live id).mpr ⟨hid, hnot⟩
    exact hnone p (Clients.live_iff_idAt.mpr ⟨id, hp⟩)

/-- The contexts that are left grow idle, and are swept. -/
theorem Inv.canSweep (h : s.Inv) (hmax : 0 < cfg.maxIdleSec) (hbusy : ∀ p, ¬ s.core.Busy p) :
    ∃ core, Reachable (step cfg) s { s with core } ∧ (∀ p, ¬ core.Live p) ∧ core.Inv ∧
      (core.status = .run → s.core.status = .run) := by
  obtain ⟨t, ht⟩ := Clients.exists_lastInteractTime h.core
  let later : Clients :=
    { s.core with now := s.core.now + (t + cfg.maxIdleSec - s.core.now).toNat }
  have hreach : Reachable (step cfg) s { s with core := later } := reachable_tick _ s
  have hinv : later.Inv := { h.core with }
  have hidle : ∀ p ctx, later.heap p = some ctx →
      ctx.lastInteractTime ≤ later.now - cfg.maxIdleSec := by
    intro p ctx hctx
    have hle := ht p ctx hctx
    have hnow : later.now = s.core.now + (t + cfg.maxIdleSec - s.core.now).toNat := rfl
    omega
  refine ⟨later.clearIdleClients cfg.maxIdleSec, hreach.tail .sweep rfl, ?_, ?_, fun hrun => ?_⟩
  · exact Clients.clearIdleClients_all hinv cfg.maxIdleSec hmax hbusy hidle
  · exact (Clients.clearIdleClients_spec hinv cfg.maxIdleSec).1
  · have hrun' : later.status = .run := Clients.run_of_clearIdleClients _ hrun
    exact hrun'

/-- **The stop completes** in every state behind the return of `stop_epoll`, in
a run whose steps are quiet. -/
theorem stop_completes (cfg : EpollConfig) (as : List (Action n)) (s : Server n)
    (hquiet : Throughout (step cfg) (Quiet cfg) {} as) (hrun : as.foldlM (step cfg) {} = some s)
    (hret : s.Returned) : ¬ s.Stuck cfg ∧ s.CanStop cfg := by
  have h : QuietInv cfg s := Throughout.invariant (step cfg) (QuietInv cfg) (Quiet cfg)
    quietInv_step {} s quietInv_init as hquiet hrun
  have hstatus := h.inv.stopped (h.stopped hret)
  constructor
  · rintro ⟨offer, hoffer, -, hnever⟩
    apply hnever s .refl
    rw [(ThreadPool.inv_of_reachable h.pool).queue, h.tasks (h.stopped hret),
      List.append_nil] at hoffer
    exact hoffer
  · rcases h.swept hret with hmax | hnone
    · obtain ⟨core, hreach, hnone, hcore, hkeep⟩ := h.inv.canSweep hmax (h.not_busy hret)
      have hinv : Inv { s with core } :=
        Reachable.invariant (step cfg) Inv inv_step h.inv hreach
      obtain ⟨s', hreach', hstop⟩ := hinv.canStop cfg (mt hkeep hstatus) hnone
      exact ⟨s', hreach.trans _ hreach', hstop⟩
    · exact h.inv.canStop cfg hstatus hnone

/-- One connection, and then the whole of `stop_epoll` with one thread. -/
def stopWithClient : List (Action 1) :=
  [.accept 16 true, .reject, .pool .stop, .pool (.lock ThreadPool.worker),
    .pool (.exit ThreadPool.worker), .pool .join, .pool .ret]

theorem stop_completes_idle : ∃ s, stopWithClient.foldlM (step { maxIdleSec := 5 }) {} = some s ∧
    s.Returned ∧ s.core.Live 16 ∧ ¬ s.Stuck { maxIdleSec := 5 } ∧
    s.CanStop { maxIdleSec := 5 } := by
  have hrun : (stopWithClient.foldlM (step { maxIdleSec := 5 }) {}).map
      (fun s => (s.pool.destroy, (s.core.heap 16).isSome)) = some (.returned 0, true) := by
    decide +kernel
  obtain ⟨s, hs, hstate⟩ := Option.map_eq_some_iff.mp hrun
  simp only [Prod.mk.injEq] at hstate
  have hret : s.Returned := ⟨0, hstate.1⟩
  refine ⟨s, hs, hret, hstate.2, ?_⟩
  exact stop_completes { maxIdleSec := 5 } stopWithClient s (by decide +kernel) hs hret

/-- The client sends a request behind the return of `stop_epoll`. -/
def stopAndSend : List (Action 1) :=
  stopWithClient ++ [.send 1, .dispatch 16 { epollin := true } none]

theorem stop_stuck : ¬ ∀ (cfg : EpollConfig) (s : Server 1), Reachable (step cfg) {} s →
    s.Returned → ¬ s.Stuck cfg ∧ s.CanStop cfg := by
  intro hall
  have hrun : (stopAndSend.foldlM (step {}) {}).map
      (fun s => (s.pool.destroy, s.pool.accepted, s.pool.taken, (s.core.heap 16).isSome)) =
      some (.returned 0, [⟨0, ⟨.readFunc, 16⟩⟩], [], true) := by decide +kernel
  obtain ⟨s, hs, hstate⟩ := Option.map_eq_some_iff.mp hrun
  simp only [Prod.mk.injEq] at hstate
  obtain ⟨hret, haccepted, htaken, hlive⟩ := hstate
  have hreach := reachable_of_run (step {}) stopAndSend hs
  have hstop : s.pool.poolState = .stopped := by
    refine (ThreadPool.inv_of_reachable (pool_of_reachable hreach)).stopped ?_
    rw [hret]
    exact DestroyPc.noConfusion
  refine (hall {} s hreach ⟨0, hret⟩).1 ?_
  refine ⟨⟨0, ⟨.readFunc, 16⟩⟩, by simp [haccepted], hlive, fun s' hs' => ?_⟩
  have hlater := ThreadPool.later_of_reachable (pool_of_reachable hs')
  rw [(hlater.stopped hstop).2, htaken]
  exact List.not_mem_nil

end Server

end Ehttp
