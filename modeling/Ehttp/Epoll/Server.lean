import Ehttp.Epoll.Table
import Ehttp.Pool.ThreadPool

/-!
# The server: event loop, pool and clients

The event loop with the threads of its pool and with clients that send and
close their sockets when they like.  `stop_epoll` stores `S_REJECT_CONN` and
destroys the pool, step by step as `threadpool.cpp` does; the loop goes on until
the last client is gone.  What a task does to its context happens at its end.

* `Inv`: the tasks that are queued or running are those of the busy contexts;
* `dispatch_cases`, `run_cases`, `pool_cases`: what the steps do;
* `inv_step`: each of them keeps the invariant.
-/

namespace Ehttp

open Lib

/-- What epoll can report: a bit that was asked for, and `EPOLLERR` and
`EPOLLHUP` in any case. -/
def Mask.reported (m : Mask) (interest : Interest) (readable : Bool) : Bool :=
  m.any && (!m.epollin || (interest == .epollin && readable)) &&
    (!m.epollout || interest == .epollout)

/-- `sent` and `shut` are the ids of the clients that have sent something, and
closed their sockets. -/
structure Server (n : Nat) where
  core : Clients := {}
  pool : ThreadPool Task n := {}
  sent : List Nat := []
  shut : List Nat := []

namespace Server

variable {n : Nat}

/-- A task that is refused closes its context. -/
def addTask (cfg : EpollConfig) (s : Server n) (task : Task) (woken : Option (Fin n)) :
    Option (Server n) :=
  (s.pool.addTask cfg.taskSizeLimit ⟨s.pool.calls, task⟩ woken).map fun (ret, pool) =>
    { s with
      core := if ret ≠ 0 then s.core.closeAndRelease task.ctx else s.core
      pool := pool.record ⟨s.pool.calls, task⟩ ret }

def multiThreadHandleReadEvent (cfg : EpollConfig) (s : Server n) (p : Ptr)
    (woken : Option (Fin n)) : Option (Server n) :=
  addTask cfg { s with core := s.core.startTask p .readFunc } ⟨.readFunc, p⟩ woken

def multiThreadHandleWriteEvent (cfg : EpollConfig) (s : Server n) (p : Ptr)
    (woken : Option (Fin n)) : Option (Server n) :=
  addTask cfg { s with core := s.core.startTask p .writeFunc } ⟨.writeFunc, p⟩ woken

def handleEvent (cfg : EpollConfig) (s : Server n) (p : Ptr) (events : Mask)
    (woken : Option (Fin n)) : Option (Server n) :=
  if events.epollin then s.multiThreadHandleReadEvent cfg p woken
  else if events.epollout then s.multiThreadHandleWriteEvent cfg p woken
  else some s

/-- What a thread of the pool, or the thread in `destroy_threadpool`, does that
runs no task. -/
inductive PoolAction (n : Nat)
  | lock (w : Fin n) | spurious (w : Fin n) | exit (w : Fin n)
  | stop | join | ret
  deriving DecidableEq, Repr

def PoolAction.action : PoolAction n → ThreadPool.Action Task n
  | .lock w => .lock w
  | .spurious w => .spurious w
  | .exit w => .finish w
  | .stop => .stop
  | .join => .join
  | .ret => .ret

/-- `send` and `shut` are steps of a client, `reject` the first statement of
`stop_epoll`. -/
inductive Action (n : Nat)
  | accept (p : Ptr) (addOk : Bool)
  | send (id : Nat) | shut (id : Nat)
  | dispatch (p : Ptr) (events : Mask) (woken : Option (Fin n))
  | run (w : Fin n) (onReadable : ReadRet) (onWriteable : WriteRet)
  | sweep | check | tick
  | reject
  | pool (a : PoolAction n)
  deriving DecidableEq, Repr

def poolStep (cfg : EpollConfig) (s : Server n) (a : PoolAction n) : Option (Server n) :=
  (ThreadPool.step cfg.taskSizeLimit s.pool a.action).map fun pool => { s with pool }

def step (cfg : EpollConfig) (s : Server n) : Action n → Option (Server n)
  | .accept p addOk =>
    if s.core.status = .run ∧ ¬ s.core.Live p then some { s with core := s.core.accept p addOk }
    else none
  | .send id =>
    if id ∈ s.core.accepted ∧ id ∉ s.shut then some { s with sent := id :: s.sent } else none
  | .shut id =>
    if id ∈ s.core.accepted ∧ id ∉ s.shut then some { s with shut := id :: s.shut } else none
  | .dispatch p events woken =>
    match s.core.armed p, s.core.idAt p with
    | some interest, some id =>
      if events.reported interest (id ∈ s.sent ∨ id ∈ s.shut) then
        handleEvent cfg { s with core := s.core.disarm p } p events woken
      else none
    | _, _ => none
  | .run w onReadable onWriteable =>
    match s.pool.threads w with
    | .running offer =>
      if onReadable = .thrown then none
      else (ThreadPool.step cfg.taskSizeLimit s.pool (.finish w)).map fun pool =>
        { s with core := s.core.runTask offer.task onReadable onWriteable, pool }
    | _ => none
  | .sweep => some { s with core := s.core.clearIdleClients cfg.maxIdleSec }
  | .check => some { s with core := s.core.stopIfEmpty }
  | .tick => some { s with core := { s.core with now := s.core.now + 1 } }
  | .reject =>
    if s.core.status = .run then some { s with core := { s.core with status := .rejectConn } }
    else none
  | .pool (.exit w) =>
    match s.pool.threads w with
    | .exiting => s.poolStep cfg (.exit w)
    | _ => none
  | .pool .stop => if s.core.status = .run then none else s.poolStep cfg .stop
  | .pool a => s.poolStep cfg a

/-! ## The tasks and the busy contexts -/

/-- Who has the task of a context: the queue, or a thread that runs it. -/
def Has (s : Server n) : Option (Fin n) → Ptr → Prop
  | none, p => p ∈ s.pool.tasks.map (·.task.ctx)
  | some w, p => ∃ offer, s.pool.threads w = .running offer ∧ offer.task.ctx = p

structure Inv (s : Server n) : Prop where
  core : s.core.Inv
  exclusive : Exclusive s.Has
  nodup : (s.pool.tasks.map (·.task.ctx)).Nodup
  busy : ∀ p, (∃ o, s.Has o p) ↔ s.core.Busy p
  stopped : s.pool.poolState = .stopped → s.core.status ≠ .run

theorem not_has_init (o : Option (Fin n)) (p : Ptr) : ¬ ({} : Server n).Has o p := by
  cases o with
  | none => exact List.not_mem_nil
  | some w =>
    rintro ⟨offer, hw, -⟩
    cases hw

theorem inv_init : Inv ({} : Server n) := by
  constructor
  · exact Clients.inv_init
  · exact fun p o _ ho => absurd ho (not_has_init o p)
  · exact List.nodup_nil
  · intro p
    refine iff_of_false ?_ fun hbusy => absurd hbusy.live Bool.noConfusion
    rintro ⟨o, ho⟩
    exact not_has_init o p ho
  · exact fun h => PoolState.noConfusion h

variable {cfg : EpollConfig} {s s' : Server n} {p : Ptr}

theorem Inv.core_step (h : s.Inv) (core : Clients) (hc : s.core.Passive core) :
    Inv { s with core } where
  core := hc.inv
  exclusive := h.exclusive
  nodup := h.nodup
  busy q := (h.busy q).trans (hc.busy q).symm
  stopped hstop := mt hc.run (h.stopped hstop)

/-- A step that leaves the queue and the running tasks alone. -/
theorem Inv.pool_step (h : s.Inv) (pool : ThreadPool Task n) (htasks : pool.tasks = s.pool.tasks)
    (hrunning : ∀ w offer, pool.threads w = .running offer ↔ s.pool.threads w = .running offer)
    (hstopped : pool.poolState = .stopped → s.core.status ≠ .run) : Inv { s with pool } := by
  have hhas : ∀ o q, Has { s with pool } o q ↔ s.Has o q := by
    intro o q
    cases o with
    | none => simp only [Has, htasks]
    | some w => simp only [Has, hrunning]
  constructor
  · exact h.core
  · exact h.exclusive.mono fun o q => (hhas o q).mp
  · simp only [htasks]
    exact h.nodup
  · intro q
    simp only [hhas]
    exact h.busy q
  · exact hstopped

theorem addTask_cases (task : Task) (woken : Option (Fin n))
    (h : s.addTask cfg task woken = some s') :
    s' = { s with
      core := s.core.closeAndRelease task.ctx
      pool := { s.pool with
        calls := s.pool.calls + 1
        refused := s.pool.refused ++ [⟨s.pool.calls, task⟩] } } ∨
    ∃ threads, ThreadPool.Signals s.pool.threads threads ∧ s' = { s with
      pool := { s.pool with
        calls := s.pool.calls + 1
        tasks := s.pool.tasks ++ [⟨s.pool.calls, task⟩]
        accepted := s.pool.accepted ++ [⟨s.pool.calls, task⟩]
        threads } } := by
  obtain ⟨⟨ret, pool⟩, hadd, rfl⟩ := Option.map_eq_some_iff.mp h
  rw [ThreadPool.addTask] at hadd
  split at hadd
  · cases hadd
    exact Or.inl rfl
  · obtain ⟨u, hsignal, hpair⟩ := Option.map_eq_some_iff.mp hadd
    cases hpair
    obtain ⟨threads, hthreads, rfl⟩ := ThreadPool.signal_spec woken hsignal
    exact Or.inr ⟨threads, hthreads, rfl⟩

theorem Inv.addTask (h : s.Inv) (hp : s.core.Armed p) (func : TaskFunc) (woken : Option (Fin n))
    (hadd : Server.addTask cfg { s with core := (s.core.disarm p).startTask p func } ⟨func, p⟩
      woken = some s') : s'.Inv := by
  have hd := h.core.dispatch hp func
  rcases addTask_cases ⟨func, p⟩ woken hadd with rfl | ⟨threads, hthreads, rfl⟩
  · have hrefused := h.core_step _ (h.core.passive_refuse hp func)
    exact hrefused.pool_step _ rfl (fun _ _ => Iff.rfl) hrefused.stopped
  · have hnot : ∀ o, ¬ s.Has o p := fun o ho => (h.core.armed p hp).2 ((h.busy p).mp ⟨o, ho⟩)
    have hhas : ∀ o q, Has { s with
        core := (s.core.disarm p).startTask p func
        pool := { s.pool with
          calls := s.pool.calls + 1
          tasks := s.pool.tasks ++ [⟨s.pool.calls, ⟨func, p⟩⟩]
          accepted := s.pool.accepted ++ [⟨s.pool.calls, ⟨func, p⟩⟩]
          threads } } o q ↔ (q = p ∧ o = none) ∨ s.Has o q := by
      intro o q
      cases o with
      | none => simp [Has, or_comm]
      | some w =>
        have hiff := fun offer => ThreadPool.signals_eq_iff hthreads w (.running offer) (by simp)
          (by simp)
        simp [Has, hiff]
    constructor
    · exact hd.inv
    · refine h.exclusive.give (· = p) none fun o q ho => ?_
      rcases (hhas o q).mp ho with hnew | hold
      · exact Or.inl hnew
      · refine Or.inr ⟨?_, hold⟩
        rintro rfl
        exact hnot o hold
    · have hconcat := h.nodup.concat (hnot none)
      rw [List.concat_eq_append] at hconcat
      simp only [List.map_append]
      exact hconcat
    · intro q
      simp only [hhas, hd.busy, exists_or, ← h.busy, exists_and_left, exists_eq, and_true]
    · exact fun hstop hrun => h.stopped hstop (hd.status.symm.trans hrun)

/-- A thread has run its task to the end. -/
theorem Inv.run (h : s.Inv) (w : Fin n) (offer : Offer Task)
    (hw : s.pool.threads w = .running offer) (events : Option Interest) :
    Inv { s with
      core := s.core.finish offer.task.ctx events
      pool := s.pool.setThread w .locking } := by
  have hself : s.Has (some w) offer.task.ctx := ⟨offer, hw, rfl⟩
  have hlive : s.core.Live offer.task.ctx := Clients.Busy.live ((h.busy _).mp ⟨_, hself⟩)
  have hhas : ∀ o q, Has { s with
      core := s.core.finish offer.task.ctx events
      pool := s.pool.setThread w .locking } o q ↔ s.Has o q ∧ o ≠ some w := by
    intro o q
    cases o with
    | none => simp [Has, ThreadPool.setThread]
    | some v =>
      simp only [Has, ThreadPool.threads_setThread, ne_eq, Option.some_inj]
      split
      · rename_i hv
        simp [hv]
      · rename_i hv
        simp [hv]
  constructor
  · exact h.core.finish hlive events
  · exact h.exclusive.mono fun o q ho => ((hhas o q).mp ho).1
  · exact h.nodup
  · intro q
    simp only [hhas, Clients.busy_finish hlive, ← h.busy]
    constructor
    · rintro ⟨o, ho, hne⟩
      refine ⟨⟨o, ho⟩, ?_⟩
      rintro rfl
      exact hne (h.exclusive _ _ _ ho hself)
    · rintro ⟨⟨o, ho⟩, hne⟩
      refine ⟨o, ho, ?_⟩
      rintro rfl
      obtain ⟨offer', hw', rfl⟩ := ho
      rw [hw] at hw'
      cases hw'
      exact hne rfl
  · exact fun hstop hrun => h.stopped hstop (Clients.run_of_finish events hrun)

theorem has_take (h : s.Inv) (w : Fin n) (offer : Offer Task) (tasks : List (Offer Task))
    (hw : ∀ offer, s.pool.threads w ≠ .running offer) (htasks : s.pool.tasks = offer :: tasks)
    (o : Option (Fin n)) (q : Ptr) :
    Has { s with
      pool := { s.pool with
        tasks
        taken := s.pool.taken ++ [offer] }.setThread w (.running offer) } o q ↔
      (o = some w ∧ q = offer.task.ctx) ∨ (s.Has o q ∧ q ≠ offer.task.ctx) := by
  cases o with
  | none =>
    have hnodup := h.nodup
    rw [htasks, List.map_cons, List.nodup_cons] at hnodup
    simp only [Has, ThreadPool.setThread, reduceCtorEq, false_and, false_or, htasks,
      List.map_cons, List.mem_cons]
    constructor
    · intro hq
      refine ⟨Or.inr hq, ?_⟩
      rintro rfl
      exact hnodup.1 hq
    · rintro ⟨hq | hq, hne⟩
      · exact absurd hq hne
      · exact hq
  | some v =>
    simp only [Has, ThreadPool.threads_setThread, Option.some_inj]
    split
    · rename_i hv
      subst hv
      simp [hw, eq_comm]
    · rename_i hv
      simp only [hv, false_and, false_or]
      refine (and_iff_left_of_imp ?_).symm
      -- the queue had it, so no thread did
      rintro hother rfl
      have hself : s.Has none offer.task.ctx := by
        rw [Has, htasks]
        exact List.mem_cons_self
      have hplace := h.exclusive _ (some v) none hother hself
      cases hplace

/-- A thread takes the first task of the queue. -/
theorem Inv.take (h : s.Inv) (w : Fin n) (offer : Offer Task) (tasks : List (Offer Task))
    (hw : ∀ offer, s.pool.threads w ≠ .running offer) (htasks : s.pool.tasks = offer :: tasks) :
    Inv { s with
      pool := { s.pool with
        tasks
        taken := s.pool.taken ++ [offer] }.setThread w (.running offer) } := by
  have hhas := has_take h w offer tasks hw htasks
  constructor
  · exact h.core
  · refine h.exclusive.give (· = offer.task.ctx) (some w) fun o q ho => ?_
    rcases (hhas o q).mp ho with ⟨rfl, hq⟩ | ⟨hold, hq⟩
    · exact Or.inl ⟨hq, rfl⟩
    · exact Or.inr ⟨hq, hold⟩
  · have hnodup := h.nodup
    rw [htasks, List.map_cons, List.nodup_cons] at hnodup
    exact hnodup.2
  · intro q
    simp only [hhas, ← h.busy]
    constructor
    · rintro ⟨o, ⟨-, rfl⟩ | ⟨hold, -⟩⟩
      · refine ⟨none, ?_⟩
        rw [Has, htasks]
        exact List.mem_cons_self
      · exact ⟨o, hold⟩
    · rintro ⟨o, hold⟩
      by_cases hq : q = offer.task.ctx
      · exact ⟨some w, Or.inl ⟨rfl, hq⟩⟩
      · exact ⟨o, Or.inr ⟨hold, hq⟩⟩
  · exact h.stopped

/-- A thread that runs nothing goes on without a task. -/
theorem Inv.setThread (h : s.Inv) (w : Fin n) (pc : ThreadPc Task)
    (hw : ∀ offer, s.pool.threads w ≠ .running offer) (hpc : ∀ offer, pc ≠ .running offer) :
    Inv { s with pool := s.pool.setThread w pc } := by
  refine h.pool_step (s.pool.setThread w pc) rfl (fun v offer => ?_) h.stopped
  rw [ThreadPool.threads_setThread]
  split
  · rename_i hv
    rw [hv]
    exact iff_of_false (hpc offer) (hw offer)
  · rfl

theorem Inv.poolStep (h : s.Inv) (a : PoolAction n)
    (hexit : ∀ w, a = .exit w → s.pool.threads w = .exiting)
    (hstop : a = .stop → s.core.status ≠ .run) (hc : s.poolStep cfg a = some s') : s'.Inv := by
  obtain ⟨pool, hpool, rfl⟩ := Option.map_eq_some_iff.mp hc
  cases a with
  | lock w =>
    obtain ⟨hw, rfl⟩ := ThreadPool.lock_cases w hpool
    have hidle : ∀ offer, s.pool.threads w ≠ .running offer := by
      rcases hw with hw | hw <;> simp [hw]
    rcases s.pool.pick_cases w with ⟨-, hpick⟩ | ⟨-, -, hpick⟩ | ⟨offer, tasks, -, htasks, hpick⟩
    · rw [hpick]
      exact h.setThread w .exiting hidle (by simp)
    · rw [hpick]
      exact h.setThread w .waiting hidle (by simp)
    · rw [hpick]
      exact h.take w offer tasks hidle htasks
  | spurious w =>
    obtain ⟨hw, rfl⟩ := ThreadPool.spurious_cases w hpool
    exact h.setThread w .signaled (by simp [hw]) (by simp)
  | exit w =>
    have hw := hexit w rfl
    rcases ThreadPool.finish_cases w hpool with ⟨offer, hrun, -⟩ | ⟨-, rfl⟩
    · rw [hw] at hrun
      cases hrun
    · exact h.setThread w .exited (by simp [hw]) (by simp)
  | stop =>
    obtain ⟨-, rfl⟩ := ThreadPool.stop_cases hpool
    refine h.pool_step _ rfl (fun w offer => ?_) fun _ => hstop rfl
    simp only [ThreadPool.broadcast]
    split
    · rename_i hwait
      simp [ThreadPc.eq_waiting _ hwait]
    · rfl
  | join =>
    obtain ⟨i, hi, -, -, rfl⟩ := ThreadPool.join_cases hpool
    exact h.pool_step _ rfl (fun _ _ => Iff.rfl) h.stopped
  | ret =>
    obtain ⟨-, rfl⟩ := ThreadPool.ret_cases hpool
    exact h.pool_step _ rfl (fun _ _ => Iff.rfl) h.stopped

theorem dispatch_cases (events : Mask) (woken : Option (Fin n))
    (hc : step cfg s (.dispatch p events woken) = some s') : s.core.Armed p ∧
      ((∃ func, (events.epollin ∨ events.epollout) ∧
        addTask cfg { s with core := (s.core.disarm p).startTask p func } ⟨func, p⟩ woken =
          some s') ∨
      (¬ (events.epollin ∨ events.epollout) ∧ s' = { s with core := s.core.disarm p })) := by
  rw [step] at hc
  split at hc
  · rename_i interest id harm hid
    obtain ⟨-, hc⟩ := Option.ite_none_right_eq_some.mp hc
    refine ⟨by rw [Clients.Armed, harm]; rfl, ?_⟩
    rw [handleEvent] at hc
    split at hc
    · rename_i hin
      exact Or.inl ⟨.readFunc, Or.inl hin, hc⟩
    · rename_i hin
      split at hc
      · rename_i hout
        exact Or.inl ⟨.writeFunc, Or.inr hout, hc⟩
      · rename_i hout
        exact Or.inr ⟨not_or.mpr ⟨hin, hout⟩, (Option.some.inj hc).symm⟩
  · cases hc

theorem run_cases (w : Fin n) (onReadable : ReadRet) (onWriteable : WriteRet)
    (hc : step cfg s (.run w onReadable onWriteable) = some s') : ∃ offer events,
      s.pool.threads w = .running offer ∧ s' = { s with
        core := s.core.finish offer.task.ctx events
        pool := s.pool.setThread w .locking } := by
  rw [step] at hc
  split at hc
  · rename_i offer hw
    obtain ⟨-, hc⟩ := Option.ite_none_left_eq_some.mp hc
    obtain ⟨pool, hpool, rfl⟩ := Option.map_eq_some_iff.mp hc
    obtain ⟨events, heq⟩ := s.core.runTask_eq offer.task onReadable onWriteable
    rcases ThreadPool.finish_cases w hpool with ⟨-, -, rfl⟩ | ⟨hexit, -⟩
    · exact ⟨offer, events, hw, by rw [heq]⟩
    · rw [hw] at hexit
      cases hexit
  · cases hc

theorem pool_cases (a : PoolAction n) (hc : step cfg s (.pool a) = some s') :
    (∀ w, a = .exit w → s.pool.threads w = .exiting) ∧ (a = .stop → s.core.status ≠ .run) ∧
      s.poolStep cfg a = some s' := by
  cases a with
  | exit w =>
    rw [step] at hc
    split at hc
    · rename_i hw
      refine ⟨fun v hv => ?_, by simp, hc⟩
      cases hv
      exact hw
    · cases hc
  | stop =>
    obtain ⟨hrun, hc⟩ := Option.ite_none_left_eq_some.mp hc
    exact ⟨by simp, fun _ => hrun, hc⟩
  | lock | spurious | join | ret =>
    exact ⟨by simp, by simp, hc⟩

theorem inv_step (s : Server n) (a : Action n) (s' : Server n) (h : s.Inv)
    (hc : step cfg s a = some s') : s'.Inv := by
  cases a with
  | accept p addOk =>
    obtain ⟨⟨hrun, hp⟩, hc⟩ := Option.ite_none_right_eq_some.mp hc
    obtain rfl := Option.some.inj hc
    exact h.core_step _ (h.core.passive_accept hp hrun addOk)
  | send id =>
    obtain ⟨-, hc⟩ := Option.ite_none_right_eq_some.mp hc
    obtain rfl := Option.some.inj hc
    exact ⟨h.core, h.exclusive, h.nodup, h.busy, h.stopped⟩
  | shut id =>
    obtain ⟨-, hc⟩ := Option.ite_none_right_eq_some.mp hc
    obtain rfl := Option.some.inj hc
    exact ⟨h.core, h.exclusive, h.nodup, h.busy, h.stopped⟩
  | dispatch p events woken =>
    obtain ⟨hp, ⟨func, -, hadd⟩ | ⟨-, rfl⟩⟩ := dispatch_cases events woken hc
    · exact h.addTask hp func woken hadd
    · exact h.core_step _ h.core.passive_disarm
  | run w onReadable onWriteable =>
    obtain ⟨offer, events, hw, rfl⟩ := run_cases w onReadable onWriteable hc
    exact h.run w offer hw events
  | sweep =>
    obtain rfl := Option.some.inj hc
    exact h.core_step _ (h.core.passive_sweep cfg.maxIdleSec)
  | check =>
    obtain rfl := Option.some.inj hc
    exact h.core_step _ h.core.passive_check
  | tick =>
    obtain rfl := Option.some.inj hc
    exact h.core_step _ h.core.passive_tick
  | reject =>
    obtain ⟨-, hc⟩ := Option.ite_none_right_eq_some.mp hc
    obtain rfl := Option.some.inj hc
    exact h.core_step _ h.core.passive_reject
  | pool a =>
    obtain ⟨hexit, hstop, hc⟩ := pool_cases a hc
    exact h.poolStep a hexit hstop hc

end Server

end Ehttp
