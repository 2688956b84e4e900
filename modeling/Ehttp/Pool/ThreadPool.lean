import Mathlib.Data.List.Nodup
import Mathlib.Logic.Function.Basic
import Ehttp.Lib.Transition
import Ehttp.Response

/-!
# `threadpool.cpp`: the task queue and its threads

A step is what a thread does between two operations on `_task_mutex`; the
scheduler chooses among the threads, and which waiting thread a signal releases.
The threads of a pool that `start_threadpool` has started begin at the head of
`execute_thread`.

* `Inv.queue`: the accepted tasks are the taken ones, then the queue;
* `step_taken`: a task is taken from the front, and none after `STOPPED`;
* `destroy_returns`: what `destroy_threadpool` returns.
-/

namespace Ehttp

open Lib

/-! ## State -/

/-- `STARTED` and `STOPPED`. -/
inductive PoolState
  | started | stopped
  deriving DecidableEq, Repr

/-- A `Task *` with the number of the `add_task` call it was passed to. -/
structure Offer (τ : Type) where
  call : Nat
  task : τ
  deriving DecidableEq, Repr

/-- Where a thread of the pool is. -/
inductive ThreadPc (τ : Type)
  /-- before `_task_mutex.lock()` -/
  | locking
  /-- in `_task_cond_var.wait` -/
  | waiting
  /-- released by the condition variable, and has not locked the mutex again -/
  | signaled
  | running (offer : Offer τ)
  /-- has seen `STOPPED`, before `pthread_exit` -/
  | exiting
  | exited
  deriving DecidableEq, Repr

def ThreadPc.isWaiting {τ : Type} : ThreadPc τ → Bool
  | .waiting => true
  | _ => false

theorem ThreadPc.eq_waiting {τ : Type} (pc : ThreadPc τ) (h : pc.isWaiting) : pc = .waiting := by
  cases pc with
  | waiting => rfl
  | locking | signaled | running | exiting | exited => cases h

/-- Where `destroy_threadpool` is. -/
inductive DestroyPc
  | uncalled
  /-- in the loop of `pthread_join`, before thread `i` -/
  | joining (i : Nat)
  | returned (ret : Int)
  deriving DecidableEq, Repr

/-- How many threads `pthread_join` has returned for. -/
def DestroyPc.joined (n : Nat) : DestroyPc → Nat
  | .uncalled => 0
  | .joining i => i
  | .returned _ => n

/-- A pool of `n` threads, and what has happened to the tasks so far. -/
structure ThreadPool (τ : Type) (n : Nat) where
  poolState : PoolState := .started
  tasks : List (Offer τ) := []
  threads : Fin n → ThreadPc τ := fun _ => .locking
  destroy : DestroyPc := .uncalled
  calls : Nat := 0
  accepted : List (Offer τ) := []
  refused : List (Offer τ) := []
  taken : List (Offer τ) := []

namespace ThreadPool

variable {τ : Type} {n : Nat}

/-! ## Steps -/

def setThread (s : ThreadPool τ n) (w : Fin n) (pc : ThreadPc τ) : ThreadPool τ n :=
  { s with threads := Function.update s.threads w pc }

/-- `_task_cond_var.signal()`: it releases a waiting thread if there is one. -/
def signal (s : ThreadPool τ n) : Option (Fin n) → Option (ThreadPool τ n)
  | some w => if (s.threads w).isWaiting then some (s.setThread w .signaled) else none
  | none => if ∀ w, (s.threads w).isWaiting = false then some s else none

/-- `_task_cond_var.broadcast()`. -/
def broadcast (s : ThreadPool τ n) : ThreadPool τ n :=
  { s with threads := fun w => if (s.threads w).isWaiting then .signaled else s.threads w }

def limitReached (limit : Int) (s : ThreadPool τ n) : Bool :=
  limit > 0 ∧ toInt32 s.tasks.length > limit

/-- `add_task` with its return value; `woken` is the thread that the signal
releases. -/
def addTask (limit : Int) (s : ThreadPool τ n) (offer : Offer τ) (woken : Option (Fin n)) :
    Option (Int × ThreadPool τ n) :=
  if s.limitReached limit then some (-1, s)
  else (signal { s with tasks := s.tasks ++ [offer] } woken).map fun s => (0, s)

/-- What is remembered of an `add_task` call that returned `ret`. -/
def record (s : ThreadPool τ n) (offer : Offer τ) (ret : Int) : ThreadPool τ n :=
  { s with
    calls := s.calls + 1
    accepted := if ret = 0 then s.accepted ++ [offer] else s.accepted
    refused := if ret = 0 then s.refused else s.refused ++ [offer] }

/-- What `execute_thread` does with the mutex, when it has locked it at the head
of its loop or in `wait`. -/
def pick (s : ThreadPool τ n) (w : Fin n) : ThreadPool τ n :=
  match s.poolState, s.tasks with
  | .stopped, _ => s.setThread w .exiting
  | .started, [] => s.setThread w .waiting
  | .started, offer :: tasks =>
    { s with tasks, taken := s.taken ++ [offer] }.setThread w (.running offer)

/-- `destroy_threadpool` returns a `size_t` as an `int`. -/
def destroyRet (s : ThreadPool τ n) : Int := toInt32 s.tasks.length

inductive Action (τ : Type) (n : Nat)
  | addTask (task : τ) (woken : Option (Fin n))
  | lock (w : Fin n)
  | spurious (w : Fin n)
  /-- the end of `Task::run`, or of the thread -/
  | finish (w : Fin n)
  | stop | join | ret
  deriving DecidableEq, Repr

def step (limit : Int) (s : ThreadPool τ n) : Action τ n → Option (ThreadPool τ n)
  | .addTask task woken =>
    (s.addTask limit ⟨s.calls, task⟩ woken).map fun (ret, s') => s'.record ⟨s.calls, task⟩ ret
  | .lock w =>
    match s.threads w with
    | .locking | .signaled => some (s.pick w)
    | _ => none
  | .spurious w =>
    match s.threads w with
    | .waiting => some (s.setThread w .signaled)
    | _ => none
  | .finish w =>
    match s.threads w with
    | .running _ => some (s.setThread w .locking)
    | .exiting => some (s.setThread w .exited)
    | _ => none
  | .stop =>
    match s.destroy with
    | .uncalled => some { s.broadcast with poolState := .stopped, destroy := .joining 0 }
    | _ => none
  | .join =>
    match s.destroy with
    | .joining i =>
      if h : i < n then
        match s.threads ⟨i, h⟩ with
        | .exited => some { s with destroy := .joining (i + 1) }
        | _ => none
      else none
    | _ => none
  | .ret =>
    match s.destroy with
    | .joining i => if i = n then some { s with destroy := .returned s.destroyRet } else none
    | _ => none

variable {s s' : ThreadPool τ n} {limit : Int}

@[simp] theorem threads_setThread (w v : Fin n) (pc : ThreadPc τ) :
    (s.setThread w pc).threads v = if v = w then pc else s.threads v :=
  Function.update_apply s.threads w pc v

/-! ## What the steps do -/

/-- What a signal does to the threads. -/
def Signals (threads threads' : Fin n → ThreadPc τ) : Prop :=
  (∃ w, (threads w).isWaiting ∧ threads' = Function.update threads w .signaled) ∨
    (∀ w, (threads w).isWaiting = false) ∧ threads' = threads

theorem signal_spec (woken : Option (Fin n)) (h : s.signal woken = some s') :
    ∃ threads, Signals s.threads threads ∧ s' = { s with threads } := by
  cases woken with
  | none =>
    simp only [signal, Option.ite_none_right_eq_some] at h
    obtain ⟨hnone, h⟩ := h
    obtain rfl := Option.some.inj h
    exact ⟨_, Or.inr ⟨hnone, rfl⟩, rfl⟩
  | some w =>
    simp only [signal, Option.ite_none_right_eq_some] at h
    obtain ⟨hw, h⟩ := h
    obtain rfl := Option.some.inj h
    exact ⟨_, Or.inl ⟨w, hw, rfl⟩, rfl⟩

/-- `add_task` refuses and changes nothing, or accepts and signals. -/
theorem addTask_cases (task : τ) (woken : Option (Fin n))
    (h : step limit s (.addTask task woken) = some s') :
    s' = { s with calls := s.calls + 1, refused := s.refused ++ [⟨s.calls, task⟩] } ∨
    ∃ threads, Signals s.threads threads ∧
      s' = { s with
        calls := s.calls + 1
        tasks := s.tasks ++ [⟨s.calls, task⟩]
        accepted := s.accepted ++ [⟨s.calls, task⟩]
        threads } := by
  obtain ⟨⟨ret, t⟩, hadd, rfl⟩ := Option.map_eq_some_iff.mp h
  rw [addTask] at hadd
  split at hadd
  · cases hadd
    exact Or.inl rfl
  · obtain ⟨u, hsignal, hpair⟩ := Option.map_eq_some_iff.mp hadd
    cases hpair
    obtain ⟨threads, hthreads, rfl⟩ := signal_spec woken hsignal
    exact Or.inr ⟨threads, hthreads, rfl⟩

/-- A thread that has locked the mutex. -/
theorem lock_cases (w : Fin n) (h : step limit s (.lock w) = some s') :
    (s.threads w = .locking ∨ s.threads w = .signaled) ∧ s' = s.pick w := by
  rw [step] at h
  split at h
  · rename_i hw
    exact ⟨Or.inl hw, (Option.some.inj h).symm⟩
  · rename_i hw
    exact ⟨Or.inr hw, (Option.some.inj h).symm⟩
  · cases h

/-- `pick` ends the thread, waits on an empty queue, or takes its first task. -/
theorem pick_cases (w : Fin n) :
    (s.poolState = .stopped ∧ s.pick w = s.setThread w .exiting) ∨
    (s.poolState = .started ∧ s.tasks = [] ∧ s.pick w = s.setThread w .waiting) ∨
    ∃ offer tasks, s.poolState = .started ∧ s.tasks = offer :: tasks ∧
      s.pick w = { s with tasks, taken := s.taken ++ [offer] }.setThread w (.running offer) := by
  cases hstate : s.poolState with
  | stopped => exact Or.inl ⟨rfl, by rw [pick, hstate]⟩
  | started =>
    cases htasks : s.tasks with
    | nil => exact Or.inr (Or.inl ⟨rfl, rfl, by rw [pick, hstate, htasks]⟩)
    | cons offer tasks =>
      exact Or.inr (Or.inr ⟨offer, tasks, rfl, rfl, by rw [pick, hstate, htasks]⟩)

theorem spurious_cases (w : Fin n) (h : step limit s (.spurious w) = some s') :
    s.threads w = .waiting ∧ s' = s.setThread w .signaled := by
  rw [step] at h
  split at h
  · rename_i hw
    exact ⟨hw, (Option.some.inj h).symm⟩
  · cases h

theorem finish_cases (w : Fin n) (h : step limit s (.finish w) = some s') :
    (∃ offer, s.threads w = .running offer ∧ s' = s.setThread w .locking) ∨
      (s.threads w = .exiting ∧ s' = s.setThread w .exited) := by
  rw [step] at h
  split at h
  · rename_i offer hw
    exact Or.inl ⟨offer, hw, (Option.some.inj h).symm⟩
  · rename_i hw
    exact Or.inr ⟨hw, (Option.some.inj h).symm⟩
  · cases h

theorem stop_cases (h : step limit s .stop = some s') :
    s.destroy = .uncalled ∧
      s' = { s.broadcast with poolState := .stopped, destroy := .joining 0 } := by
  rw [step] at h
  split at h
  · rename_i hd
    exact ⟨hd, (Option.some.inj h).symm⟩
  · cases h

theorem join_cases (h : step limit s .join = some s') :
    ∃ i, ∃ hi : i < n, s.destroy = .joining i ∧ s.threads ⟨i, hi⟩ = .exited ∧
      s' = { s with destroy := .joining (i + 1) } := by
  rw [step] at h
  split at h
  · rename_i i hd
    split at h
    · rename_i hi
      split at h
      · rename_i hw
        exact ⟨i, hi, hd, hw, (Option.some.inj h).symm⟩
      · cases h
    · cases h
  · cases h

theorem ret_cases (h : step limit s .ret = some s') :
    s.destroy = .joining n ∧ s' = { s with destroy := .returned s.destroyRet } := by
  rw [step] at h
  split at h
  · rename_i i hd
    split at h
    · rename_i hi
      exact ⟨hi ▸ hd, (Option.some.inj h).symm⟩
    · cases h
  · cases h

/-! ## The tasks -/

structure Inv (s : ThreadPool τ n) : Prop where
  queue : s.accepted = s.taken ++ s.tasks
  calls : ∀ offer ∈ s.accepted ++ s.refused, offer.call < s.calls
  nodup : ((s.accepted ++ s.refused).map Offer.call).Nodup
  running : ∀ w offer, s.threads w = .running offer → offer ∈ s.taken
  stopped : s.destroy ≠ .uncalled → s.poolState = .stopped

theorem inv_init : Inv ({} : ThreadPool τ n) := by
  constructor
  · rfl
  · simp
  · simp
  · simp
  · simp

/-- A step that leaves the tasks alone. -/
theorem Inv.frame (h : s.Inv) (htasks : s'.tasks = s.tasks) (hcalls : s'.calls = s.calls)
    (haccepted : s'.accepted = s.accepted) (hrefused : s'.refused = s.refused)
    (htaken : s'.taken = s.taken)
    (hrunning : ∀ w offer, s'.threads w = .running offer → s.threads w = .running offer)
    (hstopped : s'.destroy ≠ .uncalled → s'.poolState = .stopped) : s'.Inv := by
  constructor
  · rw [haccepted, htaken, htasks]
    exact h.queue
  · rw [haccepted, hrefused, hcalls]
    exact h.calls
  · rw [haccepted, hrefused]
    exact h.nodup
  · intro w offer hw
    rw [htaken]
    exact h.running w offer (hrunning w offer hw)
  · exact hstopped

/-- A thread goes on without a task. -/
theorem Inv.setThread (h : s.Inv) (w : Fin n) (pc : ThreadPc τ)
    (hpc : ∀ offer, pc ≠ .running offer) : (s.setThread w pc).Inv := by
  refine h.frame rfl rfl rfl rfl rfl ?_ h.stopped
  intro v offer hv
  rw [threads_setThread] at hv
  split at hv
  · exact absurd hv (hpc offer)
  · exact hv

/-- A signal releases a thread that waits, and no other. -/
theorem signals_eq_iff {threads threads' : Fin n → ThreadPc τ} (h : Signals threads threads')
    (w : Fin n) (pc : ThreadPc τ) (hwait : pc ≠ .waiting) (hsignal : pc ≠ .signaled) :
    threads' w = pc ↔ threads w = pc := by
  rcases h with ⟨v, hv, rfl⟩ | ⟨-, rfl⟩
  · rw [Function.update_apply]
    split
    · rename_i hw
      refine iff_of_false hsignal.symm ?_
      rintro rfl
      rw [← hw] at hv
      exact hwait (ThreadPc.eq_waiting _ hv)
    · rfl
  · rfl

/-- The number of the next call is new. -/
theorem Inv.fresh (h : s.Inv) : s.calls ∉ (s.accepted ++ s.refused).map Offer.call := by
  intro hmem
  obtain ⟨offer, hoffer, hcall⟩ := List.mem_map.mp hmem
  have hlt := h.calls offer hoffer
  omega

theorem Inv.refuse (h : s.Inv) (task : τ) :
    Inv { s with calls := s.calls + 1, refused := s.refused ++ [⟨s.calls, task⟩] } := by
  constructor
  · exact h.queue
  · intro offer hoffer
    show offer.call < s.calls + 1
    rw [← List.append_assoc] at hoffer
    rcases List.mem_append.mp hoffer with hold | hnew
    · exact Nat.lt_succ_of_lt (h.calls offer hold)
    · rw [List.mem_singleton.mp hnew]
      exact Nat.lt_succ_self _
  · show ((s.accepted ++ (s.refused ++ [_])).map Offer.call).Nodup
    rw [← List.append_assoc, List.map_append, List.map_singleton, ← List.concat_eq_append]
    exact List.Nodup.concat h.fresh h.nodup
  · exact h.running
  · exact h.stopped

theorem Inv.accept (h : s.Inv) (task : τ) (threads : Fin n → ThreadPc τ)
    (hthreads : Signals s.threads threads) :
    Inv { s with
      calls := s.calls + 1
      tasks := s.tasks ++ [⟨s.calls, task⟩]
      accepted := s.accepted ++ [⟨s.calls, task⟩]
      threads } := by
  have hperm (offer : Offer τ) : ((s.accepted ++ [offer]) ++ s.refused).Perm
      ((s.accepted ++ s.refused) ++ [offer]) := by
    rw [List.append_assoc, List.append_assoc]
    exact List.Perm.append_left _ List.perm_append_comm
  constructor
  · show s.accepted ++ [_] = s.taken ++ (s.tasks ++ [_])
    rw [h.queue, List.append_assoc]
  · intro offer hoffer
    show offer.call < s.calls + 1
    rcases List.mem_append.mp ((hperm _).subset hoffer) with hold | hnew
    · exact Nat.lt_succ_of_lt (h.calls offer hold)
    · rw [List.mem_singleton.mp hnew]
      exact Nat.lt_succ_self _
  · apply ((hperm _).map Offer.call).nodup_iff.mpr
    rw [List.map_append, List.map_singleton, ← List.concat_eq_append]
    exact List.Nodup.concat h.fresh h.nodup
  · intro w offer hw
    exact h.running w offer ((signals_eq_iff hthreads w _ (by simp) (by simp)).mp hw)
  · exact h.stopped

theorem Inv.take (h : s.Inv) (w : Fin n) (offer : Offer τ) (tasks : List (Offer τ))
    (htasks : s.tasks = offer :: tasks) :
    ({ s with tasks, taken := s.taken ++ [offer] }.setThread w (.running offer)).Inv := by
  constructor
  · show s.accepted = (s.taken ++ [offer]) ++ tasks
    rw [h.queue, htasks, List.append_assoc]
    rfl
  · exact h.calls
  · exact h.nodup
  · intro v other hv
    show other ∈ s.taken ++ [offer]
    rw [threads_setThread] at hv
    split at hv
    · cases hv
      exact List.mem_append_right _ List.mem_cons_self
    · exact List.mem_append_left _ (h.running v other hv)
  · exact h.stopped

theorem Inv.pick (h : s.Inv) (w : Fin n) : (s.pick w).Inv := by
  rcases s.pick_cases w with ⟨-, hpick⟩ | ⟨-, -, hpick⟩ | ⟨offer, tasks, -, htasks, hpick⟩
  · rw [hpick]
    exact h.setThread w .exiting (by simp)
  · rw [hpick]
    exact h.setThread w .waiting (by simp)
  · rw [hpick]
    exact h.take w offer tasks htasks

theorem inv_step (h : s.Inv) (a : Action τ n) (hs : step limit s a = some s') : s'.Inv := by
  cases a with
  | addTask task woken =>
    rcases addTask_cases task woken hs with rfl | ⟨threads, hthreads, rfl⟩
    · exact h.refuse task
    · exact h.accept task threads hthreads
  | lock w =>
    obtain ⟨-, rfl⟩ := lock_cases w hs
    exact h.pick w
  | spurious w =>
    obtain ⟨-, rfl⟩ := spurious_cases w hs
    exact h.setThread w .signaled (by simp)
  | finish w =>
    rcases finish_cases w hs with ⟨offer, -, rfl⟩ | ⟨-, rfl⟩
    · exact h.setThread w .locking (by simp)
    · exact h.setThread w .exited (by simp)
  | stop =>
    obtain ⟨-, rfl⟩ := stop_cases hs
    refine h.frame rfl rfl rfl rfl rfl ?_ (fun _ => rfl)
    intro w offer hw
    simp only [broadcast] at hw
    split at hw
    · cases hw
    · exact hw
  | join =>
    obtain ⟨i, hi, hd, -, rfl⟩ := join_cases hs
    refine h.frame rfl rfl rfl rfl rfl (fun _ _ hw => hw) fun _ => h.stopped ?_
    rw [hd]
    exact DestroyPc.noConfusion
  | ret =>
    obtain ⟨hd, rfl⟩ := ret_cases hs
    refine h.frame rfl rfl rfl rfl rfl (fun _ _ hw => hw) fun _ => h.stopped ?_
    rw [hd]
    exact DestroyPc.noConfusion

theorem inv_of_reachable (h : Reachable (step limit) {} s) : s.Inv :=
  Reachable.invariant (step limit) Inv (fun _ a _ hs hstep => inv_step hs a hstep) inv_init h

/-! ## Runs -/

/-- What a later state keeps of an earlier one. -/
structure Later (s t : ThreadPool τ n) : Prop where
  accepted : s.accepted <+: t.accepted
  refused : s.refused <+: t.refused
  taken : s.taken <+: t.taken
  stopped : s.poolState = .stopped → t.poolState = .stopped ∧ t.taken = s.taken
  returned : ∀ ret, s.destroy = .returned ret → t.destroy = .returned ret

theorem Later.refl (s : ThreadPool τ n) : Later s s :=
  ⟨List.prefix_rfl, List.prefix_rfl, List.prefix_rfl, fun h => ⟨h, rfl⟩, fun _ h => h⟩

theorem Later.trans {t : ThreadPool τ n} (h : Later s t) (h' : Later t s') : Later s s' := by
  constructor
  · exact h.accepted.trans h'.accepted
  · exact h.refused.trans h'.refused
  · exact h.taken.trans h'.taken
  · intro hstop
    obtain ⟨hstop, htaken⟩ := h.stopped hstop
    rw [← htaken]
    exact h'.stopped hstop
  · exact fun ret hret => h'.returned ret (h.returned ret hret)

/-- A step that leaves the tasks alone. -/
theorem Later.frame (haccepted : s'.accepted = s.accepted) (hrefused : s'.refused = s.refused)
    (htaken : s'.taken = s.taken) (hstop : s.poolState = .stopped → s'.poolState = .stopped)
    (hdestroy : ∀ ret, s.destroy = .returned ret → s'.destroy = .returned ret) : Later s s' := by
  constructor
  · exact ⟨[], by rw [haccepted, List.append_nil]⟩
  · exact ⟨[], by rw [hrefused, List.append_nil]⟩
  · exact ⟨[], by rw [htaken, List.append_nil]⟩
  · exact fun h => ⟨hstop h, htaken⟩
  · exact hdestroy

theorem step_later (a : Action τ n) (hs : step limit s a = some s') : Later s s' := by
  cases a with
  | addTask task woken =>
    rcases addTask_cases task woken hs with rfl | ⟨threads, -, rfl⟩
    · exact ⟨List.prefix_rfl, List.prefix_append _ _, List.prefix_rfl, fun h => ⟨h, rfl⟩,
        fun _ h => h⟩
    · exact ⟨List.prefix_append _ _, List.prefix_rfl, List.prefix_rfl, fun h => ⟨h, rfl⟩,
        fun _ h => h⟩
  | lock w =>
    obtain ⟨-, rfl⟩ := lock_cases w hs
    rcases s.pick_cases w with ⟨-, hpick⟩ | ⟨-, -, hpick⟩ | ⟨offer, tasks, hstate, -, hpick⟩
    · rw [hpick]
      exact .frame rfl rfl rfl id fun _ h => h
    · rw [hpick]
      exact .frame rfl rfl rfl id fun _ h => h
    · rw [hpick]
      refine ⟨List.prefix_rfl, List.prefix_rfl, List.prefix_append _ _, ?_, fun _ h => h⟩
      rw [hstate]
      exact fun h => PoolState.noConfusion h
  | spurious w =>
    obtain ⟨-, rfl⟩ := spurious_cases w hs
    exact .frame rfl rfl rfl id fun _ h => h
  | finish w =>
    rcases finish_cases w hs with ⟨offer, -, rfl⟩ | ⟨-, rfl⟩
    · exact .frame rfl rfl rfl id fun _ h => h
    · exact .frame rfl rfl rfl id fun _ h => h
  | stop =>
    obtain ⟨hd, rfl⟩ := stop_cases hs
    exact .frame rfl rfl rfl (fun _ => rfl) fun ret h => by rw [hd] at h; cases h
  | join =>
    obtain ⟨i, hi, hd, -, rfl⟩ := join_cases hs
    exact .frame rfl rfl rfl id fun ret h => by rw [hd] at h; cases h
  | ret =>
    obtain ⟨hd, rfl⟩ := ret_cases hs
    exact .frame rfl rfl rfl id fun ret h => by rw [hd] at h; cases h

theorem returned_step (a : Action τ n) (hs : step limit s a = some s') (ret : Int)
    (hret : s'.destroy = .returned ret) : s.destroy = .returned ret ∨ a = .ret := by
  cases a with
  | addTask task woken =>
    rcases addTask_cases task woken hs with rfl | ⟨threads, -, rfl⟩
    · exact Or.inl hret
    · exact Or.inl hret
  | lock w =>
    obtain ⟨-, rfl⟩ := lock_cases w hs
    rcases s.pick_cases w with ⟨-, hpick⟩ | ⟨-, -, hpick⟩ | ⟨offer, tasks, -, -, hpick⟩
    · rw [hpick] at hret
      exact Or.inl hret
    · rw [hpick] at hret
      exact Or.inl hret
    · rw [hpick] at hret
      exact Or.inl hret
  | spurious w =>
    obtain ⟨-, rfl⟩ := spurious_cases w hs
    exact Or.inl hret
  | finish w =>
    rcases finish_cases w hs with ⟨offer, -, rfl⟩ | ⟨-, rfl⟩
    · exact Or.inl hret
    · exact Or.inl hret
  | stop =>
    obtain ⟨-, rfl⟩ := stop_cases hs
    cases hret
  | join =>
    obtain ⟨i, hi, -, -, rfl⟩ := join_cases hs
    cases hret
  | ret => exact Or.inr rfl

theorem later_of_reachable {t : ThreadPool τ n} (h : Reachable (step limit) s t) : Later s t :=
  Reachable.invariant (step limit) (Later s) (fun _ a _ hs hstep => hs.trans (step_later a hstep))
    (Later.refl s) h

/-- The tasks that no thread has taken. -/
def unrun (s : ThreadPool τ n) (offers : List (Offer τ)) : List (Offer τ) :=
  offers.filter fun offer => offer.call ∉ s.taken.map Offer.call

/-- What is accepted and not taken is queued. -/
theorem Inv.unrun_accepted (h : s.Inv) : s.unrun s.accepted = s.tasks := by
  have hnodup : (s.taken.map Offer.call ++ s.tasks.map Offer.call).Nodup := by
    rw [← List.map_append, ← h.queue]
    exact h.nodup.sublist ((List.sublist_append_left _ _).map _)
  have htaken : s.taken.filter (fun offer => offer.call ∉ s.taken.map Offer.call) = [] := by
    rw [List.filter_eq_nil_iff]
    intro offer hoffer
    simpa using ⟨offer, hoffer, rfl⟩
  have htasks : s.tasks.filter (fun offer => offer.call ∉ s.taken.map Offer.call) = s.tasks := by
    rw [List.filter_eq_self]
    intro offer hoffer
    have hcall := List.mem_map_of_mem (f := Offer.call) hoffer
    simpa using fun other hother heq =>
      List.disjoint_of_nodup_append hnodup (List.mem_map.mpr ⟨other, hother, heq⟩) hcall
  rw [unrun, h.queue, List.filter_append, htaken, htasks, List.nil_append]

/-- `destroy_threadpool` returns, as an `int`, how many of the tasks accepted by
then are never run. -/
theorem destroy_returns (h : s.Inv) (hs : step limit s .ret = some s') {t : ThreadPool τ n}
    (ht : Reachable (step limit) s' t) :
    t.destroy = .returned (toInt32 (t.unrun s.accepted).length) := by
  have hlater := later_of_reachable ht
  obtain ⟨hd, rfl⟩ := ret_cases hs
  have hstop : s.poolState = .stopped := by
    apply h.stopped
    rw [hd]
    exact DestroyPc.noConfusion
  have htaken : t.taken = s.taken := (hlater.stopped hstop).2
  have hunrun : t.unrun s.accepted = s.tasks := by
    rw [unrun, htaken]
    exact h.unrun_accepted
  rw [hlater.returned s.destroyRet rfl, hunrun]
  rfl

theorem Inv.refused_not_taken (h : s.Inv) (offer : Offer τ) (hoffer : offer ∈ s.refused) :
    offer.call ∉ s.taken.map Offer.call := by
  intro htaken
  have hnodup := h.nodup
  rw [h.queue, List.append_assoc, List.map_append] at hnodup
  have hrest : offer.call ∈ (s.tasks ++ s.refused).map Offer.call :=
    List.mem_map_of_mem (List.mem_append_right _ hoffer)
  exact List.disjoint_of_nodup_append hnodup htaken hrest

/-- **The order of the tasks.**  In every state of a started pool: the accepted
tasks are the taken ones, then the queue; no task is taken twice; a refused one
is never taken; only taken tasks run; none is taken after `STOPPED`; and
`destroy_threadpool` returns how many of those accepted by then are never run,
as an `int`. -/
theorem accepted_in_order (limit : Int) (s : ThreadPool τ n)
    (h : Reachable (step limit) {} s) :
    s.accepted = s.taken ++ s.tasks ∧
    (s.taken.map Offer.call).Nodup ∧
    (∀ t, Reachable (step limit) s t → ∀ offer ∈ s.refused,
      offer.call ∉ t.taken.map Offer.call) ∧
    (∀ w offer, s.threads w = .running offer → offer ∈ s.taken) ∧
    (s.poolState = .stopped → ∀ t, Reachable (step limit) s t → t.taken = s.taken) ∧
    ∀ s' t, step limit s .ret = some s' → Reachable (step limit) s' t →
      t.destroy = .returned (toInt32 (t.unrun s.accepted).length) ∧
      ((t.unrun s.accepted).length < 2 ^ 31 →
        t.destroy = .returned (t.unrun s.accepted).length) := by
  have hinv := inv_of_reachable h
  refine ⟨hinv.queue, ?_, ?_, hinv.running, ?_, ?_⟩
  · have hnodup := hinv.nodup
    rw [hinv.queue, List.append_assoc, List.map_append] at hnodup
    exact hnodup.of_append_left
  · intro t ht offer hoffer
    have hinv' : t.Inv :=
      Reachable.invariant (step limit) Inv (fun _ a _ hs hstep => inv_step hs a hstep) hinv ht
    exact hinv'.refused_not_taken offer ((later_of_reachable ht).refused.subset hoffer)
  · intro hstop t ht
    exact ((later_of_reachable ht).stopped hstop).2
  · intro s' t hs ht
    have hret := destroy_returns hinv hs ht
    refine ⟨hret, fun hlt => ?_⟩
    rw [hret, Response.toInt32_of_lt _ (Int.natCast_nonneg _) (by exact_mod_cast hlt)]

/-- The thread of a pool of one. -/
def worker : Fin 1 := Fin.last 0

/-- Three tasks, of which the first is run and the third refused. -/
def stopEarly : List (Action Nat 1) :=
  [.lock worker, .addTask 7 (some worker), .addTask 8 none, .lock worker, .finish worker,
    .addTask 9 none, .addTask 10 none, .stop, .lock worker, .finish worker, .join]

theorem accepted_in_order_stopEarly :
    ∃ s, stopEarly.foldlM (step 1) {} = some s ∧
      (s.taken, s.tasks, s.refused) = ([⟨0, 7⟩], [⟨1, 8⟩, ⟨2, 9⟩], [⟨3, 10⟩]) ∧
      s.accepted = s.taken ++ s.tasks ∧
      ∀ s', step 1 s .ret = some s' → s'.destroy = .returned (s'.unrun s.accepted).length := by
  have hrun : (stopEarly.foldlM (step 1) {}).map (fun s => (s.taken, s.tasks, s.refused)) =
      some ([⟨0, 7⟩], [⟨1, 8⟩, ⟨2, 9⟩], [⟨3, 10⟩]) := by decide +kernel
  obtain ⟨s, hs, hlogs⟩ := Option.map_eq_some_iff.mp hrun
  obtain ⟨hqueue, -, -, -, -, hret⟩ :=
    accepted_in_order 1 s (reachable_of_run (step 1) stopEarly hs)
  refine ⟨s, hs, hlogs, hqueue, fun s' hs' => (hret s' s' hs' .refl).2 ?_⟩
  have hlen : s.accepted.length = 3 := by
    simp only [Prod.mk.injEq] at hlogs
    rw [hqueue, hlogs.1, hlogs.2.1]
    rfl
  have hle : (s'.unrun s.accepted).length ≤ s.accepted.length := List.length_filter_le _ _
  omega

/-! ## The threads that are joined -/

def Joined (s : ThreadPool τ n) : Prop :=
  ∀ w : Fin n, w.val < s.destroy.joined n → s.threads w = .exited

theorem exited_setThread (v w : Fin n) (pc : ThreadPc τ) (hv : s.threads v ≠ .exited)
    (hw : s.threads w = .exited) : (s.setThread v pc).threads w = .exited := by
  have hne : w ≠ v := by
    rintro rfl
    exact hv hw
  rw [threads_setThread, if_neg hne, hw]

/-- A thread that has ended stays so. -/
theorem exited_step (a : Action τ n) (hs : step limit s a = some s') (w : Fin n)
    (hw : s.threads w = .exited) : s'.threads w = .exited := by
  cases a with
  | addTask task woken =>
    rcases addTask_cases task woken hs with rfl | ⟨threads, hthreads, rfl⟩
    · exact hw
    · exact (signals_eq_iff hthreads w _ (by simp) (by simp)).mpr hw
  | lock v =>
    obtain ⟨hv, rfl⟩ := lock_cases v hs
    have hne : s.threads v ≠ .exited := by
      rcases hv with hv | hv <;> simp [hv]
    rcases s.pick_cases v with ⟨-, hpick⟩ | ⟨-, -, hpick⟩ | ⟨offer, tasks, -, -, hpick⟩
    · rw [hpick]
      exact exited_setThread v w _ hne hw
    · rw [hpick]
      exact exited_setThread v w _ hne hw
    · rw [hpick]
      exact exited_setThread v w _ hne hw
  | spurious v =>
    obtain ⟨hv, rfl⟩ := spurious_cases v hs
    exact exited_setThread v w _ (by simp [hv]) hw
  | finish v =>
    rcases finish_cases v hs with ⟨offer, hv, rfl⟩ | ⟨hv, rfl⟩
    · exact exited_setThread v w _ (by simp [hv]) hw
    · exact exited_setThread v w _ (by simp [hv]) hw
  | stop =>
    obtain ⟨-, rfl⟩ := stop_cases hs
    simp only [broadcast, hw, ThreadPc.isWaiting, Bool.false_eq_true, ↓reduceIte]
  | join =>
    obtain ⟨i, hi, -, -, rfl⟩ := join_cases hs
    exact hw
  | ret =>
    obtain ⟨-, rfl⟩ := ret_cases hs
    exact hw

theorem joined_step (h : s.Joined) (a : Action τ n) (hs : step limit s a = some s') :
    s'.Joined := by
  intro w hw
  cases a with
  | join =>
    obtain ⟨i, hi, hd, hexit, rfl⟩ := join_cases hs
    cases Nat.lt_or_eq_of_le (Nat.le_of_lt_succ hw) with
    | inl hlt => exact h w (by rw [hd]; exact hlt)
    | inr heq =>
      obtain rfl : w = ⟨i, hi⟩ := Fin.ext heq
      exact hexit
  | ret =>
    obtain ⟨hd, rfl⟩ := ret_cases hs
    exact h w (by rw [hd]; exact w.isLt)
  | stop =>
    obtain ⟨hd, rfl⟩ := stop_cases hs
    exact absurd hw (Nat.not_lt_zero _)
  | addTask task woken =>
    refine exited_step (.addTask task woken) hs w (h w ?_)
    rcases addTask_cases task woken hs with rfl | ⟨threads, hthreads, rfl⟩
    · exact hw
    · exact hw
  | lock v =>
    refine exited_step (.lock v) hs w (h w ?_)
    obtain ⟨-, rfl⟩ := lock_cases v hs
    rcases s.pick_cases v with ⟨-, hpick⟩ | ⟨-, -, hpick⟩ | ⟨offer, tasks, -, -, hpick⟩
    · rw [hpick] at hw
      exact hw
    · rw [hpick] at hw
      exact hw
    · rw [hpick] at hw
      exact hw
  | spurious v =>
    refine exited_step (.spurious v) hs w (h w ?_)
    obtain ⟨-, rfl⟩ := spurious_cases v hs
    exact hw
  | finish v =>
    refine exited_step (.finish v) hs w (h w ?_)
    rcases finish_cases v hs with ⟨offer, -, rfl⟩ | ⟨-, rfl⟩
    · exact hw
    · exact hw

/-- When `destroy_threadpool` has returned, every thread has ended. -/
theorem exited_of_returned (h : Reachable (step limit) {} s) (ret : Int)
    (hret : s.destroy = .returned ret) (w : Fin n) : s.threads w = .exited := by
  have hinit : Joined ({} : ThreadPool τ n) := fun w hw => absurd hw (Nat.not_lt_zero _)
  have hjoined : s.Joined := Reachable.invariant (step limit) Joined
    (fun _ a _ hs hstep => joined_step hs a hstep) hinit h
  exact hjoined w (by rw [hret]; exact w.isLt)

/-! ## The `int` of `destroy_threadpool` -/

/-- `k` tasks for one thread, which then sees the stop before any of them. -/
def flood (k : Nat) : List (Action Unit 1) :=
  List.replicate k (.addTask () none) ++ [.stop, .lock worker, .finish worker, .join]

theorem run_replicate (k : Nat) (s : ThreadPool Unit 1) (hw : s.threads 0 = .locking) :
    ∃ t, (List.replicate k (.addTask () none)).foldlM (step (-1)) s = some t ∧
      t.threads 0 = .locking ∧ t.destroy = s.destroy ∧ t.poolState = s.poolState ∧
      t.taken = s.taken ∧ t.tasks.length = s.tasks.length + k := by
  induction k generalizing s with
  | zero => exact ⟨s, rfl, hw, rfl, rfl, rfl, rfl⟩
  | succ k ih =>
    have hlimit : s.limitReached (-1) = false := by simp [limitReached]
    have hnone : ∀ w : Fin 1, (s.threads w).isWaiting = false := by
      intro w
      rw [Subsingleton.elim w 0, hw]
      rfl
    have hstep : step (-1) s (.addTask () none) =
        some { s with
          calls := s.calls + 1
          tasks := s.tasks ++ [⟨s.calls, ()⟩]
          accepted := s.accepted ++ [⟨s.calls, ()⟩] } := by
      simp [step, addTask, hlimit, signal, hnone, record]
    obtain ⟨t, ht, hw', hd, hp, htaken, hlen⟩ := ih { s with
      calls := s.calls + 1
      tasks := s.tasks ++ [⟨s.calls, ()⟩]
      accepted := s.accepted ++ [⟨s.calls, ()⟩] } hw
    refine ⟨t, ?_, hw', hd, hp, htaken, ?_⟩
    · rw [List.replicate_succ, List.foldlM_cons, hstep]
      exact ht
    · rw [hlen, List.length_append, List.length_singleton]
      omega

/-- The stop of a pool whose one thread is at the head of its loop. -/
theorem run_stop (s : ThreadPool Unit 1) (hw : s.threads 0 = .locking)
    (hd : s.destroy = .uncalled) :
    ∃ t, [.stop, .lock 0, .finish 0, .join].foldlM (step (-1)) s = some t ∧
      t.destroy = .joining 1 ∧ t.tasks = s.tasks ∧ t.accepted = s.accepted ∧ t.taken = s.taken := by
  let t : ThreadPool Unit 1 := { s.broadcast with poolState := .stopped, destroy := .joining 0 }
  have hstop : step (-1) s .stop = some t := by
    simp only [step, hd]
    rfl
  have hwt : t.threads 0 = .locking := by
    show (if (s.threads 0).isWaiting then ThreadPc.signaled else s.threads 0) = .locking
    rw [hw]
    rfl
  have hlock : step (-1) t (.lock 0) = some (t.setThread 0 .exiting) := by
    simp only [step, hwt]
    rfl
  have hfinish : step (-1) (t.setThread 0 .exiting) (.finish 0) =
      some ((t.setThread 0 .exiting).setThread 0 .exited) := by
    simp only [step, threads_setThread, if_pos]
  refine ⟨{ (t.setThread 0 .exiting).setThread 0 .exited with destroy := .joining 1 },
    ?_, rfl, rfl, rfl, rfl⟩
  simp only [List.foldlM_cons, List.foldlM_nil, hstop, hlock, hfinish, Option.bind_eq_bind,
    Option.bind_some]
  rfl

theorem run_flood (k : Nat) :
    ∃ s s' : ThreadPool Unit 1, (flood k).foldlM (step (-1)) {} = some s ∧
      step (-1) s .ret = some s' ∧ s.tasks.length = k ∧ s'.taken = [] ∧
      s'.destroy = .returned (toInt32 k) := by
  obtain ⟨t, ht, hw, hd, -, htaken, hlen⟩ := run_replicate k {} rfl
  obtain ⟨s, hs, hd', htasks, -, htaken'⟩ := run_stop t hw hd
  have hlen' : s.tasks.length = k := by
    rw [htasks, hlen]
    simp
  refine ⟨s, { s with destroy := .returned s.destroyRet }, ?_, ?_, hlen', ?_, ?_⟩
  · rw [flood, List.foldlM_append, ht]
    exact hs
  · simp only [step, hd', if_pos]
  · show s.taken = []
    rw [htaken', htaken]
  · show DestroyPc.returned s.destroyRet = _
    rw [destroyRet, hlen']

/-- With `2^31` tasks left the `int` is negative. -/
theorem destroy_returns_negative :
    ∃ s s' : ThreadPool Unit 1, (flood (2 ^ 31)).foldlM (step (-1)) {} = some s ∧
      step (-1) s .ret = some s' ∧ (s'.unrun s.accepted).length = 2 ^ 31 ∧
      s'.destroy = .returned (-2 ^ 31) := by
  obtain ⟨s, s', hrun, hret, hlen, htaken, hd⟩ := run_flood (2 ^ 31)
  have hinv : s.Inv := inv_of_reachable (reachable_of_run (step (-1)) _ hrun)
  refine ⟨s, s', hrun, hret, ?_, hd⟩
  obtain ⟨-, rfl⟩ := ret_cases hret
  have hunrun : unrun { s with destroy := .returned s.destroyRet } s.accepted = s.tasks :=
    hinv.unrun_accepted
  rw [hunrun, hlen]

end ThreadPool

end Ehttp
