import Ehttp.Lib.Census
import Ehttp.Pool.ThreadPool

/-! No task waits for a wake-up: while a thread sleeps, the queue is no longer
than the number of threads that have been released and have not locked the
mutex. -/

namespace Ehttp

open Lib

def ThreadPc.isSignaled {τ : Type} : ThreadPc τ → Bool
  | .signaled => true
  | _ => false

namespace ThreadPool

variable {τ : Type} {n : Nat} {s s' : ThreadPool τ n} {limit : Int}

/-- The threads that the condition variable has released and that have not
locked the mutex again. -/
def released (threads : Fin n → ThreadPc τ) : Nat := census ThreadPc.isSignaled threads

structure Wakeful (s : ThreadPool τ n) : Prop where
  queue : ∀ w, (s.threads w).isWaiting → s.tasks.length ≤ released s.threads
  stopped : s.poolState = .stopped → ∀ w, (s.threads w).isWaiting = false

/-- No thread sleeps. -/
theorem wakeful_of_none (hnone : ∀ w, (s.threads w).isWaiting = false) : s.Wakeful := by
  constructor
  · intro w hw
    rw [hnone w] at hw
    cases hw
  · exact fun _ => hnone

theorem wakeful_init : Wakeful ({} : ThreadPool τ n) := wakeful_of_none fun _ => rfl

theorem isWaiting_broadcast (w : Fin n) : (s.broadcast.threads w).isWaiting = false := by
  show (if (s.threads w).isWaiting then ThreadPc.signaled else s.threads w).isWaiting = false
  cases hw : (s.threads w).isWaiting with
  | true => rfl
  | false =>
    rw [if_neg Bool.false_ne_true]
    exact hw

/-- A step that leaves the threads alone, and does not queue. -/
theorem Wakeful.frame (h : s.Wakeful) (htasks : s'.tasks = s.tasks)
    (hthreads : s'.threads = s.threads) (hstate : s'.poolState = s.poolState) : s'.Wakeful := by
  constructor
  · rw [htasks, hthreads]
    exact h.queue
  · rw [hstate, hthreads]
    exact h.stopped

theorem released_update (threads : Fin n → ThreadPc τ) (w : Fin n) (pc : ThreadPc τ) :
    released (Function.update threads w pc) + (if (threads w).isSignaled then 1 else 0) =
      released threads + (if pc.isSignaled then 1 else 0) :=
  census_update ThreadPc.isSignaled threads w pc

/-- A thread that neither sleeps nor is released goes on. -/
theorem Wakeful.setThread (h : s.Wakeful) (w : Fin n) (pc : ThreadPc τ)
    (hw : (s.threads w).isSignaled = false) (hpc : pc.isWaiting = false) :
    (s.setThread w pc).Wakeful := by
  have hupdate := released_update s.threads w pc
  rw [hw] at hupdate
  constructor
  · intro v hv
    rw [threads_setThread] at hv
    split at hv
    · rw [hpc] at hv
      cases hv
    · have hqueue := h.queue v hv
      show s.tasks.length ≤ released (Function.update s.threads w pc)
      simp only [Bool.false_eq_true, if_false] at hupdate
      omega
  · intro hstop v
    rw [threads_setThread]
    split
    · exact hpc
    · exact h.stopped hstop v

/-- A task is queued, and one thread released if there is a sleeping one. -/
theorem Wakeful.accept (h : s.Wakeful) (offer : Offer τ) (threads : Fin n → ThreadPc τ)
    (hthreads : Signals s.threads threads) (t : ThreadPool τ n)
    (htasks : t.tasks = s.tasks ++ [offer]) (ht : t.threads = threads)
    (hstate : t.poolState = s.poolState) : t.Wakeful := by
  rcases hthreads with ⟨w, hw, rfl⟩ | ⟨hnone, rfl⟩
  · have hsignaled : (s.threads w).isSignaled = false := by
      cases hpc : s.threads w with
      | waiting => rfl
      | _ => rw [hpc] at hw; cases hw
    have hupdate := released_update s.threads w .signaled
    rw [hsignaled] at hupdate
    have hqueue := h.queue w hw
    constructor
    · intro v hv
      rw [htasks, ht, List.length_append, List.length_singleton]
      simp only [ThreadPc.isSignaled, if_pos, Bool.false_eq_true, if_false] at hupdate
      omega
    · intro hstop
      rw [hstate] at hstop
      rw [h.stopped hstop w] at hw
      cases hw
  · apply wakeful_of_none
    rw [ht]
    exact hnone

/-- A thread sleeps on an empty queue only, and takes one task with one release. -/
theorem Wakeful.pick (h : s.Wakeful) (w : Fin n) : (s.pick w).Wakeful := by
  rcases s.pick_cases w with ⟨hstop, hpick⟩ | ⟨hstate, htasks, hpick⟩ |
    ⟨offer, tasks, hstate, htasks, hpick⟩
  · rw [hpick]
    apply wakeful_of_none
    intro v
    rw [threads_setThread]
    split
    · rfl
    · exact h.stopped hstop v
  · rw [hpick]
    constructor
    · intro v hv
      show s.tasks.length ≤ _
      rw [htasks]
      exact Nat.zero_le _
    · intro hstop
      rw [show (s.setThread w .waiting).poolState = s.poolState from rfl, hstate] at hstop
      cases hstop
  · rw [hpick]
    constructor
    · intro v hv
      rw [threads_setThread] at hv
      split at hv
      · cases hv
      · have hqueue := h.queue v hv
        have hupdate := released_update s.threads w (.running offer)
        show tasks.length ≤ released (Function.update s.threads w (.running offer))
        rw [htasks, List.length_cons] at hqueue
        have hleave : (if (s.threads w).isSignaled then 1 else 0) ≤ 1 := by split <;> omega
        simp only [ThreadPc.isSignaled, Bool.false_eq_true, if_false] at hupdate hleave
        omega
    · intro hstop
      rw [show (({ s with tasks, taken := s.taken ++ [offer] } : ThreadPool τ n).setThread w
        (.running offer)).poolState = s.poolState from rfl, hstate] at hstop
      cases hstop

theorem wakeful_step (h : s.Wakeful) (a : Action τ n) (hs : step limit s a = some s') :
    s'.Wakeful := by
  cases a with
  | addTask task woken =>
    rcases addTask_cases task woken hs with rfl | ⟨threads, hthreads, rfl⟩
    · exact h.frame rfl rfl rfl
    · exact h.accept _ threads hthreads _ rfl rfl rfl
  | lock w =>
    obtain ⟨-, rfl⟩ := lock_cases w hs
    exact h.pick w
  | spurious w =>
    obtain ⟨hw, rfl⟩ := spurious_cases w hs
    exact h.setThread w .signaled (by rw [hw]; rfl) rfl
  | finish w =>
    rcases finish_cases w hs with ⟨offer, hw, rfl⟩ | ⟨hw, rfl⟩
    · exact h.setThread w .locking (by rw [hw]; rfl) rfl
    · exact h.setThread w .exited (by rw [hw]; rfl) rfl
  | stop =>
    obtain ⟨-, rfl⟩ := stop_cases hs
    exact wakeful_of_none fun w => s.isWaiting_broadcast w
  | join =>
    obtain ⟨i, hi, -, -, rfl⟩ := join_cases hs
    exact h.frame rfl rfl rfl
  | ret =>
    obtain ⟨-, rfl⟩ := ret_cases hs
    exact h.frame rfl rfl rfl

/-! ## The threads end -/

theorem step_exiting (limit : Int) (w : Fin n) (hw : s.threads w = .exiting) :
    step limit s (.finish w) = some (s.setThread w .exited) := by
  rw [step, hw]

theorem step_stopped (limit : Int) (w : Fin n) (hstop : s.poolState = .stopped)
    (hw : s.threads w = .locking ∨ s.threads w = .signaled) :
    step limit s (.lock w) = some (s.setThread w .exiting) := by
  have hpick : s.pick w = s.setThread w .exiting := by rw [pick, hstop]
  rcases hw with hw | hw
  · rw [step, hw, ← hpick]
  · rw [step, hw, ← hpick]

theorem step_running (limit : Int) (w : Fin n) (offer : Offer τ)
    (hw : s.threads w = .running offer) :
    step limit s (.finish w) = some (s.setThread w .locking) := by
  rw [step, hw]

/-- A thread can come to its end by steps of its own. -/
def Ends (limit : Int) (s : ThreadPool τ n) (w : Fin n) : Prop :=
  ∃ (as : List (Action τ n)) (t : ThreadPool τ n), (∀ a ∈ as, a = .lock w ∨ a = .finish w) ∧
    as.foldlM (step limit) s = some t ∧ t.threads w = .exited

theorem ends_of_awake (limit : Int) (hstop : s.poolState = .stopped) (w : Fin n)
    (hw : (s.threads w).isWaiting = false) : Ends limit s w := by
  have hexiting : ∀ s : ThreadPool τ n, s.threads w = .exiting →
      ∃ t, [.finish w].foldlM (step limit) s = some t ∧ t.threads w = .exited := by
    intro s hw
    refine ⟨s.setThread w .exited, ?_, by simp⟩
    rw [List.foldlM_cons, step_exiting limit w hw]
    rfl
  have hlocking : ∀ s : ThreadPool τ n, s.poolState = .stopped →
      (s.threads w = .locking ∨ s.threads w = .signaled) →
      ∃ t, [.lock w, .finish w].foldlM (step limit) s = some t ∧ t.threads w = .exited := by
    intro s hstop hw
    obtain ⟨t, ht, hexited⟩ := hexiting (s.setThread w .exiting) (by simp)
    refine ⟨t, ?_, hexited⟩
    rw [List.foldlM_cons, step_stopped limit w hstop hw]
    exact ht
  cases hpc : s.threads w with
  | exited => exact ⟨[], s, by simp, rfl, hpc⟩
  | exiting =>
    obtain ⟨t, ht, hexited⟩ := hexiting s hpc
    exact ⟨_, t, by simp, ht, hexited⟩
  | locking =>
    obtain ⟨t, ht, hexited⟩ := hlocking s hstop (Or.inl hpc)
    exact ⟨_, t, by simp, ht, hexited⟩
  | signaled =>
    obtain ⟨t, ht, hexited⟩ := hlocking s hstop (Or.inr hpc)
    exact ⟨_, t, by simp, ht, hexited⟩
  | running offer =>
    obtain ⟨t, ht, hexited⟩ := hlocking (s.setThread w .locking) hstop (Or.inl (by simp))
    refine ⟨[.finish w, .lock w, .finish w], t, by simp, ?_, hexited⟩
    rw [List.foldlM_cons, step_running limit w offer hpc]
    exact ht
  | waiting =>
    rw [hpc] at hw
    cases hw

theorem wakeful_of_reachable (h : Reachable (step limit) {} s) : s.Wakeful :=
  Reachable.invariant (step limit) Wakeful (fun _ a _ hs hstep => wakeful_step hs a hstep)
    wakeful_init h

/-- **No lost wake-up.**  In every state of a started pool of at least one
thread: a thread is awake if a task is queued, and while one sleeps the queue is
no longer than the number of released threads; from the stop on none sleeps, and
each comes to its end. -/
theorem no_lost_wakeup (hn : 0 < n) (limit : Int) (s : ThreadPool τ n)
    (h : Reachable (step limit) {} s) :
    (s.tasks ≠ [] → ∃ w, s.threads w ≠ .waiting) ∧
    ((∃ w, s.threads w = .waiting) → s.tasks.length ≤ released s.threads) ∧
    (s.poolState = .stopped → ∀ t, Reachable (step limit) s t →
      ∀ w, t.threads w ≠ .waiting ∧ Ends limit t w) := by
  have hwakeful := wakeful_of_reachable h
  refine ⟨?_, ?_, ?_⟩
  · intro htasks
    apply Classical.byContradiction
    intro hall
    have hwait : ∀ w, s.threads w = .waiting := by
      intro w
      exact Classical.byContradiction fun hw => hall ⟨w, hw⟩
    have hnone : released s.threads = 0 := by
      rw [released, census_eq_zero]
      intro w
      rw [hwait w]
      rfl
    have hqueue := hwakeful.queue ⟨0, hn⟩ (by rw [hwait]; rfl)
    rw [hnone] at hqueue
    exact htasks (List.eq_nil_of_length_eq_zero (Nat.le_zero.mp hqueue))
  · rintro ⟨w, hw⟩
    exact hwakeful.queue w (by rw [hw]; rfl)
  · intro hstop t ht w
    have hwakeful' : t.Wakeful :=
      Reachable.invariant (step limit) Wakeful (fun _ a _ hs hstep => wakeful_step hs a hstep)
        hwakeful ht
    have hstop' := ((later_of_reachable ht).stopped hstop).1
    have hawake := hwakeful'.stopped hstop' w
    refine ⟨?_, ends_of_awake limit hstop' w hawake⟩
    intro hw
    rw [hw] at hawake
    cases hawake

/-- Both threads sleep, and two tasks release both of them. -/
theorem no_lost_wakeup_two :
    ∃ s : ThreadPool Nat 2,
      [.lock 0, .lock 1, .addTask 7 (some 1), .addTask 8 (some 0)].foldlM (step (-1)) {} = some s ∧
      s.tasks = [⟨0, 7⟩, ⟨1, 8⟩] ∧ ∃ w, s.threads w ≠ .waiting := by
  have hrun : ([.lock 0, .lock 1, .addTask 7 (some 1), .addTask 8 (some 0)].foldlM
      (step (-1)) ({} : ThreadPool Nat 2)).map ThreadPool.tasks =
      some [⟨0, 7⟩, ⟨1, 8⟩] := by decide +kernel
  obtain ⟨s, hs, htasks⟩ := Option.map_eq_some_iff.mp hrun
  refine ⟨s, hs, htasks, ?_⟩
  apply (no_lost_wakeup (by decide) (-1) s (reachable_of_run (step (-1)) _ hs)).1
  rw [htasks]
  exact List.cons_ne_nil _ _

end ThreadPool

end Ehttp
