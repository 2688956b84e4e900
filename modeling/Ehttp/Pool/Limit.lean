import Ehttp.Pool.ThreadPool

/-!
# `threadpool.cpp`: the task size limit

* `step_tasks`: `add_task` appends a task or refuses, and no other step makes
  the queue longer;
* `limit_respected_iff`: the limit is respected in the runs that offer no task
  to a queue that holds exactly the limit, and in no other;
* `queue_le_succ`: one task too many is all there can be.
-/

namespace Ehttp

open Lib

namespace ThreadPool

variable {τ : Type} {n : Nat} {s s' : ThreadPool τ n} {limit : Int}

/-- `add_task` returns -1 and leaves the queue as it was. -/
def Refuses (limit : Int) (s : ThreadPool τ n) (offer : Offer τ) (woken : Option (Fin n)) : Prop :=
  ∃ s', s.addTask limit offer woken = some (-1, s') ∧ s'.tasks = s.tasks

theorem refuses_iff (offer : Offer τ) (woken : Option (Fin n)) :
    s.Refuses limit offer woken ↔ s.limitReached limit = true := by
  unfold Refuses addTask
  cases h : s.limitReached limit with
  | true => simp
  | false =>
    simp only [Bool.false_eq_true, ↓reduceIte, iff_false]
    rintro ⟨s', hs, -⟩
    obtain ⟨t, -, ht⟩ := Option.map_eq_some_iff.mp hs
    simp at ht

/-- The cast of the size to `int` never makes it larger. -/
theorem toInt32_le (k : Nat) : toInt32 k ≤ k := by
  rw [toInt32, Int.bmod_def]
  split <;> omega

theorem limitReached_lt (h : s.limitReached limit = true) :
    0 < limit ∧ limit < s.tasks.length := by
  simp only [limitReached, decide_eq_true_eq] at h
  have hle := toInt32_le s.tasks.length
  omega

/-- What a step does to the queue. -/
theorem step_tasks (a : Action τ n) (h : step limit s a = some s') :
    (∃ task woken, a = .addTask task woken ∧ s.limitReached limit = false ∧
      s'.tasks = s.tasks ++ [⟨s.calls, task⟩]) ∨ s'.tasks.length ≤ s.tasks.length := by
  cases a with
  | addTask task woken =>
    cases hl : s.limitReached limit with
    | true =>
      simp only [step, addTask, hl, ↓reduceIte, Option.map_some, Option.some.injEq] at h
      right
      rw [← h]
      exact Nat.le_refl _
    | false =>
      rcases addTask_cases task woken h with hs | ⟨threads, -, hs⟩
      · exact Or.inr (Nat.le_of_eq (by rw [hs]))
      · exact Or.inl ⟨task, woken, rfl, rfl, by rw [hs]⟩
  | lock w =>
    right
    obtain ⟨-, rfl⟩ := lock_cases w h
    rcases s.pick_cases w with ⟨-, hp⟩ | ⟨-, -, hp⟩ | ⟨offer, tasks, -, ht, hp⟩
    · rw [hp]; exact Nat.le_refl _
    · rw [hp]; exact Nat.le_refl _
    · rw [hp, ht]; exact Nat.le_succ _
  | spurious w =>
    obtain ⟨-, rfl⟩ := spurious_cases w h
    exact Or.inr (Nat.le_refl _)
  | finish w =>
    rcases finish_cases w h with ⟨offer, -, rfl⟩ | ⟨-, rfl⟩
    · exact Or.inr (Nat.le_refl _)
    · exact Or.inr (Nat.le_refl _)
  | stop =>
    obtain ⟨-, rfl⟩ := stop_cases h
    exact Or.inr (Nat.le_refl _)
  | join =>
    obtain ⟨i, hi, -, -, rfl⟩ := join_cases h
    exact Or.inr (Nat.le_refl _)
  | ret =>
    obtain ⟨-, rfl⟩ := ret_cases h
    exact Or.inr (Nat.le_refl _)

/-- What the limit promises of a step and the queue behind it. -/
structure RespectsLimit (limit : Int) (s : ThreadPool τ n) (a : Action τ n) : Prop where
  queue : ∀ s', step limit s a = some s' → 0 < limit → (s'.tasks.length : Int) ≤ limit
  refuses : ∀ task woken, a = .addTask task woken →
    (s.Refuses limit ⟨s.calls, task⟩ woken ↔ 0 < limit ∧ (s.tasks.length : Int) = limit)

/-- The step does not offer a task to a queue that holds exactly the limit. -/
def NotFull (limit : Int) (s : ThreadPool τ n) (a : Action τ n) : Prop :=
  ∀ task woken, a = .addTask task woken → 0 < limit → (s.tasks.length : Int) ≠ limit

/-- The queue holds at most `limit` tasks. -/
def WithinLimit (limit : Int) (s : ThreadPool τ n) : Prop :=
  0 < limit → (s.tasks.length : Int) ≤ limit

theorem respectsLimit_of_notFull (a : Action τ n) (hs : s.WithinLimit limit)
    (ha : NotFull limit s a) : RespectsLimit limit s a := by
  constructor
  · intro s' h hpos
    rcases step_tasks a h with ⟨task, woken, rfl, -, ht⟩ | hle
    · have hne := ha task woken rfl hpos
      have hle := hs hpos
      rw [ht, List.length_append, List.length_singleton]
      omega
    · have hs := hs hpos
      omega
  · rintro task woken rfl
    rw [refuses_iff]
    constructor
    · intro hl
      obtain ⟨hpos, hlt⟩ := limitReached_lt hl
      have hle := hs hpos
      omega
    · rintro ⟨hpos, heq⟩
      exact absurd heq (ha task woken rfl hpos)

theorem notFull_of_respectsLimit (a : Action τ n) (h : RespectsLimit limit s a) :
    NotFull limit s a := by
  rintro task woken rfl hpos heq
  have hl := (refuses_iff _ woken).mp ((h.refuses task woken rfl).mpr ⟨hpos, heq⟩)
  obtain ⟨-, hlt⟩ := limitReached_lt hl
  omega

/-- **The task size limit** is respected exactly in the runs that offer no task
to a full queue. -/
theorem limit_respected_iff (limit : Int) (as : List (Action τ n)) :
    Throughout (step limit) (RespectsLimit limit) ({} : ThreadPool τ n) as ↔
      Throughout (step limit) (NotFull limit) ({} : ThreadPool τ n) as := by
  constructor
  · intro h
    refine Throughout.of_invariant (step limit) (fun _ => True) (RespectsLimit limit)
      (NotFull limit) ?_ _ trivial as h
    intro s a s' _ ha _
    exact ⟨notFull_of_respectsLimit a ha, trivial⟩
  · intro h
    refine Throughout.of_invariant (step limit) (WithinLimit limit) (NotFull limit)
      (RespectsLimit limit) ?_ _ ?_ as h
    · intro s a s' hs ha hstep
      have hresp := respectsLimit_of_notFull a hs ha
      exact ⟨hresp, hresp.queue s' hstep⟩
    · intro hpos
      show ((0 : Nat) : Int) ≤ limit
      omega

/-- The second task enters a queue that holds one, with a limit of one. -/
theorem queue_beyond_limit :
    ¬ Throughout (step 1) (RespectsLimit 1) ({} : ThreadPool Unit 1)
      [.addTask () none, .addTask () none] := by
  intro h
  have hl : limitReached 1 ({} : ThreadPool Unit 1) = false := by
    simp [limitReached, Response.toInt32_of_lt]
  obtain ⟨s, hs, hlen, hw⟩ : ∃ s, step 1 ({} : ThreadPool Unit 1) (.addTask () none) = some s ∧
      s.tasks.length = 1 ∧ ∀ w, (s.threads w).isWaiting = false := by
    simp [step, addTask, hl, signal, record, ThreadPc.isWaiting]
  have hl : s.limitReached 1 = false := by
    simp [limitReached, hlen, Response.toInt32_of_lt]
  obtain ⟨s', hs'⟩ : ∃ s', step 1 s (.addTask () none) = some s' := by
    simp [step, addTask, hl, signal, hw]
  rw [throughout_cons _ _ _ _ _ _ hs, throughout_cons _ _ _ _ _ _ hs'] at h
  have hrefuse := (h.2.1.refuses () none rfl).mpr ⟨by decide, by rw [hlen]; rfl⟩
  rw [refuses_iff, hl] at hrefuse
  cases hrefuse

/-- The check lets one task too many in, and no more. -/
theorem queue_le_succ (hpos : 0 < limit) (hint : limit + 1 < 2 ^ 31)
    (h : Reachable (step limit) ({} : ThreadPool τ n) s) :
    (s.tasks.length : Int) ≤ limit + 1 := by
  refine h.invariant (step limit) (fun s => (s.tasks.length : Int) ≤ limit + 1) ?_ ?_
  · intro s a s' hs hstep
    rcases step_tasks a hstep with ⟨task, woken, rfl, hl, ht⟩ | hle
    · simp only [limitReached, decide_eq_false_iff_not, not_and] at hl
      have hle := hl hpos
      rw [Response.toInt32_of_lt _ (by omega) (by omega)] at hle
      rw [ht, List.length_append, List.length_singleton]
      omega
    · omega
  · show ((0 : Nat) : Int) ≤ limit + 1
    omega

end ThreadPool

end Ehttp
