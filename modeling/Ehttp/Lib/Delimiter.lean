import Ehttp.Lib.Scan

/-!
# Reading up to a delimiter

A scanner that copies its input until it has seen a delimiter.  Its state is
how much of the delimiter the input ends in; when a match breaks off, the part
matched so far was ordinary input.  The search never goes back, so it needs a
delimiter whose first element does not occur in it again.

* `step_text`: output and partial match together are the text read;
* `scan_found`: text without the delimiter, followed by the delimiter, is
  copied exactly.
-/

namespace Lib

namespace Delimiter

open Scan

variable {α : Type} [DecidableEq α]

/-- `k` elements of the delimiter are matched; `none` once all are. -/
def step (delim : List α) (k : Nat) (c : α) : Option (List α × Nat) :=
  if k = delim.length then none
  else if delim[k]? = some c then some ([], k + 1)
  else if delim[0]? = some c then some (delim.take k, 1)
  else some (delim.take k ++ [c], 0)

variable (delim : List α)

theorem step_match (k : Nat) (c : α) (h : delim[k]? = some c) :
    step delim k c = some ([], k + 1) := by
  have hk : k < delim.length := (List.getElem?_eq_some_iff.mp h).1
  unfold step
  rw [if_neg (Nat.ne_of_lt hk), if_pos h]

/-- A match breaks off; the element may start the next one. -/
theorem step_miss (a : α) (t : List α) (k : Nat) (c : α) (hk : k < (a :: t).length)
    (h : (a :: t)[k]? ≠ some c) :
    step (a :: t) k c =
      some ((a :: t).take k ++ (if c = a then [] else [c]), if c = a then 1 else 0) := by
  unfold step
  rw [if_neg (Nat.ne_of_lt hk), if_neg h]
  by_cases hc : c = a
  · simp [hc]
  · have ha : ¬ a = c := fun e => hc e.symm
    simp [hc, ha]

/-- One element, with the partial match before and after it. -/
theorem step_text (k : Nat) (c : α) (hk : k < delim.length) :
    ∃ out k', step delim k c = some (out, k') ∧ k' ≤ delim.length ∧
      out ++ delim.take k' = delim.take k ++ [c] := by
  unfold step
  rw [if_neg (Nat.ne_of_lt hk)]
  by_cases hc : delim[k]? = some c
  · refine ⟨[], k + 1, by rw [if_pos hc], hk, ?_⟩
    rw [List.take_add_one, hc]
    rfl
  · rw [if_neg hc]
    by_cases h0 : delim[0]? = some c
    · refine ⟨delim.take k, 1, by rw [if_pos h0], by omega, ?_⟩
      rw [List.take_add_one, h0]
      rfl
    · exact ⟨delim.take k ++ [c], 0, by rw [if_neg h0], by omega, by simp⟩

theorem step_le {k k' : Nat} {c : α} {out : List α} (hk : k < delim.length)
    (h : step delim k c = some (out, k')) : k' ≤ delim.length := by
  obtain ⟨out', k₁, hstep, hle, -⟩ := step_text delim k c hk
  rw [h] at hstep
  cases hstep
  exact hle

/-- The search stops at a full match. -/
theorem scan_matched {l out : List α} {k' : Nat}
    (h : scan (step delim) delim.length l = some (out, k')) : l = [] ∧ out = [] := by
  cases l with
  | nil =>
    cases h
    exact ⟨rfl, rfl⟩
  | cons c l =>
    obtain ⟨es, q, gs, hstep, -, -⟩ := scan_cons_some (step delim) h
    rw [step, if_pos rfl] at hstep
    cases hstep

/-- Text in which the delimiter does not end is read without a full match. -/
theorem scan_free (l : List α) (k : Nat) (hk : k < delim.length)
    (hfree : ¬ delim <:+: delim.take k ++ l) :
    ∃ out k', scan (step delim) k l = some (out, k') ∧ k' < delim.length ∧
      out ++ delim.take k' = delim.take k ++ l := by
  induction l generalizing k with
  | nil => exact ⟨[], k, rfl, hk, by simp⟩
  | cons c l ih =>
    obtain ⟨out, k₁, hstep, hle, htext⟩ := step_text delim k c hk
    have hsplit : out ++ (delim.take k₁ ++ l) = delim.take k ++ c :: l := by
      rw [← List.append_assoc, htext]
      simp
    have hlt : k₁ < delim.length := by
      apply Nat.lt_of_le_of_ne hle
      intro heq
      apply hfree
      rw [← hsplit, heq, List.take_length]
      exact ⟨out, l, by simp⟩
    have hfree' : ¬ delim <:+: delim.take k₁ ++ l := by
      intro h
      apply hfree
      rw [← hsplit]
      exact h.trans (List.suffix_append out _).isInfix
    obtain ⟨rest, k', hscan, hk', hrest⟩ := ih k₁ hlt hfree'
    refine ⟨out ++ rest, k', ?_, hk', ?_⟩
    · simp [scan_cons, hstep, hscan]
    · rw [List.append_assoc, hrest, hsplit]

/-- The rest of the delimiter completes the match. -/
theorem scan_rest (t : List α) (k : Nat) (h : delim.drop k = t) (hk : k ≤ delim.length) :
    scan (step delim) k t = some ([], delim.length) := by
  induction t generalizing k with
  | nil =>
    have hlen : delim.length ≤ k := List.drop_eq_nil_iff.mp h
    rw [Nat.le_antisymm hk hlen]
    rfl
  | cons c t ih =>
    have hlt : k < delim.length := by
      apply Nat.lt_of_not_le
      intro hle
      rw [List.drop_eq_nil_iff.mpr hle] at h
      simp at h
    have hc : delim[k]? = some c := by
      rw [← List.head?_drop, h]
      rfl
    have hstep := step_match delim k c hc
    have hdrop : delim.drop (k + 1) = t := by
      rw [← List.drop_drop, h]
      rfl
    simp [scan_cons, hstep, ih (k + 1) hdrop hlt]

/-- A whole delimiter, read in the middle of a broken match. -/
theorem scan_delim (a : α) (t : List α) (ha : a ∉ t) (k : Nat) (hk : k < (a :: t).length) :
    scan (step (a :: t)) k (a :: t) = some ((a :: t).take k, (a :: t).length) := by
  have hstep : step (a :: t) k a = some ((a :: t).take k, 1) := by
    cases k with
    | zero => exact step_match (a :: t) 0 a rfl
    | succ k =>
      have hne : (a :: t)[k + 1]? ≠ some a := by
        intro h
        rw [List.getElem?_cons_succ] at h
        exact ha (List.mem_of_getElem? h)
      simp [step_miss a t (k + 1) a hk hne]
  have hrest := scan_rest (a :: t) t 1 rfl (by simp)
  simp [scan_cons, hstep, hrest]

/-- **Exact copy.**  The delimiter is found where it first occurs. -/
theorem scan_found (a : α) (t : List α) (ha : a ∉ t) (d : List α) (hd : ¬ a :: t <:+: d) :
    scan (step (a :: t)) 0 (d ++ a :: t) = some (d, (a :: t).length) := by
  obtain ⟨out, k, hscan, hk, htext⟩ := scan_free (a :: t) d 0 (by simp) (by simpa using hd)
  rw [scan_append, hscan]
  simp only [Option.bind_some, scan_delim a t ha k hk, Option.map_some]
  rw [htext]
  simp

end Delimiter

end Lib
