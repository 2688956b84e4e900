import Ehttp.Lib.Callbacks
import Ehttp.Lib.Scan

/-!
# Triples for push parsers

A push parser is a scanner whose events go to callbacks.  A triple speaks of
both: from every parser state and user data that satisfy the precondition, the
input is accepted, no callback fails, and the postcondition holds.

* `Triple.append`: pieces of input in a row;
* `Triple.flatMap`: a piece for every element of a list, with an invariant.
-/

namespace Lib

variable {π β ε σ : Type}

def Triple (step : π → β → Option (List ε × π)) (cb : ε → σ → Exit × σ) (P : π → σ → Prop)
    (l : List β) (Q : π → σ → Prop) : Prop :=
  ∀ p s, P p s → ∃ es p' s', scan step p l = some (es, p') ∧ runAll cb es s = (none, s') ∧ Q p' s'

namespace Triple

variable {step : π → β → Option (List ε × π)} {cb : ε → σ → Exit × σ}

theorem append {P Q R : π → σ → Prop} {l m : List β} (h : Triple step cb P l Q)
    (k : Triple step cb Q m R) : Triple step cb P (l ++ m) R := by
  intro p s hp
  obtain ⟨es, p', s', hl, hes, hq⟩ := h p s hp
  obtain ⟨fs, p'', s'', hm, hfs, hr⟩ := k p' s' hq
  refine ⟨es ++ fs, p'', s'', ?_, ?_, hr⟩
  · simp [Scan.scan_append, hl, hm]
  · rw [RunAll.runAll_append_ok cb es fs s (by rw [hes]), hes, hfs]

/-- **Loops.**  `I` speaks of the elements read so far. -/
theorem flatMap {α : Type} {f : α → List β} (I : List α → π → σ → Prop) (xs : List α)
    (h : ∀ front x back, xs = front ++ x :: back →
      Triple step cb (I front) (f x) (I (front ++ [x]))) :
    Triple step cb (I []) (xs.flatMap f) (I xs) := by
  have hrest : ∀ rest front, xs = front ++ rest →
      Triple step cb (I front) (rest.flatMap f) (I xs) := by
    intro rest
    induction rest with
    | nil =>
      intro front hxs p s hp
      rw [hxs, List.append_nil]
      exact ⟨[], p, s, rfl, rfl, hp⟩
    | cons x rest ih =>
      intro front hxs
      rw [List.flatMap_cons]
      exact (h front x rest hxs).append (ih (front ++ [x]) (by simpa using hxs))
  exact hrest xs [] rfl

end Triple

end Lib
