import Mathlib.Data.List.Induction
import Mathlib.Data.List.Chain

/-!
# Runs that are judged by their history

A run is the list of its calls.  A step of it is a call behind another, with
the calls up to that one.

* `Steps.invariant`: what every step keeps holds of every initial part;
* `steps_iff`: every initial part is good exactly when every step is, if a
  good step makes a good part and only a good step does.
-/

namespace Lib

variable {α : Type}

/-- `P` holds of every call and the one before it, given the calls before. -/
def Steps (P : List α → α → α → Prop) (run : List α) : Prop :=
  ∀ front last now, front ++ [last, now] <+: run → P (front ++ [last]) last now

/-- Steps that do not look back at more than the call before. -/
theorem Steps.of_isChain {P : List α → α → α → Prop} {run : List α} (R : α → α → Prop)
    (hR : ∀ before last now, R last now → P before last now) (h : run.IsChain R) : Steps P run := by
  intro front last now hpre
  obtain ⟨rest, rfl⟩ := hpre
  have hpair := (h.left_of_append).right_of_append
  exact hR _ last now (List.isChain_cons_cons.mp hpair).1

/-- **Runs.**  `I` speaks of the calls made and of the last of them. -/
theorem Steps.invariant (I : List α → α → Prop) {P : List α → α → α → Prop} {run : List α}
    (hfirst : ∀ c, I [c] c)
    (hstep : ∀ front last now, front ++ [last, now] <+: run → I (front ++ [last]) last →
      P (front ++ [last]) last now → I (front ++ [last, now]) now)
    (h : Steps P run) (front : List α) (last : α) (hpre : front ++ [last] <+: run) :
    I (front ++ [last]) last := by
  induction front using List.reverseRecOn generalizing last with
  | nil => exact hfirst last
  | append_singleton front c ih =>
    rw [List.append_assoc, List.singleton_append] at hpre ⊢
    have hc : front ++ [c] <+: run := by
      refine List.IsPrefix.trans ⟨[last], ?_⟩ hpre
      rw [List.append_assoc, List.singleton_append]
    exact hstep front c last hpre (ih c hc) (h front c last hpre)

/-- **Parts and steps.**  `Q` is what is wanted of every nonempty initial part. -/
theorem steps_iff (I : List α → α → Prop) (P : List α → α → α → Prop) (Q : List α → α → Prop)
    (run : List α) (hfirst : ∀ c, I [c] c)
    (hstep : ∀ front last now, front ++ [last, now] <+: run → I (front ++ [last]) last →
      P (front ++ [last]) last now → I (front ++ [last, now]) now)
    (hholds : ∀ front last, front ++ [last] <+: run → I (front ++ [last]) last →
      Q (front ++ [last]) last)
    (honly : ∀ front last now, front ++ [last, now] <+: run → I (front ++ [last]) last →
      Q (front ++ [last, now]) now → P (front ++ [last]) last now) :
    (∀ front last, front ++ [last] <+: run → Q (front ++ [last]) last) ↔ Steps P run := by
  constructor
  · intro h front
    -- the steps before the one in question are good by induction
    induction hlen : front.length using Nat.strongRecOn generalizing front with
    | ind n ih =>
      intro last now hpre
      have hpart : front ++ [last] <+: run := by
        refine List.IsPrefix.trans ⟨[now], ?_⟩ hpre
        rw [List.append_assoc, List.singleton_append]
      have hsteps : Steps P (front ++ [last]) := by
        intro f l m hf
        have hle := hf.length_le
        simp only [List.length_append, List.length_cons, List.length_nil] at hle
        exact ih f.length (by omega) f rfl l m (hf.trans hpart)
      have hinv := hsteps.invariant I hfirst
        (fun f l m hf => hstep f l m (hf.trans hpart)) front last (List.prefix_refl _)
      have hnow := h (front ++ [last]) now (by rwa [List.append_assoc, List.singleton_append])
      rw [List.append_assoc, List.singleton_append] at hnow
      exact honly front last now hpre hinv hnow
  · intro h front last hpre
    exact hholds front last hpre (h.invariant I hfirst hstep front last hpre)

end Lib
