/-!
# Runs of a labelled transition system

A system is an executable step; a label that is not possible in a state has no
successor.  A run is a list of labels, and ends at the first that is not
possible.

* `Throughout.of_invariant`: a property of steps that an invariant gives, from
  an assumption on the steps, holds throughout a run;
* `Throughout.invariant`: so does the invariant at the end of the run;
* `Reachable.invariant`: an invariant of all steps holds in every reachable
  state;
* `Exclusive`: every resource is in one place at most, `Exclusive.give` moves
  resources to a place.
-/

namespace Lib

section Run

variable {σ α : Type} (step : σ → α → Option σ)

/-- `P` holds of every step of the run, in the state before it. -/
def Throughout (P : σ → α → Prop) : σ → List α → Prop
  | _, [] => True
  | s, a :: as =>
    match step s a with
    | none => True
    | some s' => P s a ∧ Throughout P s' as

theorem throughout_cons (P : σ → α → Prop) (s s' : σ) (a : α) (as : List α)
    (h : step s a = some s') : Throughout step P s (a :: as) ↔ P s a ∧ Throughout step P s' as := by
  simp only [Throughout, h]

instance Throughout.decidable (P : σ → α → Prop) [∀ s a, Decidable (P s a)] :
    ∀ (s : σ) (as : List α), Decidable (Throughout step P s as)
  | _, [] => isTrue trivial
  | s, a :: as =>
    match h : step s a with
    | none => isTrue (by simp only [Throughout, h])
    | some s' =>
      have := Throughout.decidable P s' as
      decidable_of_iff (P s a ∧ Throughout step P s' as) (throughout_cons step P s s' a as h).symm

/-- **Runs.**  What an invariant says of each step that meets `P`. -/
theorem Throughout.of_invariant (I : σ → Prop) (P Q : σ → α → Prop)
    (hstep : ∀ s a s', I s → P s a → step s a = some s' → Q s a ∧ I s') (s : σ) (hs : I s)
    (as : List α) (h : Throughout step P s as) : Throughout step Q s as := by
  induction as generalizing s with
  | nil => trivial
  | cons a as ih =>
    cases hc : step s a with
    | none => simp only [Throughout, hc]
    | some s' =>
      rw [throughout_cons step _ s s' a as hc] at h ⊢
      obtain ⟨hq, hs'⟩ := hstep s a s' hs h.1 hc
      exact ⟨hq, ih s' hs' h.2⟩

theorem Throughout.invariant (I : σ → Prop) (P : σ → α → Prop)
    (hstep : ∀ s a s', I s → P s a → step s a = some s' → I s') (s t : σ) (hs : I s)
    (as : List α) (h : Throughout step P s as) (hrun : as.foldlM step s = some t) : I t := by
  induction as generalizing s with
  | nil =>
    obtain rfl := Option.some.inj hrun
    exact hs
  | cons a as ih =>
    rw [List.foldlM_cons] at hrun
    obtain ⟨s', hc, hrun⟩ := Option.bind_eq_some_iff.mp hrun
    rw [throughout_cons step _ s s' a as hc] at h
    exact ih s' (hstep s a s' hs h.1 hc) h.2 hrun

theorem Throughout.and {P Q : σ → α → Prop} {s : σ} {as : List α}
    (hP : Throughout step P s as) (hQ : Throughout step Q s as) :
    Throughout step (fun s a => P s a ∧ Q s a) s as := by
  induction as generalizing s with
  | nil => trivial
  | cons a as ih =>
    cases hc : step s a with
    | none => simp only [Throughout, hc]
    | some s' =>
      rw [throughout_cons step _ s s' a as hc] at hP hQ ⊢
      exact ⟨⟨hP.1, hQ.1⟩, ih hP.2 hQ.2⟩

/-- The states of the runs from `s`. -/
inductive Reachable (s : σ) : σ → Prop
  | refl : Reachable s s
  | tail {t t' : σ} (a : α) : Reachable s t → step t a = some t' → Reachable s t'

theorem Reachable.invariant (I : σ → Prop) (hstep : ∀ s a s', I s → step s a = some s' → I s')
    {s t : σ} (hs : I s) (h : Reachable step s t) : I t := by
  induction h with
  | refl => exact hs
  | tail a _ hc ih => exact hstep _ a _ ih hc

theorem Reachable.trans {s t u : σ} (h : Reachable step s t) (h' : Reachable step t u) :
    Reachable step s u := by
  induction h' with
  | refl => exact h
  | tail a _ hc ih => exact .tail a ih hc

theorem Reachable.head {s s' t : σ} (a : α) (hc : step s a = some s')
    (h : Reachable step s' t) : Reachable step s t :=
  (Reachable.refl.tail a hc).trans step h

theorem reachable_of_run {s t : σ} (as : List α) (h : as.foldlM step s = some t) :
    Reachable step s t := by
  induction as generalizing s with
  | nil =>
    obtain rfl := Option.some.inj h
    exact .refl
  | cons a as ih =>
    rw [List.foldlM_cons] at h
    obtain ⟨s', hc, h⟩ := Option.bind_eq_some_iff.mp h
    exact .head step a hc (ih h)

end Run

section Places

variable {ρ κ : Type}

/-- No resource is in two places. -/
def Exclusive (has : κ → ρ → Prop) : Prop := ∀ r p q, has p r → has q r → p = q

theorem Exclusive.mono {has has' : κ → ρ → Prop} (h : Exclusive has)
    (hsub : ∀ p r, has' p r → has p r) : Exclusive has' :=
  fun r p q hp hq => h r p q (hsub p r hp) (hsub q r hq)

/-- Some resources are moved to a place, or made there. -/
theorem Exclusive.give {has has' : κ → ρ → Prop} (h : Exclusive has) (given : ρ → Prop) (dst : κ)
    (hgive : ∀ p r, has' p r → (given r ∧ p = dst) ∨ (¬ given r ∧ has p r)) : Exclusive has' := by
  intro r p q hp hq
  rcases hgive p r hp with ⟨hr, rfl⟩ | ⟨hr, hp⟩
  · rcases hgive q r hq with ⟨-, rfl⟩ | ⟨hr', -⟩
    · rfl
    · exact absurd hr hr'
  · rcases hgive q r hq with ⟨hr', -⟩ | ⟨-, hq⟩
    · exact absurd hr' hr
    · exact h r p q hp hq

/-- One resource goes from one place to another. -/
theorem Exclusive.move {has has' : κ → ρ → Prop} (h : Exclusive has) (r : ρ) (src dst : κ)
    (hsrc : has src r) (hleft : has' src r → src = dst)
    (hsub : ∀ p q, has' p q → (p = dst ∧ q = r) ∨ has p q) : Exclusive has' := by
  apply h.give (· = r) dst
  intro p q hp
  rcases hsub p q hp with ⟨hdst, hr⟩ | hold
  · exact Or.inl ⟨hr, hdst⟩
  · by_cases hr : q = r
    · subst hr
      obtain rfl := h q p src hold hsrc
      exact Or.inl ⟨rfl, hleft hp⟩
    · exact Or.inr ⟨hr, hold⟩

end Places

end Lib
