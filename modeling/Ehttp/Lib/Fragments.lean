/-!
# Data in fragments

A push parser hands out data on channels, in fragments, and notices between
them.  `χ` is the type of channels, `ν` that of notices, `β` the elements of
the data.

* `join_append`, `join_congr`: fragments in a row are glued, and gluing is a
  congruence for concatenation;
* `starts_join`, `mem_join_notice`: what gluing leaves as it is;
* `split_data`, `split_notice`: the outputs behind a glued list.
-/

namespace Lib

inductive Output (χ ν β : Type)
  | data (x : χ) (s : List β)
  | notice (e : ν)
  deriving DecidableEq, Repr

namespace Output

variable {χ ν β : Type} [DecidableEq χ]

/-- One output in front of others: two fragments of one channel become one. -/
def glue : Output χ ν β → List (Output χ ν β) → List (Output χ ν β)
  | .data x s, .data y t :: l =>
    if x = y then .data x (s ++ t) :: l else .data x s :: .data y t :: l
  | o, l => o :: l

def join : List (Output χ ν β) → List (Output χ ν β)
  | [] => []
  | o :: l => glue o (join l)

@[simp] theorem join_nil : join ([] : List (Output χ ν β)) = [] := rfl

theorem join_cons (o : Output χ ν β) (l : List (Output χ ν β)) : join (o :: l) = glue o (join l) :=
  rfl

@[simp] theorem glue_notice (e : ν) (l : List (Output χ ν β)) : glue (.notice e) l = .notice e :: l := by
  cases l <;> rfl

@[simp] theorem glue_nil (o : Output χ ν β) : glue o [] = [o] := by
  cases o <;> rfl

@[simp] theorem glue_data_notice (x : χ) (s : List β) (e : ν) (l : List (Output χ ν β)) :
    glue (.data x s) (.notice e :: l) = .data x s :: .notice e :: l := rfl

theorem glue_data_same (x : χ) (s t : List β) (l : List (Output χ ν β)) :
    glue (.data x s) (.data x t :: l) = .data x (s ++ t) :: l := by
  simp [glue]

theorem glue_data_other {x y : χ} (h : x ≠ y) (s t : List β) (l : List (Output χ ν β)) :
    glue (.data x s) (.data y t :: l) = .data x s :: .data y t :: l := by
  simp [glue, h]

/-- Three fragments: the order of gluing does not matter. -/
theorem glue_glue (x : χ) (s t : List β) (l : List (Output χ ν β)) :
    glue (.data x s) (glue (.data x t) l) = glue (.data x (s ++ t)) l := by
  cases l with
  | nil => simp [glue_data_same]
  | cons o l =>
    cases o with
    | notice e => simp [glue_data_same]
    | data y u =>
      by_cases h : x = y
      · subst h
        simp [glue_data_same]
      · simp [glue_data_other h, glue_data_same]

theorem join_append (l m : List (Output χ ν β)) : join (l ++ m) = l.foldr glue (join m) := by
  induction l with
  | nil => rfl
  | cons o l ih => rw [List.cons_append, join_cons, ih, List.foldr_cons]

theorem foldr_glue (o : Output χ ν β) (l n : List (Output χ ν β)) :
    (glue o l).foldr glue n = glue o (l.foldr glue n) := by
  cases o with
  | notice e => simp
  | data x s =>
    cases l with
    | nil => simp
    | cons p l =>
      cases p with
      | notice e => simp
      | data y t =>
        by_cases h : x = y
        · subst h
          rw [glue_data_same, List.foldr_cons, List.foldr_cons, glue_glue]
        · rw [glue_data_other h, List.foldr_cons]

theorem foldr_join (l n : List (Output χ ν β)) : (join l).foldr glue n = l.foldr glue n := by
  induction l with
  | nil => rfl
  | cons o l ih => rw [join_cons, foldr_glue, ih, List.foldr_cons]

/-- **Congruence.** -/
theorem join_congr {l l' m m' : List (Output χ ν β)} (hl : join l = join l')
    (hm : join m = join m') : join (l ++ m) = join (l' ++ m') := by
  rw [join_append, join_append, hm, ← foldr_join l, hl, foldr_join]

/-- Two fragments in a row are as good as one. -/
theorem join_merge (l m : List (Output χ ν β)) (x : χ) (s t : List β) :
    join (l ++ .data x s :: .data x t :: m) = join (l ++ .data x (s ++ t) :: m) := by
  rw [join_append, join_append, join_cons, join_cons, glue_glue, join_cons]

/-! ## Where a glued list begins -/

/-- The first output is data of `x`. -/
def Starts (x : χ) (l : List (Output χ ν β)) : Prop := ∃ s n, l = .data x s :: n

omit [DecidableEq χ] in
theorem not_starts_notice (x : χ) (e : ν) (l : List (Output χ ν β)) : ¬ Starts x (.notice e :: l) := by
  rintro ⟨s, n, h⟩
  cases h

omit [DecidableEq χ] in
theorem not_starts_data {x y : χ} (h : x ≠ y) (s : List β) (l : List (Output χ ν β)) :
    ¬ Starts x (.data y s :: l) := by
  rintro ⟨t, n, ht⟩
  cases ht
  exact h rfl

theorem starts_glue (x y : χ) (s : List β) (l : List (Output χ ν β)) :
    Starts x (glue (.data y s) l) ↔ x = y := by
  have hone : ∀ (t : List β) (n : List (Output χ ν β)), Starts x (.data y t :: n) ↔ x = y := by
    intro t n
    refine ⟨?_, ?_⟩
    · rintro ⟨u, k, hk⟩
      cases hk
      rfl
    · rintro rfl
      exact ⟨t, n, rfl⟩
  cases l with
  | nil => exact hone _ _
  | cons o l =>
    cases o with
    | notice e => exact hone _ _
    | data z t =>
      simp only [glue]
      split
      · exact hone _ _
      · exact hone _ _

theorem starts_join (x : χ) (l : List (Output χ ν β)) : Starts x (join l) ↔ Starts x l := by
  cases l with
  | nil => exact Iff.rfl
  | cons o l =>
    rw [join_cons]
    cases o with
    | notice e =>
      rw [glue_notice]
      exact iff_of_false (not_starts_notice x e _) (not_starts_notice x e _)
    | data y s =>
      rw [starts_glue]
      refine ⟨?_, ?_⟩
      · rintro rfl
        exact ⟨s, l, rfl⟩
      · rintro ⟨t, n, ht⟩
        cases ht
        rfl

/-- A fragment in front of what does not go on with it. -/
theorem join_data {x : χ} {l : List (Output χ ν β)} (h : ¬ Starts x l) (s : List β) :
    join (.data x s :: l) = .data x s :: join l := by
  rw [join_cons]
  rw [← starts_join] at h
  cases hl : join l with
  | nil => rfl
  | cons o k =>
    cases o with
    | notice e => rfl
    | data y t =>
      refine glue_data_other ?_ s t k
      rintro rfl
      exact h ⟨t, k, hl⟩

theorem mem_glue_notice (e : ν) (o : Output χ ν β) (l : List (Output χ ν β)) :
    .notice e ∈ glue o l ↔ .notice e ∈ o :: l := by
  cases o with
  | notice e' => rw [glue_notice]
  | data x s =>
    cases l with
    | nil => rfl
    | cons p l =>
      cases p with
      | notice e' => rfl
      | data y t =>
        simp only [glue]
        split
        · simp
        · rfl

/-- **Notices** are not glued. -/
theorem mem_join_notice (e : ν) (l : List (Output χ ν β)) : .notice e ∈ join l ↔ .notice e ∈ l := by
  induction l with
  | nil => rfl
  | cons o l ih => rw [join_cons, mem_glue_notice, List.mem_cons, List.mem_cons, ih]

/-! ## The outputs behind a glued list -/

theorem join_eq_nil {l : List (Output χ ν β)} (h : join l = []) : l = [] := by
  cases l with
  | nil => rfl
  | cons o l =>
    exfalso
    rw [join_cons] at h
    cases o with
    | notice e => simp at h
    | data x s =>
      cases hl : join l with
      | nil => simp [hl] at h
      | cons p k =>
        rw [hl] at h
        cases p with
        | notice e => simp at h
        | data y t =>
          simp only [glue] at h
          split at h <;> cases h

theorem split_notice {l n : List (Output χ ν β)} {e : ν} (h : join l = .notice e :: n) :
    ∃ l', l = .notice e :: l' ∧ join l' = n := by
  cases l with
  | nil => cases h
  | cons o l =>
    rw [join_cons] at h
    cases o with
    | notice e' =>
      simp only [glue_notice, List.cons.injEq, notice.injEq] at h
      exact ⟨l, by rw [h.1], h.2⟩
    | data x s =>
      exfalso
      cases hl : join l with
      | nil => simp [hl] at h
      | cons p k =>
        rw [hl] at h
        cases p with
        | notice e' => simp at h
        | data y t =>
          simp only [glue] at h
          split at h <;> cases h

/-- A glued fragment was sent as one or more of its channel. -/
theorem split_data {l n : List (Output χ ν β)} {x : χ} {s : List β} (h : join l = .data x s :: n) :
    ∃ parts l', parts ≠ [] ∧ parts.flatten = s ∧ l = parts.map (.data x) ++ l' ∧ join l' = n := by
  induction l generalizing s with
  | nil => cases h
  | cons o l ih =>
    rw [join_cons] at h
    cases o with
    | notice e => simp at h
    | data y t =>
      -- one fragment, unless the next one is of the same channel
      have one : join l = n → y = x → t = s →
          ∃ parts l', parts ≠ [] ∧ parts.flatten = s ∧
            Output.data y t :: l = parts.map (.data x) ++ l' ∧ join l' = n := by
        rintro hl rfl rfl
        exact ⟨[t], l, by simp, by simp, rfl, hl⟩
      cases hl : join l with
      | nil =>
        simp only [hl, glue_nil, List.cons.injEq, data.injEq] at h
        exact one (by rw [hl, h.2]) h.1.1 h.1.2
      | cons p k =>
        rw [hl] at h
        cases p with
        | notice e =>
          simp only [glue_data_notice, List.cons.injEq, data.injEq] at h
          exact one (by rw [hl, h.2]) h.1.1 h.1.2
        | data z u =>
          by_cases hyz : y = z
          · subst hyz
            simp only [glue_data_same, List.cons.injEq, data.injEq] at h
            obtain ⟨⟨rfl, rfl⟩, rfl⟩ := h
            obtain ⟨parts, l', -, hflat, rfl, hl'⟩ := ih hl
            exact ⟨t :: parts, l', by simp, by simp [hflat], rfl, hl'⟩
          · simp only [glue_data_other hyz, List.cons.injEq, data.injEq] at h
            exact one (by rw [hl, h.2]) h.1.1 h.1.2

end Output

end Lib
