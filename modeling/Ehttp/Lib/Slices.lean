import Mathlib.Algebra.Ring.Nat
import Mathlib.Order.Interval.Finset.Nat

/-!
# Disjoint slices of a buffer

A slice is a start and a length.  Slices that are pairwise disjoint have no
more elements together than the buffer has.  `Inside` are lists that follow one
another in a buffer: they are slices of it (`exists_slices`).
-/

namespace Lib

structure Slice where
  start : Nat
  length : Nat
  deriving DecidableEq, Repr

namespace Slice

def indices (s : Slice) : Finset ℕ := Finset.Ico s.start (s.start + s.length)

theorem card_indices (s : Slice) : s.indices.card = s.length := by
  simp [indices]

/-- The elements of a buffer in the slice. -/
def cut {α : Type} (s : Slice) (buf : List α) : List α := (buf.drop s.start).take s.length

theorem length_cut {α : Type} (s : Slice) (buf : List α) (h : s.start + s.length ≤ buf.length) :
    (s.cut buf).length = s.length := by
  rw [cut, List.length_take, List.length_drop]
  omega

/-- The slices lie in a buffer of `n` elements and do not overlap. -/
structure Apart (n : Nat) (slices : List Slice) : Prop where
  within : ∀ s ∈ slices, s.start + s.length ≤ n
  disjoint : slices.Pairwise fun s t => Disjoint s.indices t.indices

/-- All the indices of some slices. -/
def union : List Slice → Finset ℕ
  | [] => ∅
  | s :: slices => s.indices ∪ union slices

theorem mem_union (slices : List Slice) (i : ℕ) :
    i ∈ union slices ↔ ∃ s ∈ slices, i ∈ s.indices := by
  induction slices with
  | nil => simp [union]
  | cons s slices ih => simp [union, ih]

theorem card_union (slices : List Slice)
    (h : slices.Pairwise fun s t => Disjoint s.indices t.indices) :
    (union slices).card = (slices.map length).sum := by
  induction slices with
  | nil => rfl
  | cons s slices ih =>
    obtain ⟨hs, hrest⟩ := List.pairwise_cons.mp h
    have hdisjoint : Disjoint s.indices (union slices) := by
      rw [Finset.disjoint_left]
      intro i hi hmem
      obtain ⟨t, ht, hit⟩ := (mem_union slices i).mp hmem
      exact Finset.disjoint_left.mp (hs t ht) hi hit
    rw [union, Finset.card_union_of_disjoint hdisjoint, card_indices, ih hrest, List.map_cons,
      List.sum_cons]

/-- **Disjoint slices fit into their buffer.** -/
theorem sum_length_le (n : Nat) (slices : List Slice) (h : Apart n slices) :
    (slices.map length).sum ≤ n := by
  have hsub : union slices ⊆ Finset.range n := by
    intro i hi
    obtain ⟨s, hs, his⟩ := (mem_union slices i).mp hi
    obtain ⟨-, hlt⟩ := Finset.mem_Ico.mp his
    have hle := h.within s hs
    exact Finset.mem_range.mpr (by omega)
  have hcard := Finset.card_le_card hsub
  rwa [card_union slices h.disjoint, Finset.card_range] at hcard

/-- What disjoint slices of a buffer hold, together. -/
theorem length_flatten_cut {α : Type} (buf : List α) (slices : List Slice)
    (h : Apart buf.length slices) : ((slices.map fun s => s.cut buf).flatten).length ≤ buf.length := by
  have hlengths : (slices.map fun s => s.cut buf).map List.length = slices.map length := by
    rw [List.map_map]
    exact List.map_congr_left fun s hs => s.length_cut buf (h.within s hs)
  rw [List.length_flatten, hlengths]
  exact sum_length_le buf.length slices h

/-! ## Lists cut out of a buffer -/

/-- The lists follow one another in the buffer, with gaps. -/
inductive Inside {α : Type} : List (List α) → List α → Prop
  | nil (buf : List α) : Inside [] buf
  | skip {l : List (List α)} {buf : List α} (b : α) : Inside l buf → Inside l (b :: buf)
  | take {l : List (List α)} {buf : List α} (s : List α) : Inside l buf → Inside (s :: l) (s ++ buf)

theorem Inside.skips {α : Type} {l : List (List α)} {buf : List α} (h : Inside l buf) (u : List α) :
    Inside l (u ++ buf) := by
  induction u with
  | nil => exact h
  | cons b u ih => exact ih.skip b

theorem Inside.append {α : Type} {l : List (List α)} {buf : List α} (h : Inside l buf)
    (rest : List α) : Inside l (buf ++ rest) := by
  induction h with
  | nil buf => exact .nil _
  | skip b _ ih => exact ih.skip b
  | take s _ ih =>
    rw [List.append_assoc]
    exact ih.take s

def shift (n : Nat) (s : Slice) : Slice := ⟨n + s.start, s.length⟩

theorem cut_shift {α : Type} (u buf : List α) (s : Slice) :
    (s.shift u.length).cut (u ++ buf) = s.cut buf := by
  simp [cut, shift, List.drop_append, List.drop_eq_nil_of_le]

theorem mem_indices_shift (n i : ℕ) (s : Slice) :
    i ∈ (s.shift n).indices ↔ n ≤ i ∧ i - n ∈ s.indices := by
  simp only [indices, shift, Finset.mem_Ico]
  omega

theorem disjoint_shift {s t : Slice} (h : Disjoint s.indices t.indices) (n : ℕ) :
    Disjoint (s.shift n).indices (t.shift n).indices := by
  rw [Finset.disjoint_left] at h ⊢
  intro i hs ht
  rw [mem_indices_shift] at hs ht
  exact h hs.2 ht.2

/-- Slices of a buffer, behind more of it. -/
theorem Apart.shift {k : ℕ} {slices : List Slice} (h : Apart k slices) (n : ℕ) :
    Apart (n + k) (slices.map (Slice.shift n)) where
  within := by
    intro s hs
    obtain ⟨t, ht, rfl⟩ := List.mem_map.mp hs
    have := h.within t ht
    simp only [Slice.shift]
    omega
  disjoint := List.pairwise_map.mpr (h.disjoint.imp fun hst => disjoint_shift hst n)

/-- **Lists inside a buffer are disjoint slices of it.** -/
theorem exists_slices {α : Type} {l : List (List α)} {buf : List α} (h : Inside l buf) :
    ∃ slices, Apart buf.length slices ∧ l = slices.map fun s => s.cut buf := by
  induction h with
  | nil buf => exact ⟨[], ⟨fun s hs => (by cases hs), List.Pairwise.nil⟩, rfl⟩
  | @skip l buf b _ ih =>
    obtain ⟨slices, hapart, rfl⟩ := ih
    refine ⟨slices.map (Slice.shift 1), ?_, ?_⟩
    · rw [List.length_cons, Nat.add_comm]
      exact hapart.shift 1
    · rw [List.map_map]
      exact List.map_congr_left fun s _ => (cut_shift [b] buf s).symm
  | @take l buf s _ ih =>
    obtain ⟨slices, hapart, rfl⟩ := ih
    have hrest := hapart.shift s.length
    refine ⟨⟨0, s.length⟩ :: slices.map (Slice.shift s.length), ⟨?_, ?_⟩, ?_⟩
    · intro t ht
      rw [List.length_append]
      cases ht with
      | head => simp
      | tail _ ht => exact hrest.within t ht
    · refine List.pairwise_cons.mpr ⟨?_, hrest.disjoint⟩
      intro t ht
      obtain ⟨t', -, rfl⟩ := List.mem_map.mp ht
      rw [Finset.disjoint_left]
      intro i hs ht
      rw [mem_indices_shift] at ht
      simp only [indices, Finset.mem_Ico] at hs
      omega
    · rw [List.map_cons, List.map_map]
      refine congrArg₂ List.cons (by simp [cut]) ?_
      exact List.map_congr_left fun t _ => (cut_shift s buf t).symm

end Slice

end Lib
