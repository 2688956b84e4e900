import Ehttp.Lib.HttpResponse

/-!
# `printf` with `%0nd`

* `padded_injective`: numbers print differently;
* `length_padded_two`: `%02d` of a number below 100 is two bytes;
* `datedName_injective`: names that end in `.%04d-%02d-%02d` tell the date.
-/

namespace Lib

/-- `%0nd` for `n = width`: the sign counts. -/
def padded (width : Nat) (n : Int) : Bytes :=
  if n < 0 then 45 :: List.leftpad (width - 1) 48 (digits n.natAbs)
  else List.leftpad width 48 (digits n.natAbs)

/-- Leading zeros do not count. -/
theorem digitsValue_leftpad (width : Nat) (ds : Bytes) :
    digitsValue (List.leftpad width 48 ds) = digitsValue ds := by
  have hzeros : ∀ k : Nat,
      (List.replicate k (48 : UInt8)).foldl (fun n c => 10 * n + (c.toNat - 48)) 0 = 0 := by
    intro k
    induction k with
    | zero => rfl
    | succ k ih => exact ih
  rw [digitsValue, List.leftpad, List.foldl_append, hzeros, digitsValue]

/-- The number read back. -/
def readPadded : Bytes → Int
  | [] => 0
  | c :: s => if c = 45 then -(digitsValue s : Int) else digitsValue (c :: s)

theorem readPadded_padded (width : Nat) (n : Int) : readPadded (padded width n) = n := by
  rcases Int.lt_or_le n 0 with hneg | hpos
  · rw [padded, if_pos hneg, readPadded, if_pos rfl, digitsValue_leftpad, digitsValue_digits]
    omega
  · have hminus : (45 : UInt8) ∉ List.leftpad width 48 (digits n.natAbs) := by
      rw [List.leftpad, List.mem_append, not_or]
      refine ⟨?_, notMem_digits _ 45 (by decide)⟩
      intro hmem
      exact absurd (List.eq_of_mem_replicate hmem) (by decide)
    have hvalue := digitsValue_leftpad width (digits n.natAbs)
    rw [padded, if_neg (by omega)]
    cases hs : List.leftpad width 48 (digits n.natAbs) with
    | nil =>
      have hlen := congrArg List.length hs
      rw [List.length_leftpad, List.length_nil] at hlen
      exact absurd (List.eq_nil_of_length_eq_zero (by omega)) (digits_ne_nil n.natAbs)
    | cons c s =>
      rw [hs] at hminus hvalue
      have hc : c ≠ 45 := fun h => hminus (h ▸ List.mem_cons_self)
      rw [readPadded, if_neg hc, hvalue, digitsValue_digits]
      omega

theorem padded_injective (width : Nat) (m n : Int) (h : padded width m = padded width n) : m = n := by
  rw [← readPadded_padded width m, h, readPadded_padded]

theorem length_padded_two (n : Int) (h0 : 0 ≤ n) (h : n < 100) : (padded 2 n).length = 2 := by
  have hsmall : ∀ k < 100, (digits k).length ≤ 2 := by decide +kernel
  have hlen := hsmall n.natAbs (by omega)
  rw [padded, if_neg (by omega), List.length_leftpad]
  omega

/-- `%s.%04d-%02d-%02d`. -/
def datedName (base : Bytes) (year month day : Int) : Bytes :=
  base ++ bytes "." ++ padded 4 year ++ (bytes "-" ++ padded 2 month ++ (bytes "-" ++ padded 2 day))

theorem length_datedName (base : Bytes) (year month day : Int) :
    base.length < (datedName base year month day).length := by
  simp only [datedName, List.length_append]
  have hdot : (bytes ".").length = 1 := rfl
  omega

/-- **Names with different dates differ.** -/
theorem datedName_injective (base : Bytes) (y m d y' m' d' : Int) (hm : 0 ≤ m ∧ m < 100)
    (hd : 0 ≤ d ∧ d < 100) (hm' : 0 ≤ m' ∧ m' < 100) (hd' : 0 ≤ d' ∧ d' < 100)
    (h : datedName base y m d = datedName base y' m' d') : y = y' ∧ m = m' ∧ d = d' := by
  have hml := length_padded_two m hm.1 hm.2
  have hdl := length_padded_two d hd.1 hd.2
  have hml' := length_padded_two m' hm'.1 hm'.2
  have hdl' := length_padded_two d' hd'.1 hd'.2
  obtain ⟨hyear, hrest⟩ := List.append_inj' h (by simp only [List.length_append, hml, hdl, hml', hdl'])
  obtain ⟨hmonth, hday⟩ := List.append_inj' hrest (by simp only [List.length_append, hdl, hdl'])
  exact ⟨padded_injective 4 y y' (List.append_cancel_left hyear),
    padded_injective 2 m m' (List.append_cancel_left hmonth),
    padded_injective 2 d d' (List.append_cancel_left hday)⟩

example : datedName (bytes "log") 2024 3 0 = bytes "log.2024-03-00" := by decide +kernel

end Lib
