import Mathlib.Order.Monotone.Basic
import Mathlib.Algebra.Ring.Int.Defs

/-!
# The Gregorian calendar

A day is its number counted from 1970-01-01, in both directions.

* `dateOf_succ`: the date of the next day is the next date;
* `dateOf_injective`: no two days have the same date;
* `dateOf_pred`: within a month the date before has the day number before.
-/

namespace Lib

def isLeap (year : Int) : Bool := year % 4 = 0 ∧ (year % 100 ≠ 0 ∨ year % 400 = 0)

def daysIn (year : Int) (month : Nat) : Nat :=
  if month = 2 then (if isLeap year then 29 else 28)
  else if month ∈ [4, 6, 9, 11] then 30 else 31

theorem daysIn_bounds (year : Int) (month : Nat) : 1 ≤ daysIn year month ∧ daysIn year month ≤ 31 := by
  unfold daysIn
  split
  · split <;> decide
  · split <;> decide

@[ext]
structure Date where
  year : Int
  month : Nat
  day : Nat
  month_pos : 1 ≤ month
  month_le : month ≤ 12
  day_pos : 1 ≤ day
  day_le : day ≤ daysIn year month
  deriving DecidableEq, Repr

namespace Date

def epoch : Date := ⟨1970, 1, 1, by decide, by decide, by decide, by decide⟩

def next (d : Date) : Date :=
  if hday : d.day < daysIn d.year d.month then
    { d with day := d.day + 1, day_pos := Nat.succ_pos _, day_le := hday }
  else if hmonth : d.month < 12 then
    { year := d.year, month := d.month + 1, day := 1
      month_pos := Nat.succ_pos _, month_le := hmonth
      day_pos := Nat.le_refl 1, day_le := (daysIn_bounds _ _).1 }
  else
    { year := d.year + 1, month := 1, day := 1
      month_pos := Nat.le_refl 1, month_le := by decide
      day_pos := Nat.le_refl 1, day_le := (daysIn_bounds _ _).1 }

def prev (d : Date) : Date :=
  if hday : 1 < d.day then
    { d with day := d.day - 1, day_pos := Nat.le_sub_one_of_lt hday
             day_le := Nat.le_trans (Nat.sub_le _ _) d.day_le }
  else if hmonth : 1 < d.month then
    { year := d.year, month := d.month - 1, day := daysIn d.year (d.month - 1)
      month_pos := Nat.le_sub_one_of_lt hmonth, month_le := Nat.le_trans (Nat.sub_le _ _) d.month_le
      day_pos := (daysIn_bounds _ _).1, day_le := Nat.le_refl _ }
  else
    { year := d.year - 1, month := 12, day := 31
      month_pos := by decide, month_le := Nat.le_refl 12
      day_pos := by decide, day_le := by simp [daysIn] }

/-- The day after the day before. -/
theorem next_prev (d : Date) : d.prev.next = d := by
  have hm := d.month_pos
  have hd := d.day_pos
  have hle := d.day_le
  unfold prev
  split
  · rename_i hday
    have hin : d.day - 1 < daysIn d.year d.month := by omega
    ext
    · simp [next, hin]
    · simp [next, hin]
    · simp only [next, hin, ↓reduceDIte]
      omega
  · split
    · rename_i hday hmonth
      have hle := d.month_le
      have h12 : d.month - 1 < 12 := by omega
      ext
      · simp [next, h12]
      · simp only [next, Nat.lt_irrefl, h12, ↓reduceDIte]
        omega
      · simp only [next, Nat.lt_irrefl, h12, ↓reduceDIte]
        omega
    · have hdec : daysIn (d.year - 1) 12 = 31 := by simp [daysIn]
      ext
      · simp [next, hdec]
      · simp only [next, hdec, Nat.lt_irrefl, ↓reduceDIte]
        omega
      · simp only [next, hdec, Nat.lt_irrefl, ↓reduceDIte]
        omega

/-- A number that grows with the date. -/
def key (d : Date) : Int := d.year * 372 + d.month * 31 + d.day

theorem key_next (d : Date) : d.key < d.next.key := by
  have hbounds := daysIn_bounds d.year d.month
  have hm := d.month_le
  have hd := d.day_le
  unfold next key
  split
  · simp only
    omega
  · split
    · simp only
      omega
    · simp only
      omega

end Date

/-- The date of a day. -/
def dateOf : Int → Date
  | .ofNat n => Date.next^[n] Date.epoch
  | .negSucc n => Date.prev^[n + 1] Date.epoch

theorem dateOf_succ (day : Int) : dateOf (day + 1) = (dateOf day).next := by
  cases day with
  | ofNat n => exact Function.iterate_succ_apply' Date.next n Date.epoch
  | negSucc n =>
    have hprev : dateOf (.negSucc n) = (dateOf (.negSucc n + 1)).prev := by
      cases n with
      | zero => rfl
      | succ n => exact Function.iterate_succ_apply' Date.prev (n + 1) Date.epoch
    rw [hprev, Date.next_prev]

theorem dateOf_injective : Function.Injective dateOf := by
  have hmono : StrictMono fun day => (dateOf day).key := by
    refine strictMono_int_of_lt_succ fun day => ?_
    rw [dateOf_succ]
    exact Date.key_next _
  intro a b h
  exact hmono.injective (congrArg Date.key h)

/-- **The day before, by the day number.**  It works within a month. -/
theorem dateOf_pred (day : Int) (h : (dateOf day).day ≠ 1) :
    (dateOf (day - 1)).year = (dateOf day).year ∧ (dateOf (day - 1)).month = (dateOf day).month ∧
      (dateOf (day - 1)).day = (dateOf day).day - 1 := by
  have hnext : dateOf day = (dateOf (day - 1)).next := by
    rw [← dateOf_succ, Int.sub_add_cancel]
  rw [hnext] at h ⊢
  unfold Date.next at h ⊢
  split
  · exact ⟨rfl, rfl, rfl⟩
  · rename_i hday
    simp only [hday, ↓reduceDIte] at h
    split at h <;> exact absurd rfl h

/-- The last day of February 1972, and the day after. -/
example : (dateOf 789).day = 29 ∧ (dateOf 790).month = 3 := by decide +kernel

end Lib
