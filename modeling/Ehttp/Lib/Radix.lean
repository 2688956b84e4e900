import Mathlib.Data.List.Basic

/-!
# Numbers read into a word

A reader takes one digit after the other, `base * n + d` modulo the size of the
word, but none behind a number above a guard.

* `readNumber_eq`: with room for one digit above the guard nothing wraps; a
  number is read as it is written or refused.
-/

namespace Lib

variable {β : Type} (base word guard : Nat) (digit : β → Nat)

/-- The number with the digits `s` behind those of `n`. -/
def numberFrom (n : Nat) (s : List β) : Nat := s.foldl (fun n b => base * n + digit b) n

def takeDigit (n d : Nat) : Option Nat := if guard < n then none else some ((n * base + d) % word)

def readNumber (n : Nat) (s : List β) : Option Nat :=
  s.foldlM (fun n b => takeDigit base word guard n (digit b)) n

theorem numberFrom_cons (n : Nat) (b : β) (s : List β) :
    numberFrom base digit n (b :: s) = numberFrom base digit (base * n + digit b) s := rfl

theorem readNumber_cons (n : Nat) (b : β) (s : List β) :
    readNumber base word guard digit n (b :: s) =
      (takeDigit base word guard n (digit b)).bind fun n => readNumber base word guard digit n s := rfl

/-- Digits only add. -/
theorem le_numberFrom (hbase : 0 < base) (n : Nat) (s : List β) : n ≤ numberFrom base digit n s := by
  induction s generalizing n with
  | nil => exact Nat.le_refl n
  | cons b s ih =>
    have hone : n ≤ base * n := Nat.le_mul_of_pos_left n hbase
    exact Nat.le_trans (Nat.le_trans hone (Nat.le_add_right _ _)) (ih _)

/-- **No number wraps.** -/
theorem readNumber_eq (hroom : (guard + 1) * base ≤ word) {s : List β} (hne : s ≠ [])
    (hdigit : ∀ b ∈ s, digit b < base) (n : Nat) :
    readNumber base word guard digit n s =
      if numberFrom base digit n s < (guard + 1) * base then some (numberFrom base digit n s)
      else none := by
  induction s generalizing n with
  | nil => exact absurd rfl hne
  | cons b s ih =>
    have hb := hdigit b (List.mem_cons_self ..)
    have hgrow := le_numberFrom base digit (by omega) (base * n + digit b) s
    rw [readNumber_cons, numberFrom_cons, takeDigit]
    by_cases hbig : guard < n
    · have hover : (guard + 1) * base ≤ base * n := by
        rw [Nat.mul_comm base n]
        exact Nat.mul_le_mul_right base hbig
      rw [if_pos hbig, if_neg (by omega)]
      rfl
    · have hfit : base * n + digit b < (guard + 1) * base := by
        have hle : base * n ≤ guard * base := by
          rw [Nat.mul_comm base n]
          exact Nat.mul_le_mul_right base (by omega)
        rw [Nat.add_mul, Nat.one_mul]
        omega
      have hwhole : (n * base + digit b) % word = base * n + digit b := by
        rw [Nat.mul_comm n base]
        exact Nat.mod_eq_of_lt (by omega)
      rw [if_neg hbig, hwhole, Option.bind_some]
      by_cases hnil : s = []
      · subst hnil
        exact (if_pos hfit).symm
      · exact ih hnil (fun b hb => hdigit b (List.mem_cons_of_mem _ hb)) _

end Lib
