import Mathlib.Algebra.Ring.Nat

/-!
# Bytes and the C string functions

`std::string` is a list of bytes.  `bytes` writes a literal; the characters of
a literal are ASCII.
-/

namespace Lib

abbrev Bytes := List UInt8

def bytes (s : String) : Bytes := s.toList.map (fun c => c.val.toUInt8)

def CR : UInt8 := 13
def LF : UInt8 := 10

/-- `::tolower` in the C locale. -/
def tolower (c : UInt8) : UInt8 := if 65 ≤ c ∧ c ≤ 90 then c + 32 else c

/-- What a `const char *` user sees of `s.c_str()`: up to the first NUL. -/
def cStr (s : Bytes) : Bytes := s.takeWhile (· ≠ 0)

/-- `strcasecmp(s.c_str(), t) == 0`. -/
def strcaseeq (s t : Bytes) : Bool := (cStr s).map tolower = (cStr t).map tolower

/-- `std::string::operator<`: bytewise, as unsigned values. -/
def bytesLt : Bytes → Bytes → Bool
  | [], [] => false
  | [], _ :: _ => true
  | _ :: _, [] => false
  | a :: s, b :: t => a < b || (a == b && bytesLt s t)

theorem bytesLt_trans (s t u : Bytes) (h : bytesLt s t = true) (h' : bytesLt t u = true) :
    bytesLt s u = true := by
  induction s generalizing t u with
  | nil =>
    cases u with
    | nil => cases t <;> simp [bytesLt] at h h'
    | cons c u => rfl
  | cons a s ih =>
    cases t with
    | nil => simp [bytesLt] at h
    | cons b t =>
      cases u with
      | nil => simp [bytesLt] at h'
      | cons c u =>
        simp only [bytesLt, Bool.or_eq_true, decide_eq_true_eq, Bool.and_eq_true, beq_iff_eq,
          UInt8.lt_iff_toNat_lt] at h h' ⊢
        rcases h with h | ⟨rfl, h⟩
        · rcases h' with h' | ⟨rfl, -⟩
          · exact Or.inl (by omega)
          · exact Or.inl h
        · rcases h' with h' | ⟨rfl, h'⟩
          · exact Or.inl h'
          · exact Or.inr ⟨rfl, ih t u h h'⟩

theorem bytesLt_total (s t : Bytes) (hne : s ≠ t) : bytesLt s t = true ∨ bytesLt t s = true := by
  induction s generalizing t with
  | nil =>
    cases t with
    | nil => exact absurd rfl hne
    | cons b t => exact Or.inl rfl
  | cons a s ih =>
    cases t with
    | nil => exact Or.inr rfl
    | cons b t =>
      simp only [bytesLt, Bool.or_eq_true, decide_eq_true_eq, Bool.and_eq_true, beq_iff_eq,
        UInt8.lt_iff_toNat_lt]
      by_cases hab : a = b
      · subst hab
        have htail : s ≠ t := fun h => hne (by rw [h])
        rcases ih t htail with h | h
        · exact Or.inl (Or.inr ⟨rfl, h⟩)
        · exact Or.inr (Or.inr ⟨rfl, h⟩)
      · have hnat : a.toNat ≠ b.toNat := fun h => hab (UInt8.toNat_inj.mp h)
        omega

/-- `os << n` for an integer `n`. -/
def decimal (n : Int) : Bytes :=
  (if n < 0 then [45] else []) ++ (Nat.toDigits 10 n.natAbs).map (fun c => c.val.toUInt8)

/-- `s.substr(pos, n)`; `none` is the exception `std::out_of_range`. -/
def substr (s : Bytes) (pos n : Nat) : Option Bytes :=
  if pos ≤ s.length then some ((s.drop pos).take n) else none

/-- `n - m` for a 64-bit `size_t`. -/
def sizeSub (n m : Nat) : Nat := (n + 2 ^ 64 - m) % 2 ^ 64

/-- `hay.find(pat) != std::string::npos`. -/
def contains (pat : Bytes) : Bytes → Bool
  | [] => pat.isEmpty
  | c :: hay => pat.isPrefixOf (c :: hay) || contains pat hay

theorem contains_iff (pat hay : Bytes) : contains pat hay = true ↔ pat <:+: hay := by
  induction hay with
  | nil => simp [contains]
  | cons c hay ih =>
    simp only [contains, Bool.or_eq_true, ih, List.isPrefixOf_iff_prefix, List.infix_cons_iff]

end Lib
