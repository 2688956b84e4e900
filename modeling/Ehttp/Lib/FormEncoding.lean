import Ehttp.Lib.CString

/-!
# Form encoding

`Encodes`: the encodings of a byte string, in which a space is `+` or `%20` and
hex digits are of either case.  `Decodes`: what a lenient decoder makes of any
byte string, where a `%` without two hex digits stands for itself.

* `Encodes.decodes`, `Decodes.unique`: decoding is the inverse of encoding;
* `Encodes.safe`: no delimiter in an encoding.
-/

namespace Lib

def isHex (c : UInt8) : Bool := (97 ≤ c && c ≤ 102) || (65 ≤ c && c ≤ 70) || (48 ≤ c && c ≤ 57)

def hexVal (c : UInt8) : UInt8 := if c ≤ 57 then c - 48 else if c ≤ 70 then c - 55 else c - 87

/-- The byte that two hex digits stand for. -/
def hexByte (h l : UInt8) : UInt8 := 16 * hexVal h + hexVal l

/-- Letters, digits, and `-`, `.`, `_`, `~`. -/
def isUnreserved (c : UInt8) : Bool :=
  (97 ≤ c && c ≤ 122) || (65 ≤ c && c ≤ 90) || (48 ≤ c && c ≤ 57) ||
    c = 45 || c = 46 || c = 95 || c = 126

inductive Encodes : Bytes → Bytes → Prop
  | nil : Encodes [] []
  | plus {v e : Bytes} : Encodes v e → Encodes (32 :: v) (43 :: e)
  | literal {v e : Bytes} (c : UInt8) : isUnreserved c = true → Encodes v e →
      Encodes (c :: v) (c :: e)
  | percent {v e : Bytes} (c h l : UInt8) : isUnreserved c = false → isHex h = true →
      isHex l = true → hexByte h l = c → Encodes v e → Encodes (c :: v) (37 :: h :: l :: e)

def startsHex : Bytes → Bool
  | h :: l :: _ => isHex h && isHex l
  | _ => false

inductive Decodes : Bytes → Bytes → Prop
  | nil : Decodes [] []
  | plus {e v : Bytes} : Decodes e v → Decodes (43 :: e) (32 :: v)
  | escape {e v : Bytes} (h l : UInt8) : isHex h = true → isHex l = true → Decodes e v →
      Decodes (37 :: h :: l :: e) (hexByte h l :: v)
  | percent {e v : Bytes} : startsHex e = false → Decodes e v → Decodes (37 :: e) (37 :: v)
  | other {e v : Bytes} (c : UInt8) : c ≠ 37 → c ≠ 43 → Decodes e v → Decodes (c :: e) (c :: v)

theorem ne_of_unreserved {c d : UInt8} (hc : isUnreserved c = true) (hd : isUnreserved d = false) :
    c ≠ d := by
  rintro rfl
  rw [hc] at hd
  cases hd

theorem Encodes.decodes {v e : Bytes} (h : Encodes v e) : Decodes e v := by
  induction h with
  | nil => exact .nil
  | plus _ ih => exact .plus ih
  | literal c hc _ ih =>
    exact .other c (ne_of_unreserved hc (by decide)) (ne_of_unreserved hc (by decide)) ih
  | percent c h l _ hh hl hb _ ih =>
    subst hb
    exact .escape h l hh hl ih

theorem Decodes.unique {e v w : Bytes} (h : Decodes e v) (h' : Decodes e w) : v = w := by
  induction h generalizing w with
  | nil =>
    cases h'
    rfl
  | plus _ ih =>
    cases h' with
    | plus h' => rw [ih h']
    | other c _ hc h' => exact absurd rfl hc
  | escape a b ha hb _ ih =>
    cases h' with
    | escape _ _ _ _ h' => rw [ih h']
    | percent hs _ => simp [startsHex, ha, hb] at hs
    | other c hc _ _ => exact absurd rfl hc
  | percent hs _ ih =>
    cases h' with
    | escape a b ha hb _ => simp [startsHex, ha, hb] at hs
    | percent _ h' => rw [ih h']
    | other c hc _ _ => exact absurd rfl hc
  | other c hc hp _ ih =>
    cases h' with
    | plus _ => exact absurd rfl hp
    | escape _ _ _ _ _ => exact absurd rfl hc
    | percent _ _ => exact absurd rfl hc
    | other _ _ _ h' => rw [ih h']

theorem isUnreserved_of_isHex (c : UInt8) (h : isHex c = true) : isUnreserved c = true := by
  simp only [isHex, Bool.or_eq_true, Bool.and_eq_true, decide_eq_true_eq] at h
  simp only [isUnreserved, Bool.or_eq_true, Bool.and_eq_true, decide_eq_true_eq]
  rcases h with (⟨h1, h2⟩ | ⟨h1, h2⟩) | ⟨h1, h2⟩
  · have : c ≤ 122 := UInt8.le_trans h2 (by decide)
    simp [h1, this]
  · have : c ≤ 90 := UInt8.le_trans h2 (by decide)
    simp [h1, this]
  · simp [h1, h2]

/-- An encoding is made of unreserved characters, `+` and `%`. -/
theorem Encodes.safe {v e : Bytes} (h : Encodes v e) (d : UInt8) (hd : isUnreserved d = false)
    (hplus : d ≠ 43) (hpercent : d ≠ 37) : d ∉ e := by
  induction h with
  | nil => exact List.not_mem_nil
  | plus _ ih => simp [hplus, ih]
  | literal c hc _ ih => simp [(ne_of_unreserved hc hd).symm, ih]
  | percent c h l _ hh hl _ _ ih =>
    have hne := fun x hx => (ne_of_unreserved (isUnreserved_of_isHex x hx) hd).symm
    simp [hpercent, hne h hh, hne l hl, ih]

end Lib
