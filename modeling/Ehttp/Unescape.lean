import Ehttp.Lib.FormEncoding
import Ehttp.Request

/-!
# `unescape` and `get_unescape_param` of `sim_parser.cpp`

The index is an `unsigned` of 32 bits, compared with the `size_t` of the string;
`charAt` is `param[i]`, which at the length is the terminating NUL.

* `unescapeLoop_not_overRead`: no read behind the NUL, in any string;
* `unescape_returns`: strings shorter than `2^32` are decoded;
* `unescapeLoop_endless`: on longer ones the index wraps and the loop does not end.
-/

namespace Ehttp

open Lib

/-- `none` is a read behind the terminating NUL. -/
def charAt (param : Bytes) (i : Nat) : Option UInt8 :=
  if i = param.length then some 0 else param[i]?

/-- `ishex(param[i+1]) && ishex(param[i+2])`, and the byte of the two digits. -/
def hexPair (param : Bytes) (i : Nat) : Option (Option UInt8) :=
  match charAt param ((i + 1) % 2 ^ 32) with
  | none => none
  | some h =>
    if isHex h then
      match charAt param ((i + 2) % 2 ^ 32) with
      | none => none
      | some l => some (if isHex l then some (hexByte h l) else none)
    else some none

structure UnescapeState where
  i : Nat := 0
  unescapeParam : Bytes := []
  deriving DecidableEq, Repr

/-- One round of the loop, with `i++`; `none` is a read behind the NUL. -/
def unescapeRound (param : Bytes) (s : UnescapeState) : Option UnescapeState :=
  match charAt param s.i with
  | none => none
  | some c =>
    match if c = 37 then hexPair param s.i else some none with
    | none => none
    | some (some b) => some ⟨(s.i + 3) % 2 ^ 32, s.unescapeParam ++ [b]⟩
    | some none => some ⟨(s.i + 1) % 2 ^ 32, s.unescapeParam ++ [if c = 43 then 32 else c]⟩

/-- Where the loop is after some rounds. -/
inductive UnescapeRet
  | running (s : UnescapeState)
  | overRead
  | returned (unescapeParam : Bytes)
  deriving DecidableEq, Repr

def unescapeLoop (param : Bytes) : Nat → UnescapeState → UnescapeRet
  | 0, s => .running s
  | fuel + 1, s =>
    if s.i < param.length then
      match unescapeRound param s with
      | none => .overRead
      | some s => unescapeLoop param fuel s
    else .returned s.unescapeParam

/-- At most `fuel` rounds of `unescape`. -/
def unescape (fuel : Nat) (param unescapeParam : Bytes) : UnescapeRet :=
  unescapeLoop param fuel ⟨0, unescapeParam⟩

/-- A request is smaller than `2^32` bytes, so the rounds are enough. -/
def Request.getUnescapeParam (r : Request) (name : Bytes) : UnescapeRet :=
  let param := r.getParam name
  if param.isEmpty then .returned param else unescape (param.length + 1) param []

/-! ## Reads -/

theorem charAt_of_le (param : Bytes) (i : Nat) (h : i ≤ param.length) :
    ∃ c, charAt param i = some c ∧ (isHex c = true → i < param.length) := by
  cases Nat.lt_or_ge i param.length with
  | inl hlt =>
    refine ⟨param[i], ?_, fun _ => hlt⟩
    rw [charAt, if_neg (Nat.ne_of_lt hlt), List.getElem?_eq_getElem hlt]
  | inr hge =>
    refine ⟨0, ?_, fun h0 => absurd h0 (by decide)⟩
    rw [charAt, if_pos (Nat.le_antisymm h hge)]

/-- The second digit is looked at only behind a first one, which is not the NUL. -/
theorem hexPair_isSome (param : Bytes) (i : Nat) (h : i < param.length) :
    (hexPair param i).isSome := by
  have hle : (i + 1) % 2 ^ 32 ≤ param.length := Nat.le_trans (Nat.mod_le _ _) h
  obtain ⟨c, hc, hlt⟩ := charAt_of_le param _ hle
  rw [hexPair, hc]
  cases hhex : isHex c with
  | false => simp only [hhex, Bool.false_eq_true, if_false, Option.isSome_some]
  | true =>
    have hwrap : (i + 2) % 2 ^ 32 = ((i + 1) % 2 ^ 32 + 1) % 2 ^ 32 := by omega
    have hle2 : (i + 2) % 2 ^ 32 ≤ param.length := by
      rw [hwrap]
      exact Nat.le_trans (Nat.mod_le _ _) (hlt hhex)
    obtain ⟨l, hl, -⟩ := charAt_of_le param _ hle2
    simp only [hhex, hl, if_true, Option.isSome_some]

theorem unescapeRound_isSome (param : Bytes) (s : UnescapeState) (h : s.i < param.length) :
    (unescapeRound param s).isSome := by
  obtain ⟨c, hc, -⟩ := charAt_of_le param s.i (Nat.le_of_lt h)
  rw [unescapeRound, hc]
  simp only
  split
  · rename_i hpair
    split at hpair
    · have hsome := hexPair_isSome param s.i h
      rw [hpair] at hsome
      cases hsome
    · cases hpair
  · rfl
  · rfl

theorem unescapeLoop_not_overRead (param : Bytes) (fuel : Nat) (s : UnescapeState) :
    unescapeLoop param fuel s ≠ .overRead := by
  induction fuel generalizing s with
  | zero => exact UnescapeRet.noConfusion
  | succ fuel ih =>
    rw [unescapeLoop]
    split
    · rename_i h
      obtain ⟨s', hs'⟩ := Option.isSome_iff_exists.mp (unescapeRound_isSome param s h)
      rw [hs']
      exact ih s'
    · exact UnescapeRet.noConfusion

/-! ## The result -/

/-- What one round takes from the rest of the string, and what it appends. -/
inductive Takes : Bytes → Bytes → UInt8 → Prop
  | plus (e : Bytes) : Takes (43 :: e) e 32
  | escape (h l : UInt8) (e : Bytes) : isHex h = true → isHex l = true →
      Takes (37 :: h :: l :: e) e (hexByte h l)
  | percent (e : Bytes) : startsHex e = false → Takes (37 :: e) e 37
  | other (c : UInt8) (e : Bytes) : c ≠ 37 → c ≠ 43 → Takes (c :: e) e c

theorem Takes.decodes {e e' v : Bytes} {b : UInt8} (h : Takes e e' b) (h' : Decodes e' v) :
    Decodes e (b :: v) := by
  cases h with
  | plus => exact .plus h'
  | escape a l _ ha hl => exact .escape a l ha hl h'
  | percent _ hs => exact .percent hs h'
  | other _ _ hc hp => exact .other b hc hp h'

theorem charAt_drop (param : Bytes) (i : Nat) (c : UInt8) (e : Bytes) (h : param.drop i = c :: e) :
    charAt param i = some c ∧ i < param.length ∧ param.drop (i + 1) = e := by
  have hlt : i < param.length := by
    apply Classical.byContradiction
    intro hge
    rw [List.drop_eq_nil_of_le (Nat.le_of_not_lt hge)] at h
    cases h
  have hget : param[i]? = some c := by
    have h0 : (param.drop i)[0]? = some c := by rw [h]; rfl
    rwa [List.getElem?_drop, Nat.add_zero] at h0
  refine ⟨?_, hlt, ?_⟩
  · rw [charAt, if_neg (by omega), hget]
  · rw [← List.tail_drop, h]
    rfl

theorem charAt_end (param : Bytes) (i : Nat) (hi : i ≤ param.length) (h : param.drop i = []) :
    charAt param i = some 0 := by
  have hge : param.length ≤ i := List.drop_eq_nil_iff.mp h
  rw [charAt, if_pos (Nat.le_antisymm hi hge)]

/-- The pair of digits is that of the rest of the string. -/
theorem hexPair_eq (param : Bytes) (i : Nat) (e : Bytes) (hshort : param.length < 2 ^ 32)
    (h : param.drop i = 37 :: e) :
    (∃ a l e', e = a :: l :: e' ∧ isHex a = true ∧ isHex l = true ∧
      hexPair param i = some (some (hexByte a l))) ∨
      (startsHex e = false ∧ hexPair param i = some none) := by
  obtain ⟨-, hi, he⟩ := charAt_drop param i 37 e h
  have hwrap1 : (i + 1) % 2 ^ 32 = i + 1 := Nat.mod_eq_of_lt (by omega)
  have hzero : isHex 0 = false := by decide
  cases e with
  | nil =>
    refine Or.inr ⟨rfl, ?_⟩
    rw [hexPair, hwrap1, charAt_end param (i + 1) hi he]
    simp only [hzero, Bool.false_eq_true, if_false]
  | cons a e =>
    obtain ⟨ha, hi1, he1⟩ := charAt_drop param (i + 1) a e he
    cases hhex : isHex a with
    | false =>
      refine Or.inr ⟨?_, ?_⟩
      · cases e <;> simp [startsHex, hhex]
      · rw [hexPair, hwrap1, ha]
        simp only [hhex, Bool.false_eq_true, if_false]
    | true =>
      have hwrap2 : (i + 2) % 2 ^ 32 = i + 1 + 1 := Nat.mod_eq_of_lt (by omega)
      cases e with
      | nil =>
        refine Or.inr ⟨rfl, ?_⟩
        rw [hexPair, hwrap1, ha, hwrap2, charAt_end param (i + 1 + 1) hi1 he1]
        simp only [hhex, hzero, Bool.false_eq_true, if_true, if_false]
      | cons l e =>
        obtain ⟨hl, -, -⟩ := charAt_drop param (i + 1 + 1) l e he1
        have hpair : hexPair param i = some (if isHex l then some (hexByte a l) else none) := by
          rw [hexPair, hwrap1, ha, hwrap2, hl]
          simp only [hhex, if_true]
        cases hhex2 : isHex l with
        | false =>
          refine Or.inr ⟨by simp [startsHex, hhex2], ?_⟩
          rw [hpair, hhex2]
          rfl
        | true =>
          refine Or.inl ⟨a, l, e, rfl, hhex, hhex2, ?_⟩
          rw [hpair, hhex2]
          rfl

/-- **A round** takes one character or one escape from the rest of the string. -/
theorem unescapeRound_takes (param : Bytes) (s : UnescapeState) (hshort : param.length < 2 ^ 32)
    (hi : s.i < param.length) :
    ∃ i b, unescapeRound param s = some ⟨i, s.unescapeParam ++ [b]⟩ ∧
      Takes (param.drop s.i) (param.drop i) b ∧ s.i < i ∧ i ≤ param.length := by
  cases hdrop : param.drop s.i with
  | nil => exact absurd (List.drop_eq_nil_iff.mp hdrop) (by omega)
  | cons c e =>
    obtain ⟨hc, -, he⟩ := charAt_drop param s.i c e hdrop
    have hnext : (s.i + 1) % 2 ^ 32 = s.i + 1 := Nat.mod_eq_of_lt (by omega)
    by_cases hpercent : c = 37
    · subst hpercent
      rcases hexPair_eq param s.i e hshort hdrop with ⟨a, l, e', rfl, ha, hl, hpair⟩ | ⟨hs, hpair⟩
      · obtain ⟨-, hi1, he1⟩ := charAt_drop param (s.i + 1) a _ he
        obtain ⟨-, hi2, he2⟩ := charAt_drop param (s.i + 1 + 1) l _ he1
        refine ⟨s.i + 3, hexByte a l, ?_, ?_, by omega, by omega⟩
        · rw [unescapeRound, hc]
          simp only [if_true, hpair]
          rw [Nat.mod_eq_of_lt (by omega)]
        · rw [he2]
          exact .escape a l e' ha hl
      · refine ⟨s.i + 1, 37, ?_, ?_, by omega, by omega⟩
        · rw [unescapeRound, hc]
          simp only [if_true, hpair]
          rw [hnext]
          rfl
        · rw [he]
          exact .percent e hs
    · refine ⟨s.i + 1, if c = 43 then 32 else c, ?_, ?_, by omega, by omega⟩
      · rw [unescapeRound, hc]
        simp only [hpercent, if_false]
        rw [hnext]
      · rw [he]
        by_cases hplus : c = 43
        · rw [hplus]
          exact .plus e
        · rw [if_neg hplus]
          exact .other c e hpercent hplus

theorem unescapeLoop_decodes (param : Bytes) (hshort : param.length < 2 ^ 32) (fuel : Nat)
    (s : UnescapeState) (hi : s.i ≤ param.length) (hfuel : param.length - s.i < fuel) :
    ∃ v, Decodes (param.drop s.i) v ∧
      unescapeLoop param fuel s = .returned (s.unescapeParam ++ v) := by
  induction fuel generalizing s with
  | zero => omega
  | succ fuel ih =>
    cases Nat.lt_or_ge s.i param.length with
    | inr hge =>
      refine ⟨[], ?_, ?_⟩
      · rw [List.drop_eq_nil_of_le hge]
        exact .nil
      · rw [unescapeLoop, if_neg (Nat.not_lt.mpr hge), List.append_nil]
    | inl hlt =>
      obtain ⟨i, b, hround, htakes, hgt, hle⟩ := unescapeRound_takes param s hshort hlt
      obtain ⟨v, hv, hloop⟩ := ih ⟨i, s.unescapeParam ++ [b]⟩ hle (by simp only; omega)
      refine ⟨b :: v, htakes.decodes hv, ?_⟩
      rw [unescapeLoop, if_pos hlt, hround]
      simp only
      rw [hloop, List.append_assoc]
      rfl

/-- A string shorter than `2^32` is decoded. -/
theorem unescape_returns (param : Bytes) (hshort : param.length < 2 ^ 32) :
    ∃ v, Decodes param v ∧ unescape (param.length + 1) param [] = .returned v := by
  obtain ⟨v, hv, hloop⟩ := unescapeLoop_decodes param hshort (param.length + 1) ⟨0, []⟩
    (Nat.zero_le _) (by simp only; omega)
  exact ⟨v, hv, hloop⟩

/-! ## Longer strings -/

theorem unescapeRound_lt (param : Bytes) (s s' : UnescapeState)
    (h : unescapeRound param s = some s') : s'.i < 2 ^ 32 := by
  unfold unescapeRound at h
  split at h
  · cases h
  · split at h
    · cases h
    · obtain rfl := Option.some.inj h
      exact Nat.mod_lt _ (by decide)
    · obtain rfl := Option.some.inj h
      exact Nat.mod_lt _ (by decide)

/-- The index never gets to `2^32`, so a string of that length has no end. -/
theorem unescapeLoop_endless (param : Bytes) (hlong : 2 ^ 32 ≤ param.length) (fuel : Nat)
    (s : UnescapeState) (hi : s.i < 2 ^ 32) (v : Bytes) : unescapeLoop param fuel s ≠ .returned v := by
  induction fuel generalizing s with
  | zero => exact UnescapeRet.noConfusion
  | succ fuel ih =>
    rw [unescapeLoop, if_pos (Nat.lt_of_lt_of_le hi hlong)]
    split
    · exact UnescapeRet.noConfusion
    · rename_i s' hs'
      exact ih s' (unescapeRound_lt param s s' hs')

end Ehttp
