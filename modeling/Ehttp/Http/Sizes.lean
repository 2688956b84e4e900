import Ehttp.Http.Names
import Ehttp.Lib.HttpResponse
import Ehttp.Lib.Radix

/-!
# The sizes `http_parser` reads

`Content-Length` and the sizes of chunks are read digit by digit into
`content_length`, a word of 64 bits.

* `contentLength_exact`, `chunkSize_exact`: a number is read as it is written or
  refused, and which of them are refused.
-/

namespace Ehttp.Http

open Lib

/-- A byte in a state of the headers, behind which `p` moves on. -/
theorem byteStep_go {c c' : Parser} {ch : UInt8} (ops : List Op)
    (hs : c.state.parsingHeader = true) (hup : upgraded c = false) (hfit : c.nread + 1 ≤ maxHeaderSize)
    (h : step (c.count 1) ch = c'.go ch ops) : byteStep c ch = some (ops ++ [.pass [ch]], c') := by
  rw [byteStep_header hs hup, h]
  simp [hfit]

/-- Digit after digit, where a step takes one of them into `content_length`. -/
theorem scan_number {base guard : Nat} {digit : UInt8 → Nat} (good : Parser → Prop) {isDigit : UInt8 → Prop}
    (hgood : ∀ {c : Parser} (n : Nat), good c → good { c.count 1 with contentLength := n })
    (hstep : ∀ {c : Parser} {b : UInt8}, good c → isDigit b → c.nread + 1 ≤ maxHeaderSize →
      byteStep c b = (takeDigit base (2 ^ 64) guard c.contentLength (digit b)).map
        fun n => ([.pass [b]], { c.count 1 with contentLength := n }))
    {c : Parser} (h : good c) (v : Bytes) (hdigits : ∀ b ∈ v, isDigit b)
    (hfit : c.nread + v.length ≤ maxHeaderSize) :
    scan byteStep c v = (readNumber base (2 ^ 64) guard digit c.contentLength v).map
      fun n => (v.map fun b => .pass [b], { c.count v.length with contentLength := n }) := by
  induction v generalizing c with
  | nil => rfl
  | cons b v ih =>
    simp only [List.length_cons] at hfit
    rw [Scan.scan_cons, hstep h (hdigits b (List.mem_cons_self ..)) (by omega), readNumber_cons]
    cases takeDigit base (2 ^ 64) guard c.contentLength (digit b) with
    | none => rfl
    | some n =>
      rw [Option.map_some, Option.bind_some, Option.bind_some,
        ih (hgood n h) (fun b hb => hdigits b (List.mem_cons_of_mem _ hb))
          (by simp only [count_nread]; omega)]
      cases readNumber base (2 ^ 64) guard digit n v with
      | none => simp
      | some n' => simp [Parser.count, Nat.add_assoc, Nat.add_comm 1]

/-! ## `Content-Length` -/

/-- The first number that is too large for `content_length`. -/
def lengthLimit : Nat := ((ULLONG_MAX - 10) / 10 + 1) * 10

theorem numberFrom_digits (v : Bytes) : numberFrom 10 digit 0 v = digitsValue v := rfl

theorem digit_lt {b : UInt8} (h : isNum b = true) : digit b < 10 := by
  simp only [isNum, decide_eq_true_eq, UInt8.le_iff_toNat_le] at h
  have hlow : 48 ≤ b.toNat := h.1
  have hhigh : b.toNat ≤ 57 := h.2
  rw [digit]
  omega

theorem isNum_ne {b d : UInt8} (h : isNum b = true) (hd : isNum d = false) : b ≠ d := by
  rintro rfl
  rw [h] at hd
  cases hd

/-- A digit of a header value passes the tests in front of the `switch`. -/
theorem isNum_valueChar {b : UInt8} (h : isNum b = true) :
    b ≠ CR ∧ b ≠ LF ∧ b ≠ 32 ∧ isHeaderChar b = true := by
  refine ⟨isNum_ne h (by decide), isNum_ne h (by decide), isNum_ne h (by decide), ?_⟩
  simp only [isNum, decide_eq_true_eq, UInt8.le_iff_toNat_le] at h
  have hlow : 48 ≤ b.toNat := h.1
  have hhigh : b.toNat ≤ 57 := h.2
  have hdel : b ≠ 127 := by
    rintro rfl
    exact absurd hhigh (by decide)
  have habove : 31 < b := UInt8.lt_iff_toNat_lt.mpr (by simp; omega)
  simp [isHeaderChar, hdel, habove]

/-- A digit behind others. -/
theorem byteStep_lengthDigit {c : Parser} (hs : c.state = .headerValue)
    (hh : c.headerState = .contentLengthNum) {b : UInt8} (hb : isNum b = true)
    (hfit : c.nread + 1 ≤ maxHeaderSize) :
    byteStep c b = (takeDigit 10 (2 ^ 64) ((ULLONG_MAX - 10) / 10) c.contentLength (digit b)).map
      fun n => ([.pass [b]], { c.count 1 with contentLength := n }) := by
  obtain ⟨hcr, hlf, hspace, hchar⟩ := isNum_valueChar hb
  have hvalue : valueChar c b = contentLengthChar c b := by simp [valueChar, hh]
  unfold takeDigit
  by_cases hbig : (ULLONG_MAX - 10) / 10 < c.contentLength
  · have hbad : badChar c b := by
      refine ⟨hcr, hlf, Or.inr fun c' hc' => ?_⟩
      rw [hvalue, contentLengthChar, if_neg hspace, if_neg (by simp [hb]), if_pos hbig] at hc'
      cases hc'
    rw [byteStep_badChar hs hbad, if_pos hbig, Option.map_none]
  · have hok : valueChar c b = .ok { c with
        contentLength := (c.contentLength * 10 + digit b) % 2 ^ 64 } := by
      rw [hvalue, contentLengthChar, if_neg hspace, if_neg (by simp [hb]), if_neg hbig]
    rw [byteStep_valueChar hs hcr hlf hchar hok, if_pos hfit, if_neg hbig]
    rfl

/-- The first digit. -/
theorem byteStep_lengthStart {c : Parser} (hs : c.state = .headerValueDiscardWs)
    (hh : c.headerState = .contentLength) (hnew : c.flags.contentlength = false) {b : UInt8}
    (hb : isNum b = true) (hfit : c.nread + 1 ≤ maxHeaderSize) :
    byteStep c b = some ([c.mark .headerValue, .pass [b]], { c.count 1 with
      state := .headerValue
      index := 0
      flags := { c.flags with contentlength := true }
      contentLength := digit b
      headerState := .contentLengthNum }) := by
  obtain ⟨hcr, hlf, hspace, -⟩ := isNum_valueChar hb
  have htab : b ≠ 9 := isNum_ne hb (by decide)
  refine byteStep_go [c.mark .headerValue] (by rw [hs]; rfl) (upgraded_of_ne (by rw [hs]; decide)) hfit ?_
  simp only [step, move, hs, sHeaderValueDiscardWs, hspace, htab, hcr, hlf, or_self,
    ↓reduceIte, sHeaderValueStart, Parser.count, hh, hb, hnew, Bool.not_true, Bool.false_eq_true]
  rfl

/-- The operations on a value. -/
def valueOps (c : Parser) : Bytes → List Op
  | [] => []
  | b :: v => c.mark .headerValue :: (b :: v).map fun b => .pass [b]

theorem scan_length {c : Parser} (hs : c.state = .headerValueDiscardWs)
    (hh : c.headerState = .contentLength) (hnew : c.flags.contentlength = false) {v : Bytes}
    (hne : v ≠ []) (hdigits : ∀ b ∈ v, isNum b = true) (hfit : c.nread + v.length ≤ maxHeaderSize) :
    scan byteStep c v =
      if digitsValue v < lengthLimit then
        some (valueOps c v, { c.count v.length with
          state := .headerValue
          index := 0
          flags := { c.flags with contentlength := true }
          contentLength := digitsValue v
          headerState := .contentLengthNum })
      else none := by
  obtain ⟨b, v, rfl⟩ := List.exists_cons_of_ne_nil hne
  have hb := hdigits b (List.mem_cons_self ..)
  have hrest := fun d hd => hdigits d (List.mem_cons_of_mem b hd)
  simp only [List.length_cons] at hfit
  rw [Scan.scan_cons, byteStep_lengthStart hs hh hnew hb (by omega), Option.bind_some,
    scan_number (fun c => c.state = .headerValue ∧ c.headerState = .contentLengthNum)
      (fun n h => h) (fun h hb hfit => byteStep_lengthDigit h.1 h.2 hb hfit) ⟨rfl, rfl⟩ v hrest
      (by simp only [count_nread]; omega)]
  have hvalue : digitsValue (b :: v) = numberFrom 10 digit (digit b) v := by
    rw [← numberFrom_digits, numberFrom_cons]
    simp
  rw [hvalue]
  by_cases hnil : v = []
  · subst hnil
    have hsmall : numberFrom 10 digit (digit b) [] < lengthLimit :=
      Nat.lt_trans (digit_lt hb) (by decide)
    rw [if_pos hsmall]
    rfl
  · rw [readNumber_eq 10 (2 ^ 64) ((ULLONG_MAX - 10) / 10) digit (by decide) hnil
      (fun d hd => digit_lt (hrest d hd)) (digit b)]
    rw [lengthLimit]
    split
    · simp [valueOps, Parser.count, Nat.add_assoc, Nat.add_comm 1]
    · rfl

/-- **Content-Length.**  A value of digits is read as the number it is, if this is
below the limit, and refused if not; no value wraps. -/
theorem contentLength_exact (c : Parser) (hs : c.state = .headerValueDiscardWs)
    (hh : c.headerState = .contentLength) (hnew : c.flags.contentlength = false) (v : Bytes)
    (hne : v ≠ []) (hdigits : ∀ b ∈ v, isNum b = true) (hfit : c.nread + v.length ≤ maxHeaderSize) :
    ((∃ ops c', scan byteStep c v = some (ops, c')) ↔ digitsValue v < lengthLimit) ∧
      ∀ ops c', scan byteStep c v = some (ops, c') →
        c'.contentLength = digitsValue v ∧ c'.flags.contentlength = true := by
  rw [scan_length hs hh hnew hne hdigits hfit]
  split
  · rename_i hsmall
    refine ⟨⟨fun _ => hsmall, fun _ => ⟨_, _, rfl⟩⟩, fun ops c' h => ?_⟩
    cases h
    exact ⟨rfl, rfl⟩
  · rename_i hbig
    refine ⟨⟨?_, fun h => absurd h hbig⟩, fun ops c' h => (by cases h)⟩
    rintro ⟨ops, c', h⟩
    cases h

theorem contentLength_exact_wrap :
    ((∃ ops c', scan byteStep { httpParserInit with
        state := .headerValueDiscardWs, headerState := .contentLength }
          (bytes "18446744073709551617") = some (ops, c')) ↔
      digitsValue (bytes "18446744073709551617") < lengthLimit) :=
  (contentLength_exact _ rfl rfl rfl _ (by decide +kernel) (by decide +kernel) (by decide +kernel)).1

/-! ## Sizes of chunks -/

/-- The first number that is too large for the size of a chunk. -/
def sizeLimit : Nat := ((ULLONG_MAX - 16) / 16 + 1) * 16

def isHex (b : UInt8) : Prop := unhex b ≠ none

instance (b : UInt8) : Decidable (isHex b) := inferInstanceAs (Decidable (unhex b ≠ none))

def hexDigit (b : UInt8) : Nat := (unhex b).getD 0

def hexValue (v : Bytes) : Nat := numberFrom 16 hexDigit 0 v

theorem unhex_hex {b : UInt8} (h : isHex b) : unhex b = some (hexDigit b) := by
  unfold isHex at h
  unfold hexDigit
  cases hb : unhex b with
  | none => exact absurd hb h
  | some n => rfl

theorem hexDigit_lt (b : UInt8) : hexDigit b < 16 := by
  unfold hexDigit unhex
  split
  · rename_i h
    have := digit_lt h
    simp only [digit] at this
    simp only [Option.getD_some]
    omega
  · split
    · rename_i h
      have hhigh : b.toNat ≤ 70 := UInt8.le_iff_toNat_le.mp h.2
      simp only [Option.getD_some]
      omega
    · split
      · rename_i h
        have hhigh : b.toNat ≤ 102 := UInt8.le_iff_toNat_le.mp h.2
        simp only [Option.getD_some]
        omega
      · split <;> decide

theorem byteStep_sizeDigit {c : Parser} (hs : c.state = .chunkSize) (hc : c.flags.chunked = true)
    {b : UInt8} (hb : isHex b) (hfit : c.nread + 1 ≤ maxHeaderSize) :
    byteStep c b = (takeDigit 16 (2 ^ 64) ((ULLONG_MAX - 16) / 16) c.contentLength (hexDigit b)).map
      fun n => ([.pass [b]], { c.count 1 with contentLength := n }) := by
  have hcr : b ≠ CR := by
    rintro rfl
    exact hb (by decide)
  have hup : upgraded c = false := upgraded_of_ne (by rw [hs]; decide)
  have hstep : step (c.count 1) b =
      if (ULLONG_MAX - 16) / 16 < c.contentLength then (c.count 1).fail .invalidContentLength []
      else Parser.go { c.count 1 with contentLength := (c.contentLength * 16 + hexDigit b) % 2 ^ 64 } b [] := by
    simp only [step, count_state, hs, move, sChunkSize, hcr, ↓reduceIte, unhex_hex hb]
    rw [if_neg (by simp [Parser.count, hc])]
    rfl
  unfold takeDigit
  by_cases hbig : (ULLONG_MAX - 16) / 16 < c.contentLength
  · rw [if_pos hbig] at hstep ⊢
    rw [byteStep_header (by rw [hs]; rfl) hup, hstep, if_neg (by simp)]
    rfl
  · rw [if_neg hbig] at hstep ⊢
    exact byteStep_go [] (by rw [hs]; rfl) hup hfit hstep

theorem byteStep_sizeStart {c : Parser} (hs : c.state = .chunkSizeStart) (hc : c.flags.chunked = true)
    (hn : c.nread = 0) {b : UInt8} (hb : isHex b) :
    byteStep c b = some ([.pass [b]],
      { c.count 1 with contentLength := hexDigit b, state := .chunkSize }) := by
  refine byteStep_go [] (by rw [hs]; rfl) (upgraded_of_ne (by rw [hs]; decide))
    (by rw [hn]; decide) ?_
  simp only [step, Parser.count, hs, move, sChunkSizeStart, hn, hc, unhex_hex hb]
  rfl

theorem scan_size {c : Parser} (hs : c.state = .chunkSizeStart) (hc : c.flags.chunked = true)
    (hn : c.nread = 0) {v : Bytes} (hne : v ≠ []) (hhex : ∀ b ∈ v, isHex b)
    (hfit : v.length ≤ maxHeaderSize) :
    scan byteStep c v =
      if hexValue v < sizeLimit then
        some (v.map fun b => .pass [b],
          { c.count v.length with contentLength := hexValue v, state := .chunkSize })
      else none := by
  obtain ⟨b, v, rfl⟩ := List.exists_cons_of_ne_nil hne
  have hb := hhex b (List.mem_cons_self ..)
  have hrest := fun d hd => hhex d (List.mem_cons_of_mem b hd)
  simp only [List.length_cons] at hfit
  rw [Scan.scan_cons, byteStep_sizeStart hs hc hn hb, Option.bind_some,
    scan_number (fun c => c.state = .chunkSize ∧ c.flags.chunked = true) (fun n h => h)
      (fun h hb hfit => byteStep_sizeDigit h.1 h.2 hb hfit)
      (c := { c.count 1 with contentLength := hexDigit b, state := .chunkSize }) ⟨rfl, hc⟩ v hrest
      (by simp only [count_nread, hn]; omega)]
  have hvalue : hexValue (b :: v) = numberFrom 16 hexDigit (hexDigit b) v := by
    rw [hexValue, numberFrom_cons]
    simp
  rw [hvalue]
  by_cases hnil : v = []
  · subst hnil
    have hsmall : numberFrom 16 hexDigit (hexDigit b) [] < sizeLimit :=
      Nat.lt_trans (hexDigit_lt b) (by decide)
    rw [if_pos hsmall]
    rfl
  · rw [readNumber_eq 16 (2 ^ 64) ((ULLONG_MAX - 16) / 16) hexDigit (by decide) hnil
      (fun d _ => hexDigit_lt d) (hexDigit b)]
    rw [sizeLimit]
    split
    · simp [Parser.count, Nat.add_assoc, Nat.add_comm 1]
    · rfl

/-- **Sizes of chunks.**  Hex digits are read as the number they are, if this is
below the limit, and refused if not. -/
theorem chunkSize_exact (c : Parser) (hs : c.state = .chunkSizeStart) (hc : c.flags.chunked = true)
    (hn : c.nread = 0) (v : Bytes) (hne : v ≠ []) (hhex : ∀ b ∈ v, unhex b ≠ none)
    (hfit : v.length ≤ maxHeaderSize) :
    ((∃ ops c', scan byteStep c v = some (ops, c')) ↔ hexValue v < sizeLimit) ∧
      ∀ ops c', scan byteStep c v = some (ops, c') → c'.contentLength = hexValue v := by
  rw [scan_size hs hc hn hne hhex hfit]
  split
  · rename_i hsmall
    refine ⟨⟨fun _ => hsmall, fun _ => ⟨_, _, rfl⟩⟩, fun ops c' h => ?_⟩
    cases h
    rfl
  · rename_i hbig
    refine ⟨⟨?_, fun h => absurd h hbig⟩, fun ops c' h => (by cases h)⟩
    rintro ⟨ops, c', h⟩
    cases h

theorem chunkSize_exact_wrap :
    ((∃ ops c', scan byteStep { httpParserInit with
        state := .chunkSizeStart, flags := { chunked := true } } (bytes "10000000000000001") =
          some (ops, c')) ↔ hexValue (bytes "10000000000000001") < sizeLimit) :=
  (chunkSize_exact _ rfl rfl rfl _ (by decide +kernel) (by decide +kernel) (by decide +kernel)).1

end Ehttp.Http
