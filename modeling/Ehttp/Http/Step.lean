import Ehttp.Http.Execute
import Ehttp.Lib.Scan

/-!
# `http_parser_execute`, one byte at a time

`step` is the `switch` for a parser that reads its input byte by byte: no inner
loop, and every byte of the headers is counted where it is read.

* `byteStep`: a byte, if it is parsed;
* `scan_fieldLoop`, `scan_valueLoop`: the loops over names and values are its steps.
-/

namespace Ehttp.Http

open Lib

/-! ## The steps -/

def fieldStep (c : Parser) (ch : UInt8) : Move :=
  if token ch = 0 then
    if ch = 58 then
      Parser.go { c with state := .headerValueDiscardWs } ch [c.callbackData .headerField]
    else c.fail .invalidHeaderToken []
  else
    match fieldChar c ch (token ch) with
    | none => c.abort
    | some c => c.go ch []

def valueStep (c : Parser) (ch : UInt8) : Move :=
  if ch = CR then
    Parser.go { c with state := .headerAlmostDone } ch [c.callbackData .headerValue]
  else if ch = LF then
    sHeaderAlmostDone { c with state := .headerAlmostDone } ch [c.callbackDataNoadvance .headerValue]
  else if !isHeaderChar ch then c.fail .invalidHeaderToken []
  else
    match valueChar c ch with
    | .abort => c.abort
    | .bad e => c.fail e []
    | .ok c => c.go ch []

def bodyStep (c : Parser) (ch : UInt8) : Move :=
  if c.contentLength = 0 ∨ c.contentLength = ULLONG_MAX then c.abort
  else
    let mark := c.mark .body
    let c := { c with contentLength := c.contentLength - 1 }
    if c.contentLength = 0 then
      let d := sMessageDone c
      ⟨d.1, [mark, .pass [ch], .flush (.body, c.toHttpParser) (-1),
        .notify (c.toHttpParser, .messageComplete) 0], d.2⟩
    else c.go ch [mark]

def chunkStep (c : Parser) (ch : UInt8) : Move :=
  if !c.flags.chunked ∨ c.contentLength = 0 ∨ c.contentLength = ULLONG_MAX then c.abort
  else
    let mark := c.mark .body
    let c := { c with contentLength := c.contentLength - 1 }
    Parser.go (if c.contentLength = 0 then { c with state := .chunkDataAlmostDone } else c) ch [mark]

def step (c : Parser) (ch : UInt8) : Move :=
  match c.state with
  | .headerField => fieldStep c ch
  | .headerValue => valueStep c ch
  | .bodyIdentity => bodyStep c ch
  | .chunkData => chunkStep c ch
  | _ => move c ch

/-- The parser has left the rest to another protocol. -/
def upgraded (c : Parser) : Bool := c.state = .startReq && c.upgrade

/-- The operations on one byte and the parser behind it; `none` if it is not parsed. -/
def byteStep (c : Parser) (ch : UInt8) : Option (List Op × Parser) :=
  if upgraded c || tooLong c then none
  else
    let m := step (countByte c) ch
    if m.out = .next ∨ m.out = .ret then some (m.ops, m.parser) else none

/-! ## Small facts -/

@[simp] theorem go_out (c : Parser) (ch : UInt8) (ops : List Op) : (c.go ch ops).out = .next := rfl
@[simp] theorem parser_go (c : Parser) (ch : UInt8) (ops : List Op) : (c.go ch ops).parser = c := rfl
@[simp] theorem go_ops (c : Parser) (ch : UInt8) (ops : List Op) :
    (c.go ch ops).ops = ops ++ [.pass [ch]] := rfl
@[simp] theorem fail_out (c : Parser) (e : Errno) (ops : List Op) : (c.fail e ops).out = .error := rfl
@[simp] theorem abort_out (c : Parser) : c.abort.out = .abort := rfl
@[simp] theorem count_state (c : Parser) (n : Nat) : (c.count n).state = c.state := rfl
@[simp] theorem count_nread (c : Parser) (n : Nat) : (c.count n).nread = c.nread + n := rfl
@[simp] theorem count_zero (c : Parser) : c.count 0 = c := rfl
@[simp] theorem count_count (c : Parser) (n k : Nat) : (c.count n).count k = c.count (n + k) := by
  simp [Parser.count, Nat.add_assoc]

theorem countByte_header {c : Parser} (h : c.state.parsingHeader = true) : countByte c = c.count 1 := by
  simp [countByte, h]

theorem countByte_body {c : Parser} (h : c.state.parsingHeader = false) : countByte c = c := by
  simp [countByte, h]

@[simp] theorem countByte_state (c : Parser) : (countByte c).state = c.state := by
  unfold countByte
  split <;> rfl

theorem tooLong_header {c : Parser} (h : c.state.parsingHeader = true) :
    tooLong c = true ↔ maxHeaderSize < c.nread + 1 := by
  simp [tooLong, h, countByte, Parser.overflows]

theorem tooLong_body {c : Parser} (h : c.state.parsingHeader = false) : tooLong c = false := by
  simp [tooLong, h]

theorem upgraded_of_ne {c : Parser} (h : c.state ≠ .startReq) : upgraded c = false := by
  simp [upgraded, h]

theorem state_of_upgraded {c : Parser} (h : upgraded c = true) : c.state = .startReq := by
  by_contra hne
  rw [upgraded_of_ne hne] at h
  cases h

/-- A byte of the headers. -/
theorem byteStep_header {c : Parser} (hs : c.state.parsingHeader = true) (hup : upgraded c = false)
    (ch : UInt8) :
    byteStep c ch =
      if c.nread + 1 ≤ maxHeaderSize ∧
          ((step (c.count 1) ch).out = .next ∨ (step (c.count 1) ch).out = .ret) then
        some ((step (c.count 1) ch).ops, (step (c.count 1) ch).parser)
      else none := by
  have hlong := tooLong_header hs
  by_cases h : c.nread + 1 ≤ maxHeaderSize
  · have hfit : tooLong c = false := Bool.eq_false_iff.mpr fun ht => by
      have := hlong.mp ht
      omega
    simp [byteStep, hup, hfit, countByte_header hs, h]
  · have hfit : tooLong c = true := hlong.mpr (by omega)
    simp [byteStep, hfit, h]

theorem byteStep_body {c : Parser} (hs : c.state.parsingHeader = false) (ch : UInt8) :
    byteStep c ch =
      if (step c ch).out = .next ∨ (step c ch).out = .ret then
        some ((step c ch).ops, (step c ch).parser)
      else none := by
  have hup : upgraded c = false := upgraded_of_ne fun h => by rw [h] at hs; cases hs
  simp [byteStep, hup, tooLong_body hs, countByte_body hs]

/-! ## `s_header_field` -/

/-- A character of a name moves the header state and the index, nothing else. -/
theorem fieldChar_frame {c c' : Parser} {ch t : UInt8} (h : fieldChar c ch t = some c') :
    c' = { c with headerState := c'.headerState, index := c'.index } := by
  unfold fieldChar at h
  split at h <;> cases h <;> rfl

theorem fieldChar_count (c : Parser) (n : Nat) (ch t : UInt8) :
    fieldChar (c.count n) ch t = (fieldChar c ch t).map fun c => c.count n := by
  obtain ⟨p, flags, state, headerState, index, nread, contentLength, errno, up⟩ := c
  cases headerState <;> rfl

theorem fieldLoop_stop (c : Parser) (ch : UInt8) (rest : Bytes) (h : token ch = 0) :
    fieldLoop c (ch :: rest) = some ⟨c, [], ch :: rest⟩ := by
  rw [fieldLoop, if_pos h]

theorem fieldLoop_char (c : Parser) (ch : UInt8) (rest : Bytes) (h : token ch ≠ 0) :
    fieldLoop c (ch :: rest) = (fieldChar c ch (token ch)).bind fun c =>
      (fieldLoop c rest).map fun r => { r with passed := ch :: r.passed } := by
  rw [fieldLoop, if_neg h]

theorem fieldLoop_count (c : Parser) (n : Nat) (p : Bytes) :
    fieldLoop (c.count n) p = (fieldLoop c p).map fun r => { r with parser := r.parser.count n } := by
  induction p generalizing c with
  | nil => rfl
  | cons ch rest ih =>
    by_cases h : token ch = 0
    · rw [fieldLoop_stop _ ch rest h, fieldLoop_stop _ ch rest h]; rfl
    · rw [fieldLoop_char _ ch rest h, fieldLoop_char _ ch rest h, fieldChar_count]
      cases fieldChar c ch (token ch) with
      | none => rfl
      | some c' =>
        simp only [Option.map_some, Option.bind_some, ih]
        cases fieldLoop c' rest <;> rfl

/-- What the loop leaves alone, and where it stops. -/
theorem fieldLoop_frame {c : Parser} {p : Bytes} {r : FieldRun} (h : fieldLoop c p = some r) :
    r.parser = { c with headerState := r.parser.headerState, index := r.parser.index } ∧
      p = r.passed ++ r.p ∧ ∀ ch rest, r.p = ch :: rest → token ch = 0 := by
  induction p generalizing c r with
  | nil =>
    cases h
    exact ⟨rfl, rfl, fun ch rest hp => by cases hp⟩
  | cons ch rest ih =>
    by_cases ht : token ch = 0
    · rw [fieldLoop_stop c ch rest ht] at h
      cases h
      refine ⟨rfl, rfl, ?_⟩
      rintro ch' rest' hp
      cases hp
      exact ht
    · rw [fieldLoop_char c ch rest ht] at h
      obtain ⟨c', hc', h⟩ := Option.bind_eq_some_iff.mp h
      obtain ⟨r', hr', rfl⟩ := Option.map_eq_some_iff.mp h
      obtain ⟨hframe, hp, hstop⟩ := ih hr'
      refine ⟨?_, by rw [hp]; rfl, hstop⟩
      simp only
      rw [hframe, fieldChar_frame hc']

theorem byteStep_fieldChar {c : Parser} (hs : c.state = .headerField) (ch : UInt8)
    (ht : token ch ≠ 0) :
    byteStep c ch =
      if c.nread + 1 ≤ maxHeaderSize then
        (fieldChar c ch (token ch)).map fun c => ([.pass [ch]], c.count 1)
      else none := by
  have hup : upgraded c = false := upgraded_of_ne (by rw [hs]; decide)
  rw [byteStep_header (by rw [hs]; rfl) hup]
  simp only [step, count_state, hs, fieldStep, ht, ↓reduceIte, fieldChar_count]
  cases fieldChar c ch (token ch) with
  | none => simp
  | some c' => simp

/-- **The loop over a name** is the steps of the bytes it passes. -/
theorem scan_fieldLoop {c : Parser} {p : Bytes} {r : FieldRun} (hs : c.state = .headerField)
    (hn : c.nread ≤ maxHeaderSize) (h : fieldLoop c p = some r) :
    scan byteStep c r.passed =
      if c.nread + r.passed.length ≤ maxHeaderSize then
        some (r.passed.map fun b => .pass [b], r.parser.count r.passed.length)
      else none := by
  induction p generalizing c r with
  | nil =>
    cases h
    simp [scan, hn]
  | cons ch rest ih =>
    by_cases ht : token ch = 0
    · rw [fieldLoop_stop c ch rest ht] at h
      cases h
      simp [scan, hn]
    · rw [fieldLoop_char c ch rest ht] at h
      obtain ⟨c', hc', h⟩ := Option.bind_eq_some_iff.mp h
      obtain ⟨r', hr', rfl⟩ := Option.map_eq_some_iff.mp h
      have hframe := fieldChar_frame hc'
      rw [Scan.scan_cons, byteStep_fieldChar hs ch ht, hc']
      by_cases hfit : c.nread + 1 ≤ maxHeaderSize
      · have hcount : fieldLoop (c'.count 1) rest = some { r' with parser := r'.parser.count 1 } := by
          rw [fieldLoop_count, hr']
          rfl
        have hrest := ih (c := c'.count 1) (by rw [count_state, hframe]; exact hs)
          (by rw [count_nread, hframe]; exact hfit) hcount
        have hnread : c'.nread = c.nread := by rw [hframe]
        simp only [count_nread, hnread, count_count] at hrest
        simp only [hfit, ↓reduceIte, Option.map_some, Option.bind_some, hrest, List.length_cons]
        have harith : c.nread + 1 + r'.passed.length = c.nread + (r'.passed.length + 1) := by omega
        rw [harith]
        split
        · simp [Nat.add_comm 1]
        · rfl
      · have hlong : ¬ c.nread + (r'.passed.length + 1) ≤ maxHeaderSize := by omega
        simp [hfit, hlong]

/-! ## `s_header_value` -/

def ValueChar.count (v : ValueChar) (n : Nat) : ValueChar :=
  match v with
  | .ok c => .ok (c.count n)
  | .bad e => .bad e
  | .abort => .abort

theorem contentLengthChar_frame {c c' : Parser} {ch : UInt8} (h : contentLengthChar c ch = .ok c') :
    c' = { c with headerState := c'.headerState, contentLength := c'.contentLength } := by
  unfold contentLengthChar at h
  split at h
  · cases h
    rfl
  · split at h
    · cases h
    · split at h <;> cases h
      rfl

theorem connectionChar_frame (c : Parser) (flags : Flags) (ch : UInt8) :
    connectionChar c flags ch = { c with
      flags := (connectionChar c flags ch).flags
      headerState := (connectionChar c flags ch).headerState
      index := (connectionChar c flags ch).index } := by
  unfold connectionChar
  split
  · rfl
  · split <;> rfl

/-- A character of a value moves what the header means, nothing else. -/
theorem valueChar_frame {c c' : Parser} {ch : UInt8} (hs : c.state = .headerValue)
    (h : valueChar c ch = .ok c') :
    c' = { c with
      flags := c'.flags, headerState := c'.headerState, index := c'.index
      contentLength := c'.contentLength } := by
  unfold valueChar at h
  simp only at h
  split at h
  case h_4 => -- `h_content_length` goes on as `h_content_length_num`
    split at h
    · cases h
      rfl
    · rw [contentLengthChar_frame h]
  case h_5 => rw [contentLengthChar_frame h]
  case h_6 =>
    split at h <;> cases h
    rfl
  case h_12 =>
    cases h
    split <;> rfl
  case h_13 =>
    cases h
    split <;> rfl
  case h_14 =>
    cases h
    rw [connectionChar_frame]
  case h_15 =>
    cases h
    rw [connectionChar_frame]
  case h_16 =>
    cases h
    rw [connectionChar_frame]
  case h_17 =>
    cases h
    simp only [hs]
  all_goals
    cases h
    try rfl

theorem contentLengthChar_count (c : Parser) (n : Nat) (ch : UInt8) :
    contentLengthChar (c.count n) ch = (contentLengthChar c ch).count n := by
  have hlength : (c.count n).contentLength = c.contentLength := rfl
  unfold contentLengthChar
  rw [hlength]
  split
  · rfl
  · split
    · rfl
    · split <;> rfl

theorem connectionChar_count (c : Parser) (flags : Flags) (n : Nat) (ch : UInt8) :
    connectionChar (c.count n) flags ch = (connectionChar c flags ch).count n := by
  unfold connectionChar
  split
  · rfl
  · split <;> rfl

theorem valueChar_count (c : Parser) (n : Nat) (ch : UInt8) :
    valueChar (c.count n) ch = (valueChar c ch).count n := by
  have hlength := contentLengthChar_count c n ch
  have hlength' := contentLengthChar_count { c with headerState := .contentLengthNum } n ch
  have hconnection := fun flags => connectionChar_count c flags n ch
  obtain ⟨p, flags, state, headerState, index, nread, contentLength, errno, up⟩ := c
  cases headerState <;> simp only [valueChar, Parser.count] at hlength hlength' hconnection ⊢
  case contentLength =>
    split
    · rfl
    · exact hlength'
  case contentLengthNum => exact hlength
  case contentLengthWs => split <;> rfl
  case matchingConnectionToken => split <;> rfl
  case transferEncodingChunked => split <;> rfl
  case connectionKeepAlive => rw [hconnection]; rfl
  case connectionClose => rw [hconnection]; rfl
  case connectionUpgrade => rw [hconnection]; rfl
  all_goals rfl

/-- A byte at which the loop over a value stops with an error. -/
def badChar (c : Parser) (ch : UInt8) : Prop :=
  ch ≠ CR ∧ ch ≠ LF ∧ (isHeaderChar ch = false ∨ ∀ c', valueChar c ch ≠ .ok c')

theorem valueLoop_char {c c' : Parser} {ch : UInt8} (rest : Bytes) (hcr : ch ≠ CR) (hlf : ch ≠ LF)
    (hchar : isHeaderChar ch = true) (h : valueChar c ch = .ok c') :
    valueLoop c (ch :: rest) =
      { valueLoop c' rest with passed := ch :: (valueLoop c' rest).passed } := by
  rw [valueLoop, if_neg hcr, if_neg hlf, if_neg (by simp [hchar]), h]

/-- The first byte ends the value, is in error, or is passed. -/
theorem valueLoop_cases (c : Parser) (ch : UInt8) (rest : Bytes) :
    (ch = CR ∧ valueLoop c (ch :: rest) = ⟨c, [], ch :: rest, .cr⟩) ∨
    (ch = LF ∧ valueLoop c (ch :: rest) = ⟨c, [], ch :: rest, .lf⟩) ∨
    (badChar c ch ∧ ∃ out, valueLoop c (ch :: rest) = ⟨c, [], ch :: rest, out⟩ ∧
      (out = .abort ∨ ∃ e, out = .bad e)) ∨
    (ch ≠ CR ∧ ch ≠ LF ∧ isHeaderChar ch = true ∧ ∃ c', valueChar c ch = .ok c') := by
  by_cases hcr : ch = CR
  · exact Or.inl ⟨hcr, by rw [valueLoop, if_pos hcr]⟩
  · by_cases hlf : ch = LF
    · exact Or.inr (Or.inl ⟨hlf, by rw [valueLoop, if_neg hcr, if_pos hlf]⟩)
    · by_cases hchar : isHeaderChar ch = true
      · cases hv : valueChar c ch with
        | ok c' => exact Or.inr (Or.inr (Or.inr ⟨hcr, hlf, hchar, c', rfl⟩))
        | bad e =>
          refine Or.inr (Or.inr (Or.inl ⟨⟨hcr, hlf, Or.inr ?_⟩, .bad e, ?_, Or.inr ⟨e, rfl⟩⟩))
          · simp [hv]
          · rw [valueLoop, if_neg hcr, if_neg hlf, if_neg (by simp [hchar]), hv]
        | abort =>
          refine Or.inr (Or.inr (Or.inl ⟨⟨hcr, hlf, Or.inr ?_⟩, .abort, ?_, Or.inl rfl⟩))
          · simp [hv]
          · rw [valueLoop, if_neg hcr, if_neg hlf, if_neg (by simp [hchar]), hv]
      · refine Or.inr (Or.inr (Or.inl ⟨⟨hcr, hlf, Or.inl (by simpa using hchar)⟩,
          .bad .invalidHeaderToken, ?_, Or.inr ⟨_, rfl⟩⟩))
        rw [valueLoop, if_neg hcr, if_neg hlf, if_pos (by simpa using hchar)]

theorem valueLoop_count (c : Parser) (n : Nat) (p : Bytes) :
    valueLoop (c.count n) p = { valueLoop c p with parser := (valueLoop c p).parser.count n } := by
  induction p generalizing c with
  | nil => rfl
  | cons ch rest ih =>
    simp only [valueLoop, valueChar_count]
    split
    · rfl
    · split
      · rfl
      · split
        · rfl
        · cases valueChar c ch with
          | ok c' => simp only [ValueChar.count, ih]
          | bad e => rfl
          | abort => rfl

/-- Where the loop stops, and why. -/
def StopsAt (r : ValueRun) : Prop :=
  match r.out with
  | .more => r.p = []
  | .cr => ∃ rest, r.p = CR :: rest
  | .lf => ∃ rest, r.p = LF :: rest
  | .bad _ | .abort => ∃ ch rest, r.p = ch :: rest ∧ badChar r.parser ch

theorem valueLoop_frame {c : Parser} (hs : c.state = .headerValue) (p : Bytes) :
    (valueLoop c p).parser = { c with
        flags := (valueLoop c p).parser.flags
        headerState := (valueLoop c p).parser.headerState
        index := (valueLoop c p).parser.index
        contentLength := (valueLoop c p).parser.contentLength } ∧
      p = (valueLoop c p).passed ++ (valueLoop c p).p ∧ StopsAt (valueLoop c p) := by
  induction p generalizing c with
  | nil => exact ⟨rfl, rfl, rfl⟩
  | cons ch rest ih =>
    rcases valueLoop_cases c ch rest with
      ⟨rfl, h⟩ | ⟨rfl, h⟩ | ⟨hbad, out, h, hout⟩ | ⟨hcr, hlf, hchar, c', hc'⟩
    · rw [h]
      exact ⟨rfl, rfl, rest, rfl⟩
    · rw [h]
      exact ⟨rfl, rfl, rest, rfl⟩
    · rw [h]
      refine ⟨rfl, rfl, ?_⟩
      rcases hout with rfl | ⟨e, rfl⟩ <;> exact ⟨ch, rest, rfl, hbad⟩
    · have hframe := valueChar_frame hs hc'
      obtain ⟨hparser, hp, hstop⟩ := ih (c := c') (by rw [hframe]; exact hs)
      rw [valueLoop_char rest hcr hlf hchar hc']
      refine ⟨?_, congrArg (ch :: ·) hp, hstop⟩
      simp only
      rw [hparser, hframe]

theorem byteStep_value {c : Parser} (hs : c.state = .headerValue) (ch : UInt8) :
    byteStep c ch =
      if c.nread + 1 ≤ maxHeaderSize ∧
          ((valueStep (c.count 1) ch).out = .next ∨ (valueStep (c.count 1) ch).out = .ret) then
        some ((valueStep (c.count 1) ch).ops, (valueStep (c.count 1) ch).parser)
      else none := by
  have hup : upgraded c = false := upgraded_of_ne (by rw [hs]; decide)
  rw [byteStep_header (by rw [hs]; rfl) hup]
  simp only [step, count_state, hs]

theorem byteStep_valueChar {c c' : Parser} (hs : c.state = .headerValue) {ch : UInt8} (hcr : ch ≠ CR)
    (hlf : ch ≠ LF) (hchar : isHeaderChar ch = true) (h : valueChar c ch = .ok c') :
    byteStep c ch = if c.nread + 1 ≤ maxHeaderSize then some ([.pass [ch]], c'.count 1) else none := by
  have hstep : valueStep (c.count 1) ch = Parser.go (c'.count 1) ch [] := by
    rw [valueStep, if_neg hcr, if_neg hlf, if_neg (by simp [hchar]), valueChar_count, h]
    rfl
  rw [byteStep_value hs, hstep]
  simp

theorem byteStep_badChar {c : Parser} (hs : c.state = .headerValue) {ch : UInt8} (h : badChar c ch) :
    byteStep c ch = none := by
  obtain ⟨hcr, hlf, hbad⟩ := h
  have hstep : (valueStep (c.count 1) ch).out = .error ∨ (valueStep (c.count 1) ch).out = .abort := by
    rw [valueStep, if_neg hcr, if_neg hlf]
    split
    · exact Or.inl rfl
    · rename_i hchar
      have hno := hbad.resolve_left (by simpa using hchar)
      rw [valueChar_count]
      cases hv : valueChar c ch with
      | ok c' => exact absurd hv (hno c')
      | bad e => exact Or.inl rfl
      | abort => exact Or.inr rfl
  rw [byteStep_value hs, if_neg]
  rintro ⟨-, hout⟩
  rcases hstep with h | h <;> rw [h] at hout <;> simp at hout

theorem badChar_count {c : Parser} {ch : UInt8} (h : badChar c ch) (n : Nat) :
    badChar (c.count n) ch := by
  refine ⟨h.1, h.2.1, h.2.2.imp_right fun hno c' hc' => ?_⟩
  rw [valueChar_count] at hc'
  cases hv : valueChar c ch with
  | ok c'' => exact hno c'' hv
  | bad e => rw [hv] at hc'; cases hc'
  | abort => rw [hv] at hc'; cases hc'

/-- **The loop over a value** is the steps of the bytes it passes. -/
theorem scan_valueLoop {c : Parser} (p : Bytes) (hs : c.state = .headerValue)
    (hn : c.nread ≤ maxHeaderSize) :
    scan byteStep c (valueLoop c p).passed =
      if c.nread + (valueLoop c p).passed.length ≤ maxHeaderSize then
        some ((valueLoop c p).passed.map fun b => .pass [b],
          (valueLoop c p).parser.count (valueLoop c p).passed.length)
      else none := by
  induction p generalizing c with
  | nil => simp [valueLoop, scan, hn]
  | cons ch rest ih =>
    rcases valueLoop_cases c ch rest with
      ⟨-, h⟩ | ⟨-, h⟩ | ⟨-, out, h, -⟩ | ⟨hcr, hlf, hchar, c', hc'⟩
    · simp [h, scan, hn]
    · simp [h, scan, hn]
    · simp [h, scan, hn]
    · have hframe := valueChar_frame hs hc'
      rw [valueLoop_char rest hcr hlf hchar hc', Scan.scan_cons,
        byteStep_valueChar hs hcr hlf hchar hc']
      by_cases hfit : c.nread + 1 ≤ maxHeaderSize
      · have hrest := ih (c := c'.count 1) (by rw [count_state, hframe]; exact hs)
          (by rw [count_nread, hframe]; exact hfit)
        have hnread : c'.nread = c.nread := by rw [hframe]
        simp only [valueLoop_count, count_nread, hnread, count_count] at hrest
        simp only [hfit, ↓reduceIte, Option.bind_some, hrest, List.length_cons]
        have harith : c.nread + 1 + (valueLoop c' rest).passed.length =
            c.nread + ((valueLoop c' rest).passed.length + 1) := by omega
        rw [harith]
        split
        · simp [Nat.add_comm 1]
        · rfl
      · have hlong : ¬ c.nread + ((valueLoop c' rest).passed.length + 1) ≤ maxHeaderSize := by omega
        simp [hfit, hlong]

end Ehttp.Http
