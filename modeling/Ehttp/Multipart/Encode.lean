import Ehttp.Lib.StringStream
import Ehttp.Multipart.PartData

/-!
# The canonical multipart body

`encodeParts` writes a form as clients do: for each part a Content-Disposition
line, a Content-Type line if there is a content type, an empty line and the
data.  The lemmas say what the parser reads of each piece.
-/

namespace Ehttp

open Lib

structure MultipartPart where
  name : Bytes
  filename : Option Bytes
  contentType : Option Bytes
  data : Bytes
  deriving DecidableEq, Repr

/-- 34 is the double quote. -/
def quoted (s : Bytes) : Bytes := 34 :: (s ++ [34])

def crlf : Bytes := [CR, LF]

def headerLine (name value : Bytes) : Bytes := name ++ bytes ": " ++ value ++ crlf

/-- A header line with any text behind the colon; 58 is `':'`. -/
def fieldLine (name text : Bytes) : Bytes := name ++ 58 :: (text ++ crlf)

namespace MultipartPart

def disposition (p : MultipartPart) : Bytes :=
  bytes "form-data; name=" ++ quoted p.name ++
    match p.filename with
    | none => []
    | some filename => bytes "; filename=" ++ quoted filename

def typeLine (p : MultipartPart) : Bytes :=
  match p.contentType with
  | none => []
  | some contentType => headerLine (bytes "Content-Type") contentType

def encode (p : MultipartPart) : Bytes :=
  headerLine (bytes "Content-Disposition") p.disposition ++ p.typeLine ++ crlf ++ p.data

/-- A name or filename that needs no quoting.  59 is `';'` and 61 `'='`. -/
def LegalName (s : Bytes) : Prop := ∀ c ∈ s, c ≠ 34 ∧ c ≠ 59 ∧ c ≠ 61 ∧ c ≠ CR ∧ c ≠ LF

structure Legal (boundary : Bytes) (p : MultipartPart) : Prop where
  name : LegalName p.name
  filename : ∀ filename ∈ p.filename, LegalName filename
  contentType : ∀ contentType ∈ p.contentType,
    CR ∉ contentType ∧ LF ∉ contentType ∧ contentType.head? ≠ some 32
  data : ¬ crlf ++ bytes "--" ++ boundary <:+: p.data

end MultipartPart

/-- The body of the form, with the closing delimiter. -/
def encodeParts (boundary : Bytes) : List MultipartPart → Bytes
  | [] => bytes "--" ++ boundary ++ bytes "--"
  | p :: parts => bytes "--" ++ boundary ++ crlf ++ p.encode ++ crlf ++ encodeParts boundary parts

/-- Characters that may stand in a header value; 9 is the tab. -/
structure LegalBoundary (boundary : Bytes) : Prop where
  nonempty : boundary ≠ []
  chars : ∀ c ∈ boundary, (c = 9 ∨ 32 ≤ c ∧ c ≠ 127) ∧ c ≠ 59 ∧ c ≠ 61

/-- A delimiter the parser can be given as a C string. -/
def IsDelimiter (boundary : Bytes) : Prop := boundary ≠ [] ∧ 0 ∉ boundary ∧ CR ∉ boundary

theorem multipartParserInit_eq (boundary : Bytes) (h : 0 ∉ boundary) :
    multipartParserInit boundary = { multipartBoundary := boundary } := by
  have hnul : cStr boundary = boundary := StringStream.takeWhile_last 0 boundary h
  rw [multipartParserInit, hnul]

/-- Characters that may stand in a header value, behind the two hyphens. -/
theorem isDelimiter_hyphens (s : Bytes) (h : ∀ c ∈ s, c = 9 ∨ 32 ≤ c ∧ c ≠ 127) :
    IsDelimiter (bytes "--" ++ s) := by
  have hhyphens : bytes "--" ≠ [] ∧ 0 ∉ bytes "--" ∧ CR ∉ bytes "--" := by decide
  have hs : ∀ c : UInt8, ¬ (c = 9 ∨ 32 ≤ c ∧ c ≠ 127) → c ∉ s := fun c hc hm => hc (h c hm)
  simp only [IsDelimiter, List.mem_append, not_or]
  exact ⟨by simp [hhyphens.1], ⟨hhyphens.2.1, hs 0 (by decide)⟩, hhyphens.2.2, hs CR (by decide)⟩

theorem LegalBoundary.isDelimiter {B : Bytes} (h : LegalBoundary B) :
    IsDelimiter (bytes "--" ++ B) := isDelimiter_hyphens B fun c hc => (h.chars c hc).1

/-- The body from a boundary on: what follows it, part by part. -/
theorem encodeParts_eq (boundary : Bytes) (parts : List MultipartPart) :
    encodeParts boundary parts = bytes "--" ++ boundary ++
      (parts.flatMap fun p => crlf ++ p.encode ++ delimiter (bytes "--" ++ boundary)) ++
      bytes "--" := by
  induction parts with
  | nil => simp [encodeParts]
  | cons p parts ih =>
    rw [encodeParts, ih]
    simp [delimiter, crlf]

/-! ## What the parser reads -/

namespace MultipartParser

open MultipartState MultipartEvent

theorem boundary_step (p p' : MultipartParser) (c : UInt8) (isLast : Bool)
    (es : List MultipartEvent) (h : p.step c isLast = some (es, p')) :
    p'.multipartBoundary = p.multipartBoundary := by
  cases hs : p.state <;> simp only [step, hs] at h <;>
    grind [stepStartBoundary, stepHeaderField, stepHeaderValue, stepPartData, putBack]

/-- The boundary stays. -/
theorem boundary_read (p p' : MultipartParser) (l : Bytes) (es : List MultipartEvent)
    (h : p.read l = some (es, p')) : p'.multipartBoundary = p.multipartBoundary :=
  Scan.scan_invariant _ (fun q _ => q.multipartBoundary = p.multipartBoundary)
    (fun q _ c fs q' hq hs => (boundary_step q q' c false fs hs).trans hq) p [] l rfl es p' h

/-- A parser state that treats the next byte as another one does reads the same. -/
theorem read_congr (p q : MultipartParser) (c : UInt8) (l : Bytes)
    (h : p.step c false = q.step c false) : p.read (c :: l) = q.read (c :: l) := by
  simp only [read, Scan.scan_cons, h]

theorem read_cons (p p' : MultipartParser) (c : UInt8) (l : Bytes) (es : List MultipartEvent)
    (h : p.step c false = some (es, p')) :
    p.read (c :: l) = (p'.read l).map fun t => (es ++ t.1, t.2) := by
  simp only [read, Scan.scan_cons, h, Option.bind_some]

theorem read_append (p p' : MultipartParser) (l m : Bytes) (es : List MultipartEvent)
    (h : p.read l = some (es, p')) :
    p.read (l ++ m) = (p'.read m).map fun t => (es ++ t.1, t.2) := by
  rw [read] at h
  simp only [read, Scan.scan_append, h, Option.bind_some]

/-- Letters and hyphens make a header name. -/
def fieldChar (c : UInt8) : Bool := c = 45 ∨ 97 ≤ tolower c ∧ tolower c ≤ 122

theorem read_fieldChars (name : Bytes) (h : name.all fieldChar) (p : MultipartParser)
    (hs : p.state = sHeaderField) :
    p.read (name ++ [58]) =
      some ([headerField (p.seg ++ name)],
        { p with seg := p.seg ++ name, state := sHeaderValueStart }) := by
  induction name generalizing p with
  | nil => simp [read, scan, step, hs, stepHeaderField, CR]
  | cons c name ih =>
    rw [List.all_cons, Bool.and_eq_true] at h
    have hstep : p.step c false = some ([], { p with seg := p.seg ++ [c] }) := by
      have hc := h.1
      have hcr : c ≠ CR := by rintro rfl; exact absurd hc (by decide)
      have hcolon : c ≠ 58 := by rintro rfl; exact absurd hc (by decide)
      have hchar : ¬ (c ≠ 45 ∧ (tolower c < 97 ∨ 122 < tolower c)) := by
        simp only [fieldChar, decide_eq_true_eq] at hc
        grind
      simp [step, hs, stepHeaderField, hcr, hcolon, hchar]
    rw [List.cons_append, read_cons p _ c _ [] hstep, ih h.2 { p with seg := p.seg ++ [c] } hs]
    simp

theorem read_valueChars (value : Bytes) (h : CR ∉ value) (p : MultipartParser)
    (hs : p.state = sHeaderValue) :
    p.read (value ++ crlf) =
      some ([headerValue (p.seg ++ value)],
        { p with seg := p.seg ++ value, state := sHeaderFieldStart }) := by
  induction value generalizing p with
  | nil => simp [read, scan, step, hs, stepHeaderValue, crlf]
  | cons c value ih =>
    rw [List.mem_cons, not_or] at h
    have hc : c ≠ CR := fun e => h.1 e.symm
    have hstep : p.step c false = some ([], { p with seg := p.seg ++ [c] }) := by
      simp [step, hs, stepHeaderValue, hc]
    rw [List.cons_append, read_cons p _ c _ [] hstep, ih h.2 { p with seg := p.seg ++ [c] } hs]
    simp

/-- Spaces in front of a value are skipped. -/
theorem read_value (text : Bytes) (h : CR ∉ text) (p : MultipartParser)
    (hs : p.state = sHeaderValueStart) :
    ∃ p', p.read (text ++ crlf) = some ([headerValue (text.dropWhile (· = 32))], p') ∧
      p'.state = sHeaderFieldStart := by
  induction text generalizing p with
  | nil =>
    have hread := read_valueChars [] h { p with seg := [], state := sHeaderValue } rfl
    refine ⟨{ p with seg := [], state := sHeaderFieldStart }, ?_, rfl⟩
    rw [List.nil_append, crlf] at hread ⊢
    rw [read_congr p { p with seg := [], state := sHeaderValue } CR [LF]
      (by simp only [step, hs]; rfl), hread]
    rfl
  | cons c text ih =>
    have htext : CR ∉ text := fun hc => h (List.mem_cons_of_mem _ hc)
    by_cases hc : c = 32
    · obtain ⟨p', hread, hs'⟩ := ih htext p hs
      refine ⟨p', ?_, hs'⟩
      have hstep : p.step c false = some ([], p) := by simp only [step, hs, hc, ↓reduceIte]
      rw [List.cons_append, read_cons p p c _ [] hstep, hread]
      simp [hc]
    · have hread := read_valueChars (c :: text) h { p with seg := [], state := sHeaderValue } rfl
      refine ⟨{ p with seg := c :: text, state := sHeaderFieldStart }, ?_, rfl⟩
      rw [List.cons_append] at hread ⊢
      rw [read_congr p { p with seg := [], state := sHeaderValue } c _
        (by simp only [step, hs, hc, ↓reduceIte]), hread]
      simp [hc]

/-- **A header line.** -/
theorem read_fieldLine (name text : Bytes) (hname : name ≠ []) (hchars : name.all fieldChar)
    (htext : CR ∉ text) (p : MultipartParser) (hs : p.state = sHeaderFieldStart) :
    ∃ p', p.read (fieldLine name text) =
        some ([headerField name, headerValue (text.dropWhile (· = 32))], p') ∧
      p'.state = sHeaderFieldStart := by
  obtain ⟨c, rest, rfl⟩ := List.exists_cons_of_ne_nil hname
  have hfield : p.read (c :: rest ++ [58]) = some ([headerField (c :: rest)],
      { p with seg := c :: rest, state := sHeaderValueStart }) := by
    have h := read_fieldChars (c :: rest) hchars { p with seg := [], state := sHeaderField } rfl
    rw [List.cons_append] at h ⊢
    rw [read_congr p { p with seg := [], state := sHeaderField } c _ (by simp only [step, hs]), h]
    rfl
  obtain ⟨p', hvalue, hs'⟩ := read_value text htext
    { p with seg := c :: rest, state := sHeaderValueStart } rfl
  refine ⟨p', ?_, hs'⟩
  have hline : fieldLine (c :: rest) text = (c :: rest ++ [58]) ++ (text ++ crlf) := by
    simp [fieldLine]
  rw [hline, read_append p _ _ _ _ hfield, hvalue]
  rfl

theorem read_headerLine (name value : Bytes) (hname : name ≠ []) (hchars : name.all fieldChar)
    (hvalue : CR ∉ value) (hspace : value.head? ≠ some 32) (p : MultipartParser)
    (hs : p.state = sHeaderFieldStart) :
    ∃ p', p.read (headerLine name value) = some ([headerField name, headerValue value], p') ∧
      p'.state = sHeaderFieldStart := by
  have hcr : CR ∉ 32 :: value := by
    rw [List.mem_cons, not_or]
    exact ⟨by decide, hvalue⟩
  have hskip : (32 :: value).dropWhile (· = 32) = value := by
    cases value with
    | nil => rfl
    | cons c value =>
      have hc : c ≠ 32 := fun e => hspace (by rw [e]; rfl)
      simp [hc]
  obtain ⟨p', hread, hs'⟩ := read_fieldLine name (32 :: value) hname hchars hcr p hs
  rw [hskip] at hread
  refine ⟨p', ?_, hs'⟩
  have hcolon : bytes ": " = [58, 32] := by decide
  rw [← hread, headerLine, fieldLine, hcolon]
  simp

/-- The line end between a delimiter and the headers of a part. -/
theorem read_partBegin (p : MultipartParser)
    (hs : p.state = sPartDataAlmostEnd ∨
      p.state = sStartBoundary ∧ p.index = p.multipartBoundary.length) :
    ∃ p', p.read crlf = some ([partDataBegin], p') ∧ p'.state = sHeaderFieldStart := by
  rcases hs with hs | ⟨hs, hi⟩
  · exact ⟨{ p with state := sHeaderFieldStart }, by simp [read, scan, step, hs, crlf, CR], rfl⟩
  · refine ⟨{ p with index := 0, state := sHeaderFieldStart }, ?_, rfl⟩
    simp [read, scan, step, hs, stepStartBoundary, hi, crlf]

/-- The empty line behind the headers. -/
theorem read_headersEnd (p : MultipartParser) (hs : p.state = sHeaderFieldStart) :
    ∃ p', p.read crlf = some ([], p') ∧ p'.state = sPartDataStart :=
  ⟨{ p with seg := [], state := sPartDataStart },
    by simp [read, scan, step, hs, stepHeaderField, crlf], rfl⟩

theorem read_startBoundary (done rest : Bytes) (p : MultipartParser) (hs : p.state = sStartBoundary)
    (hb : p.multipartBoundary = done ++ rest) (hi : p.index = done.length) :
    p.read rest = some ([], { p with index := p.multipartBoundary.length }) := by
  induction rest generalizing done p with
  | nil =>
    have hend : p.multipartBoundary.length = p.index := by simp [hb, hi]
    rw [hend]
    rfl
  | cons c rest ih =>
    have hget : p.multipartBoundary[p.index]? = some c := by simp [hb, hi]
    have hlt : p.index < p.multipartBoundary.length := (List.getElem?_eq_some_iff.mp hget).1
    have hstep : p.step c false = some ([], { p with index := p.index + 1 }) := by
      have h1 : p.index ≠ p.multipartBoundary.length := by omega
      have h2 : p.index ≠ p.multipartBoundary.length + 1 := by omega
      simp [step, hs, stepStartBoundary, h1, h2, hget]
    rw [read_cons p _ c _ [] hstep,
      ih (done ++ [c]) { p with index := p.index + 1 } hs (by simp [hb]) (by simp [hi])]
    rfl

/-- The first delimiter. -/
theorem read_start (boundary : Bytes) (hne : boundary ≠ []) (p : MultipartParser)
    (hb : p.multipartBoundary = boundary) (hs : p.state = sStart) :
    ∃ p', p.read boundary = some ([], p') ∧ p'.state = sStartBoundary ∧
      p'.index = p'.multipartBoundary.length := by
  have h := read_startBoundary [] boundary { p with index := 0, state := sStartBoundary } rfl hb rfl
  refine ⟨{ p with index := p.multipartBoundary.length, state := sStartBoundary }, ?_, rfl, rfl⟩
  obtain ⟨c, l, rfl⟩ := List.exists_cons_of_ne_nil hne
  rw [read_congr p { p with index := 0, state := sStartBoundary } c l (by simp only [step, hs]), h]

/-- The two hyphens behind the last delimiter. -/
theorem read_close (p : MultipartParser) (hs : p.state = sPartDataAlmostEnd) :
    ∃ p', p.read (bytes "--") = some ([bodyEnd], p') ∧ p'.state = sEnd := by
  have hhyphens : bytes "--" = [45, 45] := by decide
  exact ⟨{ p with state := sEnd }, by simp [hhyphens, read, scan, step, hs], rfl⟩

/-- Behind the end everything is ignored. -/
theorem read_epilogue (l : Bytes) (p : MultipartParser) (hs : p.state = sEnd) :
    p.read l = some ([], p) := by
  induction l with
  | nil => rfl
  | cons c l ih =>
    have hstep : p.step c false = some ([], p) := by simp only [step, hs]
    rw [read_cons p p c l [] hstep, ih]
    rfl

end MultipartParser

end Ehttp
