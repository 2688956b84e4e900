import Ehttp.Lib.PushParser
import Ehttp.Multipart.Disposition

/-!
# Decoding the canonical body

Each piece of `encodeParts` is a triple of the multipart parser and its
callbacks: a part appends its item, the closing delimiter enters the items
among the params.

* `ssParseMultiDisposition_disposition`: the disposition line is taken apart;
* `reads_part`, `reads_encodeParts`: one part, and the whole body;
* `parseMultipartBody_encodeParts`: the return is 0, the items are the parts.
-/

namespace Ehttp

open Lib

/-! ## The disposition line -/

/-- The item of a part that was read in full. -/
def MultipartPart.item (p : MultipartPart) : FileItem where
  isFile := p.filename.isSome
  parseState := PARSE_MULTI_OVER ≠ 0
  contentType := p.contentType.getD []
  name := p.name
  filename := p.filename.getD []
  data := p.data

/-- The item behind the disposition line. -/
def MultipartPart.named (p : MultipartPart) : FileItem where
  isFile := p.filename.isSome
  parseState := PARSE_MULTI_DISPOSITION ≠ 0
  name := p.name
  filename := p.filename.getD []

theorem legalName_not_mem {s : Bytes} (h : MultipartPart.LegalName s) : 61 ∉ s ∧ 59 ∉ s ∧ CR ∉ s :=
  ⟨fun hc => (h 61 hc).2.2.1 rfl, fun hc => (h 59 hc).2.1 rfl, fun hc => (h CR hc).2.2.2.1 rfl⟩

theorem ssParseMultiDisposition_disposition (boundary : Bytes) (p : MultipartPart)
    (h : p.Legal boundary) (hlen : p.disposition.length < 2 ^ 64) :
    ssParseMultiDisposition p.disposition (FileItem.setParseState {} PARSE_MULTI_DISPOSITION) =
      (.ret 0, p.named) := by
  obtain ⟨hname, hname', -⟩ := legalName_not_mem h.name
  have hfile : ∀ f ∈ p.filename, Undelimited f := by
    intro f hf
    obtain ⟨hfn, hfn', -⟩ := legalName_not_mem (h.filename f hf)
    exact ⟨hfn', hfn⟩
  show ssParseMultiDisposition (formData p.name p.filename) _ = _
  rw [ssParseMultiDisposition_formData p.name p.filename _ ⟨hname', hname⟩ hfile hlen]
  cases hf : p.filename with
  | none => simp [FileItem.described, MultipartPart.named, hf, FileItem.setName,
      FileItem.setParseState]
  | some filename => simp [FileItem.described, MultipartPart.named, hf, FileItem.setName,
      FileItem.setIsFile, FileItem.setFilename, FileItem.setParseState]

/-! ## The callbacks of one part -/

section Callbacks

variable (b : RequestBody)

/-- A body with another item. -/
def RequestBody.push (item : FileItem) : RequestBody :=
  { b with fileItems := b.fileItems ++ [item] }

theorem run_disposition (boundary : Bytes) (p : MultipartPart) (h : p.Legal boundary)
    (hlen : p.disposition.length < 2 ^ 64) :
    runAll multipartCallback
      [.headerField (bytes "Content-Disposition"), .headerValue p.disposition] b =
        (none, b.push p.named) := by
  have hfresh := ssParseMultiDisposition_disposition boundary p h hlen
  have hstate : (FileItem.setParseState {} PARSE_MULTI_DISPOSITION).getParseState =
      PARSE_MULTI_DISPOSITION := rfl
  have hname : ssOnMultipartName (bytes "Content-Disposition") b =
      (.ret 0, b.push (FileItem.setParseState {} PARSE_MULTI_DISPOSITION)) := by
    have hct : bytes "Content-Disposition" ≠ bytes "Content-Type" := by decide
    simp only [ssOnMultipartName, hct, ↓reduceIte]
    rfl
  obtain ⟨fresh, hf⟩ : ∃ item, FileItem.setParseState {} PARSE_MULTI_DISPOSITION = item := ⟨_, rfl⟩
  rw [hf] at hfresh hstate hname
  have hitem : FileItem.onValue p.disposition fresh = (.ret 0, p.named) := by
    simp only [FileItem.onValue, hstate, hfresh, ↓reduceIte]
    rfl
  have hvalue : ssOnMultipartValue p.disposition (b.push fresh) = (.ret 0, b.push p.named) := by
    simp [ssOnMultipartValue, RequestBody.push, updateBack_snoc, hitem]
  simp [runAll, multipartCallback, hname, hvalue]

theorem run_contentType (item : FileItem) (contentType : Bytes) :
    runAll multipartCallback [.headerField (bytes "Content-Type"), .headerValue contentType]
      (b.push item) =
        (none, b.push { item with parseState := true, contentType := contentType }) := by
  have hname : ssOnMultipartName (bytes "Content-Type") (b.push item) =
      (.ret 0, b.push { item with parseState := true }) := by
    have hcd : bytes "Content-Type" ≠ bytes "Content-Disposition" := by decide
    have hstate : (PARSE_MULTI_CONTENT_TYPE ≠ 0) = True := by decide
    simp [ssOnMultipartName, hcd, RequestBody.push, updateBack_snoc, FileItem.setParseState, hstate]
  have hvalue : ssOnMultipartValue contentType (b.push { item with parseState := true }) =
      (.ret 0, b.push { item with parseState := true, contentType := contentType }) := by
    simp [ssOnMultipartValue, RequestBody.push, updateBack_snoc, FileItem.onValue,
      FileItem.getParseState, PARSE_MULTI_DISPOSITION, PARSE_MULTI_CONTENT_TYPE,
      FileItem.setContentType]
  simp [runAll, multipartCallback, hname, hvalue]

/-- The fragments of the data are glued to the last item. -/
theorem run_data (item : FileItem) (datas : List Bytes) :
    runAll multipartCallback (datas.map .partData) (b.push item) =
      (none, b.push (item.appendData datas.flatten)) := by
  induction datas generalizing item with
  | nil => simp [runAll, FileItem.appendData]
  | cons d datas ih =>
    have hd : multipartCallback (.partData d) (b.push item) =
        (.ret 0, b.push (item.appendData d)) := by
      cases d with
      | nil => simp [multipartCallback, ssOnMultipartData, FileItem.appendData]
      | cons c d =>
        simp [multipartCallback, ssOnMultipartData, RequestBody.push, updateBack_snoc]
    rw [List.map_cons, RunAll.runAll_cons_ok _ _ _ _ (by rw [hd]), hd, ih]
    simp [FileItem.appendData]

theorem run_partData (item : FileItem) (datas : List Bytes) :
    runAll multipartCallback (.headersComplete :: datas.map .partData ++ [.partDataEnd])
      (b.push item) =
        (none, b.push { item with data := item.data ++ datas.flatten, parseState := true }) := by
  have hover : multipartCallback .partDataEnd (b.push (item.appendData datas.flatten)) =
      (.ret 0, b.push { item with data := item.data ++ datas.flatten, parseState := true }) := by
    have hstate : (PARSE_MULTI_OVER ≠ 0) = True := by decide
    simp [multipartCallback, ssOnMultipartDataOver, RequestBody.push, updateBack_snoc,
      FileItem.appendData, FileItem.setParseState, hstate]
  rw [List.cons_append, RunAll.runAll_cons_ok _ _ _ _ rfl,
    RunAll.runAll_append_ok _ _ _ _ (by rw [show (multipartCallback .headersComplete
      (b.push item)).2 = b.push item from rfl, run_data])]
  simp only [show (multipartCallback .headersComplete (b.push item)).2 = b.push item from rfl,
    run_data]
  simp [runAll, hover]

end Callbacks

/-! ## Triples -/

section Triples

open MultipartParser MultipartState

/-- The parser in a known state, the request body known. -/
def At (boundary : Bytes) (state : MultipartState) (b : RequestBody) (p : MultipartParser)
    (t : RequestBody) : Prop := p.multipartBoundary = boundary ∧ p.state = state ∧ t = b

/-- Triples of the multipart parser. -/
abbrev Reads (P : MultipartParser → RequestBody → Prop) (l : Bytes)
    (Q : MultipartParser → RequestBody → Prop) : Prop :=
  Triple (fun p c => p.step c false) multipartCallback P l Q

variable (boundary : Bytes)

/-- A piece that takes one state to another. -/
theorem reads_at (state state' : MultipartState) (b b' : RequestBody) (l : Bytes)
    (h : ∀ p : MultipartParser, p.multipartBoundary = boundary → p.state = state →
      ∃ es p', p.read l = some (es, p') ∧ p'.state = state' ∧
        runAll multipartCallback es b = (none, b')) :
    Reads (At boundary state b) l (At boundary state' b') := by
  rintro p t ⟨hb, hs, rfl⟩
  obtain ⟨es, p', hread, hs', hrun⟩ := h p hb hs
  exact ⟨es, p', b', hread, hrun, (boundary_read p p' l es hread).trans hb, hs', rfl⟩

theorem reads_disposition (B : Bytes) (b : RequestBody) (p : MultipartPart) (h : p.Legal B)
    (hlen : p.disposition.length < 2 ^ 64) :
    Reads (At boundary sHeaderFieldStart b) (headerLine (bytes "Content-Disposition") p.disposition)
      (At boundary sHeaderFieldStart (b.push p.named)) := by
  have hcr : CR ∉ p.disposition := by
    obtain ⟨-, -, hname⟩ := legalName_not_mem h.name
    have hform : CR ∉ bytes "form-data; name=" := by decide
    have hfile : CR ∉ bytes "; filename=" := by decide
    have hquote : CR ≠ 34 := by decide
    cases hf : p.filename with
    | none => simp [MultipartPart.disposition, hf, quoted, hform, hname, hquote]
    | some filename =>
      obtain ⟨-, -, hfn⟩ := legalName_not_mem (h.filename filename hf)
      simp [MultipartPart.disposition, hf, quoted, hform, hfile, hname, hfn, hquote]
  have hspace : p.disposition.head? ≠ some 32 := by
    have hform : bytes "form-data; name=" = 102 :: bytes "orm-data; name=" := by decide
    simp [MultipartPart.disposition, hform]
  apply reads_at
  intro q hb hs
  obtain ⟨q', hread, hs'⟩ := read_headerLine (bytes "Content-Disposition") p.disposition (by decide)
    (by decide) hcr hspace q hs
  exact ⟨_, q', hread, hs', run_disposition b B p h hlen⟩

/-- The item once its header lines are read. -/
def MultipartPart.headed (p : MultipartPart) : FileItem :=
  match p.contentType with
  | none => p.named
  | some contentType => { p.named with parseState := true, contentType := contentType }

theorem reads_contentType (B : Bytes) (b : RequestBody) (p : MultipartPart) (h : p.Legal B) :
    Reads (At boundary sHeaderFieldStart (b.push p.named)) p.typeLine
      (At boundary sHeaderFieldStart (b.push p.headed)) := by
  apply reads_at
  intro q hb hs
  cases hc : p.contentType with
  | none =>
    refine ⟨[], q, ?_, hs, by simp [MultipartPart.headed, hc, runAll]⟩
    rw [MultipartPart.typeLine, hc]
    rfl
  | some contentType =>
    obtain ⟨hcr, -, hspace⟩ := h.contentType contentType hc
    obtain ⟨q', hread, hs'⟩ := read_headerLine (bytes "Content-Type") contentType (by decide)
      (by decide) hcr hspace q hs
    refine ⟨_, q', by rw [MultipartPart.typeLine, hc]; exact hread, hs', ?_⟩
    rw [run_contentType]
    simp [MultipartPart.headed, hc]

theorem reads_data (hne : boundary ≠ []) (hcr : CR ∉ boundary) (b : RequestBody)
    (p : MultipartPart) (hd : ¬ delimiter boundary <:+: p.data) :
    Reads (At boundary sPartDataStart (b.push p.headed)) (p.data ++ delimiter boundary)
      (At boundary sPartDataAlmostEnd (b.push p.item)) := by
  apply reads_at
  intro q hb hs
  obtain ⟨datas, q', hread, hdata, hs'⟩ := read_partData boundary p.data hne hcr hd q hb hs
  refine ⟨_, q', hread, hs', ?_⟩
  rw [run_partData, hdata]
  cases hc : p.contentType <;>
    simp [MultipartPart.headed, MultipartPart.item, MultipartPart.named, hc, PARSE_MULTI_OVER]

/-- The parser behind a delimiter with parts before it: the first delimiter is
read in a state of its own. -/
def AfterParts (b : RequestBody) (parts : List MultipartPart) (p : MultipartParser)
    (t : RequestBody) : Prop :=
  p.multipartBoundary = boundary ∧
    (if parts = [] then p.state = sStartBoundary ∧ p.index = p.multipartBoundary.length
      else p.state = sPartDataAlmostEnd) ∧
    t = { b with fileItems := b.fileItems ++ parts.map MultipartPart.item }

/-- **One part**, with the delimiter that ends it. -/
theorem reads_part (hne : boundary ≠ []) (hcr : CR ∉ boundary) (B : Bytes) (b : RequestBody)
    (front : List MultipartPart) (p : MultipartPart) (h : p.Legal B)
    (hd : ¬ delimiter boundary <:+: p.data) (hlen : p.disposition.length < 2 ^ 64) :
    Reads (AfterParts boundary b front) (crlf ++ p.encode ++ delimiter boundary)
      (AfterParts boundary b (front ++ [p])) := by
  obtain ⟨b₁, hb₁⟩ : ∃ b₁ : RequestBody,
    b₁ = { b with fileItems := b.fileItems ++ front.map MultipartPart.item } := ⟨_, rfl⟩
  have hbegin : Reads (AfterParts boundary b front) crlf (At boundary sHeaderFieldStart b₁) := by
    rintro q t ⟨hb, hs, rfl⟩
    have hs' : q.state = sPartDataAlmostEnd ∨
        q.state = sStartBoundary ∧ q.index = q.multipartBoundary.length := by
      split at hs
      · exact Or.inr hs
      · exact Or.inl hs
    obtain ⟨q', hread, hst⟩ := read_partBegin q hs'
    exact ⟨_, q', b₁, hread, by rw [hb₁]; rfl, (boundary_read q q' _ _ hread).trans hb, hst, rfl⟩
  have hempty : Reads (At boundary sHeaderFieldStart (b₁.push p.headed)) crlf
      (At boundary sPartDataStart (b₁.push p.headed)) := by
    apply reads_at
    intro q hb hs
    obtain ⟨q', hread, hs'⟩ := read_headersEnd q hs
    exact ⟨[], q', hread, hs', rfl⟩
  have hpart := hbegin.append ((reads_disposition boundary B b₁ p h hlen).append
    ((reads_contentType boundary B b₁ p h).append
      (hempty.append (reads_data boundary hne hcr b₁ p hd))))
  intro q t hq
  obtain ⟨es, q', t', hread, hrun, hb', hs', rfl⟩ := hpart q t hq
  refine ⟨es, q', _, ?_, hrun, hb', ?_, ?_⟩
  · rw [← hread]
    congr 1
    simp only [MultipartPart.encode, List.append_assoc]
  · rw [if_neg (by simp)]
    exact hs'
  · simp [RequestBody.push, hb₁]

/-- **The whole body**, with anything behind it. -/
theorem reads_encodeParts (B epilogue : Bytes) (hB : LegalBoundary B) (b : RequestBody)
    (parts : List MultipartPart) (hne : parts ≠ []) (h : ∀ p ∈ parts, p.Legal B)
    (hlen : ∀ p ∈ parts, p.disposition.length < 2 ^ 64) :
    Reads (At (bytes "--" ++ B) sStart b) (encodeParts B parts ++ epilogue)
      (At (bytes "--" ++ B) sEnd
        { b with fileItems := b.fileItems ++ parts.map MultipartPart.item }.parseMultiParams.2) := by
  obtain ⟨hboundary, -, hcr⟩ := hB.isDelimiter
  have hstart : Reads (At (bytes "--" ++ B) sStart b) (bytes "--" ++ B)
      (AfterParts (bytes "--" ++ B) b []) := by
    rintro q t ⟨hb, hs, rfl⟩
    obtain ⟨q', hread, hs'⟩ := read_start (bytes "--" ++ B) hboundary q hb hs
    refine ⟨[], q', t, hread, rfl, (boundary_read q q' _ _ hread).trans hb, ?_, by simp⟩
    rw [if_pos rfl]
    exact hs'
  have hparts := Triple.flatMap (AfterParts (bytes "--" ++ B) b) parts (by
    intro front p back hsplit
    have hp : p ∈ parts := by simp [hsplit]
    refine reads_part (bytes "--" ++ B) hboundary hcr B b front p (h p hp) ?_ (hlen p hp)
    have hd := (h p hp).data
    rwa [List.append_assoc] at hd)
  have hclose : Reads (AfterParts (bytes "--" ++ B) b parts) (bytes "--")
      (At (bytes "--" ++ B) sEnd
        { b with fileItems := b.fileItems ++ parts.map MultipartPart.item }.parseMultiParams.2) := by
    rintro q t ⟨hb, hs, rfl⟩
    rw [if_neg hne] at hs
    obtain ⟨q', hread, hs'⟩ := read_close q hs
    exact ⟨_, q', _, hread, rfl, (boundary_read q q' _ _ hread).trans hb, hs', rfl⟩
  have hepilogue : ∀ t, Reads (At (bytes "--" ++ B) sEnd t) epilogue
      (At (bytes "--" ++ B) sEnd t) := by
    intro t
    apply reads_at
    intro q hb hs
    exact ⟨[], q, read_epilogue epilogue q hs, hs, rfl⟩
  rw [encodeParts_eq]
  exact ((hstart.append hparts).append hclose).append (hepilogue _)

end Triples

/-- **Decoding** the canonical body. -/
theorem parseMultipartBody_encodeParts (ct B epilogue : Bytes) (hB : LegalBoundary B)
    (hct : multipartBoundary ct = some (bytes "--" ++ B)) (b : RequestBody)
    (parts : List MultipartPart) (hne : parts ≠ []) (h : ∀ p ∈ parts, p.Legal B)
    (hlen : ∀ p ∈ parts, p.disposition.length < 2 ^ 64)
    (hbody : b.rawString = encodeParts B parts ++ epilogue) :
    parseMultipartBody ct b = (.ret 0,
      { b with fileItems := b.fileItems ++ parts.map MultipartPart.item }.parseMultiParams.2) := by
  have hinit := multipartParserInit_eq (bytes "--" ++ B) hB.isDelimiter.2.1
  obtain ⟨es, p, b', hread, hrun, -, hs, rfl⟩ := reads_encodeParts B epilogue hB b parts hne h hlen
    (multipartParserInit (bytes "--" ++ B)) b ⟨by rw [hinit], by rw [hinit], rfl⟩
  have hlog : (multipartParserInit (bytes "--" ++ B)).log b.rawString = some (es, p) := by
    have hflush : p.flush = [] := by simp [MultipartParser.flush, hs]
    rw [hbody, MultipartParser.log]
    show ((scan _ _ _).map _) = _
    rw [hread]
    simp [hflush]
  have hraw : b.rawString ≠ [] := by
    rw [hbody, encodeParts_eq]
    have hhyphens : bytes "--" ≠ [] := by decide
    simp [hhyphens]
  rw [parseMultipartBody_log ct _ b hraw hct es p hlog, hrun]
  rfl

end Ehttp
