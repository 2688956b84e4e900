import Ehttp.Http.Lines

/-!
# Requests on the wire

A request as a client writes it: a head, and no body, one of the length that is
announced, or chunks with trailers behind them.

* `says_chunks`: chunks are one body, wherever they are cut;
* `oneMessage_wire`: the bytes of a legal request are one message, with its content.
-/

namespace Ehttp.Http

open Lib

/-! ## The end of the headers -/

theorem AtLine.says_cr {c c₀ : Parser} {pre : List Op} {front : List Said} (h : AtLine c c₀ pre front)
    (hfit : c₀.nread + 1 ≤ maxHeaderSize) :
    Says c [CR] (c₀.reach 1 .headersAlmostDone) fun _ => front := by
  have hstep : byteStep c CR = some (pre ++ [.pass [CR]], c₀.reach 1 .headersAlmostDone) := by
    refine h.read (by decide) (by decide) hfit pre ?_
    rw [sHeaderFieldStart, if_pos rfl]
    rfl
  refine Tells.byte _ hstep fun n => ?_
  rw [MarkOp.meaning_append, h.said]
  simp [MarkOp.meaning, MarkOp.mean]

/-- Behind the headers goes what they tell, and no other protocol. -/
structure Framing.Plain (f : Framing) : Prop where
  notConnect : f.parser.method ≠ .connect
  notTrailing : f.trailing = false
  noUpgrade : f.upgrade = false
  noSkip : f.skipbody = false
  oneLength : ¬ (f.chunked = true ∧ f.contentlength = true)

section HeadEnd

variable {c : Parser} (hs : c.state = .headersAlmostDone) (hfit : c.nread + 1 ≤ maxHeaderSize)
  (hf : c.framing.Plain)

include hs hf in
theorem step_headEnd : step (c.count 1) LF = sHeadersDone { c with state := .headersDone, upgrade := false } LF
    [.notify (c.toHttpParser, .headersComplete) 0] := by
  obtain ⟨hconnect, htrailing, hupgrade, -, hone⟩ := hf
  simp only [Parser.framing] at hconnect htrailing hupgrade hone
  simp only [step, move, hs, sHeadersAlmostDone, Parser.count, htrailing, hupgrade, hone,
    Bool.false_eq_true, false_and, ↓reduceIte, hconnect, decide_false, List.nil_append]
  rfl

/-- The parser behind the head, which reads on in the state `s`. -/
def Parser.behindHead (c : Parser) (s : State) : Parser := { c with state := s, upgrade := false, nread := 0 }

include hs hfit hf in
theorem byteStep_headEnd (s : State) (ops : List Op)
    (h : sHeadersDone { c with state := .headersDone, upgrade := false } LF
      [.notify (c.toHttpParser, .headersComplete) 0] = (c.behindHead s).go LF ops) :
    byteStep c LF = some (ops ++ [.pass [LF]], c.behindHead s) :=
  byteStep_go ops (by rw [hs]; rfl) (upgraded_of_ne (by rw [hs]; decide)) hfit ((step_headEnd hs hf).trans h)

include hs hfit hf in
theorem says_headEnd_chunked (hc : c.framing.chunked = true) :
    Says c [LF] (c.behindHead .chunkSizeStart) fun n => [headersCompleteSaid c.toHttpParser n] := by
  have hskip : c.flags.skipbody = false := hf.noSkip
  have hc : c.flags.chunked = true := hc
  refine Tells.byte _ (byteStep_headEnd hs hfit hf _ [.notify (c.toHttpParser, .headersComplete) 0] ?_) fun n => rfl
  simp only [sHeadersDone, hskip, hc, Bool.false_eq_true, false_and, ↓reduceIte]
  rfl

include hs hfit hf in
theorem says_headEnd_identity (hc : c.framing.chunked = false) (hzero : c.framing.contentLength ≠ 0)
    (hmax : c.framing.contentLength ≠ ULLONG_MAX) :
    Says c [LF] (c.behindHead .bodyIdentity) fun n => [headersCompleteSaid c.toHttpParser n] := by
  have hskip : c.flags.skipbody = false := hf.noSkip
  have hc : c.flags.chunked = false := hc
  have hzero : c.contentLength ≠ 0 := hzero
  have hmax : c.contentLength ≠ ULLONG_MAX := hmax
  refine Tells.byte _ (byteStep_headEnd hs hfit hf _ [.notify (c.toHttpParser, .headersComplete) 0] ?_) fun n => rfl
  simp only [sHeadersDone, hskip, hc, hzero, hmax, Bool.false_eq_true, false_and, ↓reduceIte, ne_eq,
    not_false_eq_true]
  rfl

include hs hfit hf in
theorem says_headEnd_none (hc : c.framing.chunked = false)
    (hlength : c.framing.contentLength = 0 ∨ c.framing.contentLength = ULLONG_MAX) :
    Says c [LF] (c.behindHead .startReq) fun n =>
      [headersCompleteSaid c.toHttpParser n, messageCompleteSaid c.toHttpParser (n + 1)] := by
  have hskip : c.flags.skipbody = false := hf.noSkip
  have hc : c.flags.chunked = false := hc
  refine Tells.byte _ (byteStep_headEnd hs hfit hf _ [.notify (c.toHttpParser, .headersComplete) 0,
    .notify (c.toHttpParser, .messageComplete) 1] ?_) fun n => rfl
  simp only [sHeadersDone, hskip, hc, Bool.false_eq_true, false_and, ↓reduceIte]
  rcases hlength with hlength | hlength
  · have hlength : c.contentLength = 0 := hlength
    rw [if_pos hlength]
    rfl
  · have hlength : c.contentLength = ULLONG_MAX := hlength
    rw [if_neg (by rw [hlength]; decide), if_neg (by simp [hlength])]
    rfl

end HeadEnd

/-! ## A body of the length that is announced -/

theorem says_identity {c : Parser} (hs : c.state = .bodyIdentity) (hmax : c.contentLength < ULLONG_MAX)
    {u : Bytes} (hu : u ≠ []) (hlen : u.length = c.contentLength) :
    Says c u { c with contentLength := 0, state := .startReq } fun n =>
      bodySaid c.toHttpParser u ++ [messageCompleteSaid c.toHttpParser (n + u.length)] := by
  refine ⟨_, scan_bodyDone hs hmax u hu hlen, fun n => ?_⟩
  obtain ⟨hend, hsaid⟩ := Tells.meaning_marks channel Prod.fst (ν := HttpParser × Notice)
    (x := (DataKind.body, c.toHttpParser)) hu none n
  have hdone : MarkOp.meaning channel Prod.fst (bodyDoneOps c)
      (some (channel (.body, c.toHttpParser)), n + u.length) =
        ([messageCompleteSaid c.toHttpParser (n + u.length)], none, n + u.length) := rfl
  have hbody : bodySaid c.toHttpParser u = [.data (channel (.body, c.toHttpParser)) u] := if_neg hu
  have hmeaning := MarkOp.meaning_append channel Prod.fst (u.flatMap (bodyOps c)) (bodyDoneOps c) (none, n)
  change (MarkOp.meaning channel Prod.fst (u.flatMap (bodyOps c)) (none, n)).2 = _ at hend
  rw [hend, hdone] at hmeaning
  rw [hmeaning, hbody]
  exact ⟨rfl, Output.join_congr hsaid rfl⟩

/-! ## Chunks -/

structure Chunk where
  size : Bytes
  extension : Bytes
  data : Bytes
  deriving DecidableEq, Repr

/-- The line in front of a chunk. -/
def sizeLine (size extension : Bytes) : Bytes := size ++ extension ++ crlf

/-- A size line of the number `n`. -/
structure SizeLine (size extension : Bytes) (n : Nat) : Prop where
  nonempty : size ≠ []
  hex : ∀ b ∈ size, isHex b
  value : hexValue size = n
  small : n < sizeLimit
  oneLine : CR ∉ extension
  separated : ∀ b, extension.head? = some b → b = 59 ∨ b = 32
  fits : (sizeLine size extension).length ≤ maxHeaderSize

/-- What follows the size. -/
theorem scan_extension {c : Parser} (hs : c.state = .chunkSize ∨ c.state = .chunkParameters)
    (hc : c.flags.chunked = true) (ext : Bytes) (hcr : CR ∉ ext)
    (hsep : c.state = .chunkSize → ∀ b, ext.head? = some b → b = 59 ∨ b = 32)
    (hfit : c.nread + ext.length ≤ maxHeaderSize) :
    ∃ s, scan byteStep c ext = some (ext.map fun b => .pass [b], c.reach ext.length s) ∧
      (s = .chunkSize ∨ s = .chunkParameters) := by
  induction ext generalizing c with
  | nil => exact ⟨c.state, by rw [List.length_nil, reach_self]; rfl, hs⟩
  | cons b ext ih =>
    simp only [List.mem_cons, not_or] at hcr
    simp only [List.length_cons] at hfit
    have hb : b ≠ CR := Ne.symm hcr.1
    have hone : byteStep c b = some ([.pass [b]], c.reach 1 .chunkParameters) := by
      rcases hs with hs | hs
      · have hhex : unhex b = none ∧ (b = 59 ∨ b = 32) := by
          rcases hsep hs b rfl with rfl | rfl
          · exact ⟨by decide, Or.inl rfl⟩
          · exact ⟨by decide, Or.inr rfl⟩
        refine byteStep_over (by rw [hs]; rfl) (by rw [hs]; simp) (by omega) ?_
        simp only [step, move, Parser.count, hs, sChunkSize, hc, hb, hhex, Bool.not_true, Bool.false_eq_true,
          ↓reduceIte]
        rfl
      · refine byteStep_over (by rw [hs]; rfl) (by rw [hs]; simp) (by omega) ?_
        simp only [step, move, Parser.count, hs, sChunkParameters, hc, hb, Bool.not_true, Bool.false_eq_true,
          ↓reduceIte, Parser.reach]
    obtain ⟨s, hscan, hs'⟩ := ih (c := c.reach 1 .chunkParameters) (Or.inr rfl) hc hcr.2
      (fun hno => by cases hno) (by simp only [reach_nread]; omega)
    refine ⟨s, ?_, hs'⟩
    rw [Scan.scan_cons, hone, Option.bind_some, hscan]
    simp [Nat.add_comm 1]

/-- The parser behind a size line. -/
def Parser.sized (c : Parser) (n : Nat) : Parser :=
  { c with
    contentLength := n
    nread := 0
    state := if n = 0 then .headerFieldStart else .chunkData
    flags := if n = 0 then { c.flags with trailing := true } else c.flags }

theorem scan_sizeLine {c : Parser} (hs : c.state = .chunkSizeStart) (hc : c.flags.chunked = true)
    (hn : c.nread = 0) {size extension : Bytes} {n : Nat} (h : SizeLine size extension n) :
    scan byteStep c (sizeLine size extension) =
      some ((sizeLine size extension).map fun b => .pass [b], c.sized n) := by
  obtain ⟨hne, hhex, hvalue, hsmall, hcr, hsep, hfit⟩ := h
  have hlength : (sizeLine size extension).length = size.length + extension.length + 2 := by
    simp [sizeLine, crlf, Nat.add_assoc]
  have hsize := scan_size hs hc hn hne hhex (by omega)
  rw [hvalue, if_pos hsmall] at hsize
  obtain ⟨s, hext, hstate⟩ := scan_extension
    (c := { c.count size.length with contentLength := n, state := .chunkSize }) (Or.inl rfl) hc extension hcr
    (fun _ => hsep) (by simp only [count_nread, hn]; omega)
  obtain ⟨c₁, hc₁⟩ : ∃ c₁ : Parser, c₁ = Parser.reach
    { c.count size.length with contentLength := n, state := .chunkSize } extension.length s := ⟨_, rfl⟩
  rw [← hc₁] at hext
  have hs₁ : c₁.state = s := by rw [hc₁]; rfl
  have hchunked : c₁.flags.chunked = true := by rw [hc₁]; exact hc
  have hn₁ : c₁.nread = size.length + extension.length := by
    rw [hc₁]
    simp [hn]
  have hend : byteStep c₁ CR = some ([.pass [CR]], c₁.reach 1 .chunkSizeAlmostDone) := by
    refine byteStep_over ?_ ?_ (by omega) ?_
    · rcases hstate with rfl | rfl <;> rw [hs₁] <;> rfl
    · rcases hstate with rfl | rfl <;> rw [hs₁] <;> simp
    · rcases hstate with rfl | rfl <;>
        simp only [step, move, Parser.count, hs₁, sChunkSize, sChunkParameters, hchunked, Bool.not_true,
          Bool.false_eq_true, ↓reduceIte] <;> rfl
  have hlast : byteStep (c₁.reach 1 .chunkSizeAlmostDone) LF = some ([.pass [LF]], c.sized n) := by
    refine byteStep_over rfl (by simp) (by simp only [reach_nread]; omega) ?_
    simp only [step, move, count_state, reach_state, sChunkSizeAlmostDone]
    rw [if_neg (by simp [Parser.count, hchunked])]
    simp only [Parser.count, reach_contentLength, hc₁, Parser.sized]
    split <;> rfl
  have htext : sizeLine size extension = size ++ (extension ++ [CR, LF]) := by
    simp [sizeLine, crlf]
  rw [htext, Scan.scan_append, hsize, Option.bind_some, Scan.scan_append, hext, Option.bind_some]
  simp [scan, hend, hlast]

namespace Chunk

def text (k : Chunk) : Bytes := sizeLine k.size k.extension ++ (k.data ++ crlf)

structure Legal (k : Chunk) : Prop where
  sized : SizeLine k.size k.extension k.data.length
  data : k.data ≠ []

end Chunk

theorem says_chunk {c : Parser} (hs : c.state = .chunkSizeStart) (hc : c.flags.chunked = true)
    (hn : c.nread = 0) {k : Chunk} (hk : k.Legal) :
    ∃ c', Says c k.text c' (fun _ => [.data (.body, some c.toHttpParser) k.data]) ∧
      c'.state = .chunkSizeStart ∧ c'.flags = c.flags ∧ c'.nread = 0 ∧ c'.toHttpParser = c.toHttpParser := by
  have hlen : k.data.length ≠ 0 := by
    rw [ne_eq, List.length_eq_zero_iff]
    exact hk.data
  have hsmall : k.data.length < ULLONG_MAX := Nat.lt_trans hk.sized.small (by decide)
  have hline : Says c (sizeLine k.size k.extension) (c.sized k.data.length) fun _ => [] :=
    Tells.passes (scan_sizeLine hs hc hn hk.sized)
  obtain ⟨c₁, hc₁⟩ : ∃ c₁, c₁ = c.sized k.data.length := ⟨_, rfl⟩
  rw [← hc₁] at hline
  have hs₁ : c₁.state = .chunkData := by rw [hc₁]; exact if_neg hlen
  have hf₁ : c₁.flags = c.flags := by rw [hc₁]; exact if_neg hlen
  have hl₁ : c₁.contentLength = k.data.length := by rw [hc₁]; rfl
  have hdata := scan_chunkData hs₁ (by rw [hf₁]; exact hc) (by rw [hl₁]; exact hsmall) k.data hk.data
    (by rw [hl₁])
  obtain ⟨c₂, hc₂⟩ : ∃ c₂ : Parser, c₂ = { c₁ with
    contentLength := c₁.contentLength - k.data.length
    state := if c₁.contentLength - k.data.length = 0 then .chunkDataAlmostDone else .chunkData } := ⟨_, rfl⟩
  rw [← hc₂] at hdata
  have hs₂ : c₂.state = .chunkDataAlmostDone := by rw [hc₂]; exact if_pos (by omega)
  have hl₂ : c₂.contentLength = 0 := by rw [hc₂]; exact (by omega : c₁.contentLength - k.data.length = 0)
  have hf₂ : c₂.flags = c₁.flags := by rw [hc₂]
  have hp₂ : c₂.toHttpParser = c₁.toHttpParser := by rw [hc₂]
  have hbody : Tells channel Prod.fst byteStep c₁ none k.data c₂ (some (channel (.body, c₁.toHttpParser)))
      fun _ => [.data (.body, some c.toHttpParser) k.data] := by
    have hp₁ : c₁.toHttpParser = c.toHttpParser := by rw [hc₁]; rfl
    rw [← hp₁]
    exact Tells.repeated hk.data hdata
  have hcr : Tells channel Prod.fst byteStep c₂ (some (channel (.body, c₁.toHttpParser))) [CR]
      { c₂ with state := .chunkDataDone } none fun _ => [] := by
    refine Tells.byte [c₂.callbackData .body, .pass [CR]] ?_ fun n => by rw [Parser.callbackData, hp₂]; rfl
    rw [byteStep_body (by rw [hs₂]; rfl)]
    simp [step, move, hs₂, sChunkDataAlmostDone, hf₂, hf₁, hc, hl₂]
  have hlf : Says { c₂ with state := .chunkDataDone } [LF]
      { c₂ with state := .chunkSizeStart, nread := 0 } fun _ => [] := by
    refine Tells.silent ?_
    rw [byteStep_body rfl]
    simp [step, move, sChunkDataDone, hf₂, hf₁, hc]
  refine ⟨{ c₂ with state := .chunkSizeStart, nread := 0 }, ?_, rfl, hf₂.trans hf₁, rfl,
    hp₂.trans (by rw [hc₁]; rfl)⟩
  have hall := hline.append ((hbody.append hcr).append hlf)
  rw [List.append_assoc] at hall
  exact hall

def chunksText (ks : List Chunk) : Bytes := ks.flatMap Chunk.text

def chunksData (ks : List Chunk) : Bytes := ks.flatMap Chunk.data

theorem join_bodySaid (p : HttpParser) {s : Bytes} (hs : s ≠ []) (t : Bytes) :
    Output.join (.data (.body, some p) s :: bodySaid p t) = Output.join (bodySaid p (s ++ t)) := by
  by_cases hnil : t = []
  · simp [hnil, bodySaid, hs]
  · simp only [bodySaid, hnil, List.append_eq_nil_iff, hs, and_self, ↓reduceIte]
    exact Output.join_merge [] [] ((DataKind.body, some p) : Channel) s t

/-- **Chunks** are one body. -/
theorem says_chunks {c : Parser} (hs : c.state = .chunkSizeStart) (hc : c.flags.chunked = true)
    (hn : c.nread = 0) (ks : List Chunk) (hks : ∀ k ∈ ks, k.Legal) :
    ∃ c', Says c (chunksText ks) c' (fun _ => bodySaid c.toHttpParser (chunksData ks)) ∧
      c'.state = .chunkSizeStart ∧ c'.flags = c.flags ∧ c'.nread = 0 ∧ c'.toHttpParser = c.toHttpParser := by
  induction ks generalizing c with
  | nil => exact ⟨c, Tells.nil c none, hs, rfl, hn, rfl⟩
  | cons k ks ih =>
    have hk := hks k (List.mem_cons_self ..)
    obtain ⟨c₁, hsays₁, hs₁, hf₁, hn₁, hp₁⟩ := says_chunk hs hc hn hk
    obtain ⟨c₂, hsays₂, hs₂, hf₂, hn₂, hp₂⟩ := ih hs₁ (by rw [hf₁]; exact hc) hn₁
      fun j hj => hks j (List.mem_cons_of_mem _ hj)
    refine ⟨c₂, (hsays₁.append hsays₂).congr fun n => ?_, hs₂, hf₂.trans hf₁, hn₂, hp₂.trans hp₁⟩
    rw [hp₁]
    exact join_bodySaid c.toHttpParser hk.data _

/-! ## Behind the trailers -/

theorem says_trailerEnd {c : Parser} (hs : c.state = .headersAlmostDone) (ht : c.framing.trailing = true)
    (hfit : c.nread + 1 ≤ maxHeaderSize) :
    Says c [LF] { c.count 1 with state := .startReq } fun n => [messageCompleteSaid c.toHttpParser (n + 1)] := by
  have ht : c.flags.trailing = true := ht
  refine Tells.byte [.notify (c.toHttpParser, .messageComplete) 1, .pass [LF]] ?_ fun n => rfl
  rw [byteStep_header (by rw [hs]; rfl) (upgraded_of_ne (by rw [hs]; decide))]
  have hstep : step (c.count 1) LF = ⟨{ c.count 1 with state := .startReq },
      [.notify (c.toHttpParser, .messageComplete) 1, .pass [LF]], if c.upgrade then .ret else .next⟩ := by
    simp only [step, move, count_state, hs, sHeadersAlmostDone]
    exact if_pos ht
  rw [hstep, if_pos ⟨hfit, by cases c.upgrade <;> simp⟩]

/-- A line that tells nothing of the body. -/
def HeaderLine.Plain (l : HeaderLine) : Prop := l.Legal ∧ ∀ x ∈ framingNames, ¬ Is x (l.name.map token)

theorem setsAll_plain {ls : List HeaderLine} (h : ∀ l ∈ ls, l.Plain) (f : Framing) : SetsAll ls f f := by
  induction ls with
  | nil => exact .nil f
  | cons l ls ih =>
    obtain ⟨hlegal, hplain⟩ := h l (List.mem_cons_self ..)
    exact .cons hlegal (.plain hplain) (ih fun k hk => h k (List.mem_cons_of_mem _ hk))

/-- The last chunk, which is empty, and the trailers. -/
theorem says_trailers {c : Parser} (hs : c.state = .chunkSizeStart) (hc : c.flags.chunked = true)
    (hn : c.nread = 0) {size extension : Bytes} (hsize : SizeLine size extension 0)
    {ls : List HeaderLine} (hls : ∀ l ∈ ls, l.Plain) (hfit : (linesText ls).length + 2 ≤ maxHeaderSize) :
    ∃ c', Says c (sizeLine size extension ++ linesText ls ++ crlf) c' fun n =>
      linesSaid c.toHttpParser (ls.map HeaderLine.pair) ++
        [messageCompleteSaid c.toHttpParser (n + (sizeLine size extension ++ linesText ls ++ crlf).length)] := by
  have hline : Says c (sizeLine size extension) (c.sized 0) fun _ => [] :=
    Tells.passes (scan_sizeLine hs hc hn hsize)
  obtain ⟨c₁, hc₁⟩ : ∃ c₁, c₁ = c.sized 0 := ⟨_, rfl⟩
  rw [← hc₁] at hline
  have hn₁ : c₁.nread = 0 := by rw [hc₁]; rfl
  have hp₁ : c₁.toHttpParser = c.toHttpParser := by rw [hc₁]; rfl
  obtain ⟨c₂, c₀, pre, front, now, hat, hf, hn₂, hlines, hsaid⟩ :=
    says_lines (atLine_start (c := c₁) (by rw [hc₁]; rfl)) (setsAll_plain hls _) (by omega)
  have hp₀ : c₀.toHttpParser = c.toHttpParser := by
    have := congrArg Framing.parser hf
    exact this.trans hp₁
  have hcr := hat.says_cr (by omega)
  have hlf := says_trailerEnd (c := c₀.reach 1 .headersAlmostDone) rfl
    (by
      have := congrArg Framing.trailing hf
      refine this.trans ?_
      rw [hc₁]
      rfl)
    (by simp only [reach_nread]; omega)
  have hall := hline.append (hlines.append (hcr.append hlf))
  have htext : sizeLine size extension ++ linesText ls ++ crlf =
      sizeLine size extension ++ (linesText ls ++ ([CR] ++ [LF])) := by
    rw [List.append_assoc]
    rfl
  refine ⟨{ (c₀.reach 1 .headersAlmostDone).count 1 with state := .startReq }, ?_⟩
  rw [htext]
  refine hall.congr fun n => ?_
  rw [reach_toHttpParser, hp₀, ← hp₁, ← List.nil_append (linesSaid _ _), ← hsaid]
  simp [Nat.add_assoc]

/-! ## Requests -/

inductive Body
  | none
  | identity (data : Bytes)
  | chunked (chunks : List Chunk) (size extension : Bytes) (trailers : List HeaderLine)

namespace Body

def text : Body → Bytes
  | none => []
  | identity data => data
  | chunked ks size extension trailers =>
    chunksText ks ++ (sizeLine size extension ++ linesText trailers ++ crlf)

def data : Body → Bytes
  | none => []
  | identity data => data
  | chunked ks _ _ _ => chunksData ks

def trailers : Body → List HeaderLine
  | none | identity _ => []
  | chunked _ _ _ trailers => trailers

/-- The body is the one that the headers tell. -/
inductive Legal (f : Framing) : Body → Prop
  | none : f.chunked = false → f.contentLength = 0 ∨ f.contentLength = ULLONG_MAX → Legal f .none
  | identity {data : Bytes} : f.chunked = false → data ≠ [] → data.length < lengthLimit →
    f.contentLength = data.length → Legal f (.identity data)
  | chunked {ks : List Chunk} {size extension : Bytes} {trailers : List HeaderLine} : f.chunked = true →
    f.contentlength = false → (∀ k ∈ ks, k.Legal) → SizeLine size extension 0 → (∀ l ∈ trailers, l.Plain) →
    (linesText trailers).length + 2 ≤ maxHeaderSize → Legal f (.chunked ks size extension trailers)

end Body

structure Wire where
  head : RequestHead
  lines : List HeaderLine
  body : Body

namespace Wire

def headText (w : Wire) : Bytes := w.head.text ++ linesText w.lines ++ crlf

def text (w : Wire) : Bytes := w.headText ++ w.body.text

def message (w : Wire) : Message where
  method := w.head.method
  url := w.head.url
  httpMajor := w.head.httpMajor
  httpMinor := w.head.httpMinor
  headers := w.lines.map HeaderLine.pair
  body := w.body.data
  trailers := w.body.trailers.map HeaderLine.pair
  headLf := w.headText.length - 1
  size := w.text.length

structure Legal (w : Wire) : Prop where
  head : w.head.Legal
  framed : ∃ f, SetsAll w.lines w.head.behind.framing f ∧ w.body.Legal f
  fits : w.headText.length ≤ maxHeaderSize

end Wire

/-- What the lines leave. -/
theorem SetsAll.rest {ls : List HeaderLine} {f f' : Framing} (h : SetsAll ls f f') :
    f'.parser = f.parser ∧ f'.trailing = f.trailing ∧ f'.upgrade = f.upgrade ∧ f'.skipbody = f.skipbody := by
  induction h with
  | nil f => exact ⟨rfl, rfl, rfl, rfl⟩
  | cons _ hone _ ih => cases hone <;> exact ih

/-- The body, behind the CR that ends the head. -/
theorem says_body {c : Parser} (hs : c.state = .headersAlmostDone) (hfit : c.nread + 1 ≤ maxHeaderSize)
    {b : Body} (hlegal : b.Legal c.framing) (hconnect : c.method ≠ .connect)
    (ht : c.framing.trailing = false) (hu : c.framing.upgrade = false) (hskip : c.framing.skipbody = false) :
    ∃ c', Says c (LF :: b.text) c' fun n =>
      headersCompleteSaid c.toHttpParser n :: (bodySaid c.toHttpParser b.data ++
        linesSaid c.toHttpParser (b.trailers.map HeaderLine.pair) ++
          [messageCompleteSaid c.toHttpParser (n + (LF :: b.text).length)]) := by
  have hplain : ¬ (c.framing.chunked = true ∧ c.framing.contentlength = true) → c.framing.Plain :=
    fun hone => ⟨hconnect, ht, hu, hskip, hone⟩
  cases hlegal with
  | none hc hlength =>
    exact ⟨_, says_headEnd_none hs hfit (hplain (by simp [hc])) hc hlength⟩
  | @identity data hc hne hsmall hlength =>
    have hpos := List.length_pos_iff.mpr hne
    have hmax : data.length < ULLONG_MAX := Nat.lt_trans hsmall (by decide)
    have hlf := says_headEnd_identity hs hfit (hplain (by simp [hc])) hc (by omega) (by omega)
    have hlength' : (c.behindHead .bodyIdentity).contentLength = data.length := hlength
    have hdata := says_identity (c := c.behindHead .bodyIdentity) rfl (by rw [hlength']; exact hmax) hne
      hlength'.symm
    refine ⟨_, (hlf.append hdata).congr fun n => ?_⟩
    simp [Body.data, Body.trailers, Body.text, linesSaid, Parser.behindHead, Nat.add_assoc, Nat.add_comm 1]
  | @chunked ks size extension trailers hc hno hks hsize htrailers hlines =>
    have hlf := says_headEnd_chunked hs hfit (hplain (by simp [hno])) hc
    obtain ⟨c₁, hchunks, hs₁, hf₁, hn₁, hp₁⟩ :=
      says_chunks (c := c.behindHead .chunkSizeStart) rfl hc rfl ks hks
    obtain ⟨c₂, hlast⟩ := says_trailers hs₁ (by rw [hf₁]; exact hc) hn₁ hsize htrailers hlines
    refine ⟨c₂, (hlf.append (hchunks.append hlast)).congr fun n => ?_⟩
    rw [hp₁]
    simp [Body.data, Body.trailers, Body.text, Parser.behindHead, Nat.add_assoc, Nat.add_comm 1]

/-- **The bytes of a request** are one message, with its content. -/
theorem oneMessage_wire (w : Wire) (h : w.Legal) : OneMessage w.text w.message := by
  obtain ⟨hhead, ⟨f, hsets, hbody⟩, hfits⟩ := h
  have hlength : w.headText.length = w.head.text.length + (linesText w.lines).length + 2 := by
    simp [Wire.headText, crlf, Nat.add_assoc]
  have hline := says_requestLine w.head hhead (by omega)
  obtain ⟨c₁, c₀, pre, front, now, hat, hf, hn, hlines, hsaid⟩ :=
    says_lines (atLine_start (c := w.head.behind) rfl) hsets
      (by simp only [RequestHead.behind]; omega)
  have hn₀ : c₀.nread = w.head.text.length + (linesText w.lines).length := hn
  have hcr := hat.says_cr (by omega)
  obtain ⟨c, hc⟩ : ∃ c, c = c₀.reach 1 .headersAlmostDone := ⟨_, rfl⟩
  rw [← hc] at hcr
  have hf' : c.framing = f := by rw [hc]; exact hf
  obtain ⟨hparser, htrailing, hupgrade, hskip⟩ := hsets.rest
  have hp : c.toHttpParser = w.message.parser := by
    have := congrArg Framing.parser hf'
    exact this.trans hparser
  rw [← hf'] at hbody htrailing hupgrade hskip
  obtain ⟨c', htail⟩ := says_body (by rw [hc]; rfl) (by rw [hc]; simp only [reach_nread]; omega) hbody
    (by
      rw [hp]
      exact hhead.method)
    htrailing hupgrade hskip
  have hall := hline.append (hlines.append (hcr.append htail))
  have htext : w.text = w.head.text ++ (linesText w.lines ++ ([CR] ++ LF :: w.body.text)) := by
    simp [Wire.text, Wire.headText, crlf]
  rw [← htext] at hall
  obtain ⟨ops, hscan, hmeaning⟩ := hall
  refine ⟨ops, c', hscan, ?_, rfl, ?_⟩
  · refine (hmeaning 0).2.trans (congrArg Output.join ?_)
    have hlf : 0 + w.head.text.length + (linesText w.lines).length + [CR].length = 0 + w.message.headLf := by
      simp only [Wire.message, List.length_singleton]
      omega
    have hsize : 0 + w.message.headLf + (LF :: w.body.text).length = 0 + w.message.size := by
      simp only [Wire.message, Wire.text, List.length_append, List.length_cons]
      omega
    simp only []
    rw [hlf, hsize, hp, ← List.append_assoc now, hsaid]
    rfl
  · simp only [Wire.message, Wire.text, List.length_append]
    omega

end Ehttp.Http
