import Ehttp.Http.Sizes
import Ehttp.Lib.Tells

/-!
# The lines of a request

What a client writes in front of the body, and what the callbacks say of it.

* `says_requestLine`: a method, an accepted URL and a version;
* `says_line`: a header line, with what it tells of the body.
-/

namespace Ehttp.Http

open Lib

/-- From `c` the bytes `u` are parsed up to `c'`, without a mark before and behind,
and the callbacks say `say n` if `u` is at position `n`. -/
abbrev Says (c : Parser) (u : Bytes) (c' : Parser) (say : Nat → List Said) : Prop :=
  Tells channel Prod.fst byteStep c none u c' none say

def crlf : Bytes := [CR, LF]

/-- A URL, a name or a value: marked at its first byte, handed out behind its last. -/
theorem says_word {c c₁ c₂ : Parser} {u : Bytes} {e : UInt8} (pre : List Op) (front : List Said)
    (x y : DataKind × HttpParser) (er : Int) (hxy : channel y = channel x)
    (hpre : ∀ n, MarkOp.meaning channel Prod.fst pre (none, n) = (front, none, n))
    (hread : scan byteStep c u = some (pre ++ .mark x :: u.map fun b => .pass [b], c₁))
    (hlast : byteStep c₁ e = some ([.flush y er, .pass [e]], c₂)) :
    Says c (u ++ [e]) c₂ fun _ => front ++ [.data (channel x) u] :=
  Tells.word pre front hpre hread hlast hxy

/-- `n` bytes of the headers were read, up to the state `s`. -/
def Parser.reach (c : Parser) (n : Nat) (s : State) : Parser := { c.count n with state := s }

@[simp] theorem reach_state (c : Parser) (n : Nat) (s : State) : (c.reach n s).state = s := rfl
@[simp] theorem reach_nread (c : Parser) (n : Nat) (s : State) : (c.reach n s).nread = c.nread + n := rfl
@[simp] theorem reach_toHttpParser (c : Parser) (n : Nat) (s : State) :
    (c.reach n s).toHttpParser = c.toHttpParser := rfl
@[simp] theorem reach_flags (c : Parser) (n : Nat) (s : State) : (c.reach n s).flags = c.flags := rfl
@[simp] theorem reach_headerState (c : Parser) (n : Nat) (s : State) :
    (c.reach n s).headerState = c.headerState := rfl
@[simp] theorem reach_contentLength (c : Parser) (n : Nat) (s : State) :
    (c.reach n s).contentLength = c.contentLength := rfl
@[simp] theorem reach_reach (c : Parser) (n k : Nat) (s t : State) :
    (c.reach n s).reach k t = c.reach (n + k) t := by
  simp [Parser.reach, Parser.count, Nat.add_assoc]

theorem reach_self (c : Parser) : c.reach 0 c.state = c := rfl

/-! ## The request line -/

structure RequestHead where
  method : HttpMethod
  url : Bytes
  httpMajor : Fin 10
  httpMinor : Fin 10
  deriving DecidableEq, Repr

namespace RequestHead

def digitByte (n : Fin 10) : UInt8 := UInt8.ofNat (48 + n)

def text (h : RequestHead) : Bytes :=
  httpMethodStr h.method ++ [32] ++ (h.url ++ [32]) ++
    ([72, 84, 84, 80, 47] ++ [digitByte h.httpMajor, 46, digitByte h.httpMinor] ++ crlf)

/-- A CONNECT ends the use of HTTP. -/
structure Legal (h : RequestHead) : Prop where
  method : h.method ≠ .connect
  url : acceptsUrl h.url = true

def parser (h : RequestHead) : HttpParser := ⟨h.method, h.httpMajor, h.httpMinor⟩

theorem digitByte_num : ∀ n, isNum (digitByte n) = true ∧ digit (digitByte n) = n := by decide

end RequestHead

/-- The bytes that a byte of a URL is not. -/
theorem parseUrlChar_alive {s : UrlState} {ch : UInt8} (h : parseUrlChar s ch ≠ .dead) :
    ch ≠ 32 ∧ ch ≠ CR ∧ ch ≠ LF ∧ s ≠ .dead := by
  refine ⟨?_, ?_, ?_, ?_⟩ <;> (rintro rfl; exact h (by first | rfl | simp [parseUrlChar]))

theorem byteStep_urlStart {c : Parser} (hs : c.state = .reqUrl .spacesBeforeUrl)
    (hmethod : c.method ≠ .connect) {ch : UInt8} (h : parseUrlChar .spacesBeforeUrl ch ≠ .dead)
    (hfit : c.nread + 1 ≤ maxHeaderSize) :
    byteStep c ch = some ([.mark (.url, c.toHttpParser), .pass [ch]],
      c.reach 1 (.reqUrl (parseUrlChar .spacesBeforeUrl ch))) := by
  obtain ⟨hspace, -, -, -⟩ := parseUrlChar_alive h
  refine byteStep_go [c.mark .url] (by rw [hs]; rfl) (upgraded_of_ne (by rw [hs]; decide)) hfit ?_
  simp only [step, count_state, hs, move, sReqUrl, hspace, ↓reduceIte]
  rw [if_neg (by exact hmethod), urlChar, if_neg h]
  rfl

theorem byteStep_urlChar {c : Parser} {s : UrlState} (hs : c.state = .reqUrl s)
    (hstart : s ≠ .spacesBeforeUrl) {ch : UInt8} (h : parseUrlChar s ch ≠ .dead)
    (hfit : c.nread + 1 ≤ maxHeaderSize) :
    byteStep c ch = some ([.pass [ch]], c.reach 1 (.reqUrl (parseUrlChar s ch))) := by
  obtain ⟨hspace, hcr, hlf, hdead⟩ := parseUrlChar_alive h
  refine byteStep_go [] (by rw [hs]; rfl) (upgraded_of_ne (by rw [hs]; simp)) hfit ?_
  have hchar : urlChar (c.count 1) s ch [] = (c.reach 1 (.reqUrl (parseUrlChar s ch))).go ch [] := by
    rw [urlChar, if_neg h]
    rfl
  rw [← hchar]
  simp only [step, count_state, hs, move]
  cases s <;> first | exact absurd rfl hstart | exact absurd rfl hdead | simp [sReqUrl, hspace, hcr, hlf]

theorem scan_url {c : Parser} {s : UrlState} (hs : c.state = .reqUrl s) (hstart : s ≠ .spacesBeforeUrl)
    (u : Bytes) (h : u.foldl parseUrlChar s ≠ .dead) (hfit : c.nread + u.length ≤ maxHeaderSize) :
    scan byteStep c u = some (u.map fun b => .pass [b],
      c.reach u.length (.reqUrl (u.foldl parseUrlChar s))) := by
  induction u generalizing c s with
  | nil =>
    rw [List.foldl_nil, ← hs, List.length_nil, reach_self]
    rfl
  | cons ch u ih =>
    have hone := ne_dead_of_foldl h
    simp only [List.length_cons] at hfit
    rw [Scan.scan_cons, byteStep_urlChar hs hstart hone (by omega), Option.bind_some,
      ih rfl (parseUrlChar_ne_start s ch) h (by simp only [reach_nread]; omega)]
    simp [Nat.add_comm 1]

/-- The space behind the URL. -/
theorem byteStep_urlEnd {c : Parser} {s : UrlState} (hs : c.state = .reqUrl s) (h : s.ends = true)
    (hfit : c.nread + 1 ≤ maxHeaderSize) :
    byteStep c 32 = some ([.flush (.url, c.toHttpParser) 1, .pass [32]], c.reach 1 .reqHttpStart) := by
  refine byteStep_go [c.callbackData .url] (by rw [hs]; rfl) (upgraded_of_ne (by rw [hs]; simp)) hfit ?_
  simp only [step, count_state, hs, move]
  cases s <;> first | rfl | cases h

theorem ends_alive {s : UrlState} (h : s.ends = true) : s ≠ .dead := by
  rintro rfl
  cases h

/-- The URL and the space behind it. -/
theorem says_url {c : Parser} (hs : c.state = .reqUrl .spacesBeforeUrl) (hmethod : c.method ≠ .connect)
    {url : Bytes} (h : acceptsUrl url = true) (hfit : c.nread + (url.length + 1) ≤ maxHeaderSize) :
    Says c (url ++ [32]) (c.reach (url.length + 1) .reqHttpStart) fun _ => [urlSaid url] := by
  cases url with
  | nil => cases h
  | cons b u =>
    have hends : (u.foldl parseUrlChar (parseUrlChar .spacesBeforeUrl b)).ends = true := h
    have halive := ends_alive hends
    simp only [List.length_cons] at hfit ⊢
    have hfirst := byteStep_urlStart hs hmethod (ne_dead_of_foldl halive) (by omega)
    have hrest := scan_url (c := c.reach 1 (.reqUrl (parseUrlChar .spacesBeforeUrl b))) rfl
      (parseUrlChar_ne_start _ b) u halive (by simp only [reach_nread]; omega)
    have hlast := byteStep_urlEnd (reach_state _ _ _) hends
      (c := (c.reach 1 (.reqUrl (parseUrlChar .spacesBeforeUrl b))).reach u.length
        (.reqUrl (u.foldl parseUrlChar (parseUrlChar .spacesBeforeUrl b))))
      (by simp only [reach_nread]; omega)
    have hread := Tells.scan_marked [] hfirst hrest
    have hsaid := says_word [] [] (.url, c.toHttpParser) _ _ rfl (fun _ => rfl) hread hlast
    rw [reach_reach, reach_reach, Nat.add_comm 1] at hsaid
    exact hsaid

/-- A byte that the parser moves over. -/
theorem byteStep_over {c c' : Parser} {ch : UInt8} (hs : c.state.parsingHeader = true)
    (hne : c.state ≠ .startReq) (hfit : c.nread + 1 ≤ maxHeaderSize)
    (h : step (c.count 1) ch = c'.go ch []) : byteStep c ch = some ([.pass [ch]], c') :=
  byteStep_go [] hs (upgraded_of_ne hne) hfit h

/-- ` HTTP/1.1` and the end of the line, behind the space. -/
theorem scan_version {c : Parser} (hs : c.state = .reqHttpStart) (major minor : Fin 10)
    (hfit : c.nread + 10 ≤ maxHeaderSize) :
    let v := [72, 84, 84, 80, 47] ++ [RequestHead.digitByte major, 46, RequestHead.digitByte minor] ++ crlf
    scan byteStep c v = some (v.map fun b => .pass [b],
      { c.reach 10 .headerFieldStart with httpMajor := major, httpMinor := minor }) := by
  obtain ⟨hmajor, hmajor'⟩ := RequestHead.digitByte_num major
  obtain ⟨hminor, hminor'⟩ := RequestHead.digitByte_num minor
  have h₀ : byteStep c 72 = some ([.pass [72]], c.reach 1 .reqHttpH) :=
    byteStep_over (by rw [hs]; rfl) (by rw [hs]; decide) (by omega)
      (by simp only [step, count_state, hs, move]; rfl)
  have h₁ : byteStep (c.reach 1 .reqHttpH) 84 = some ([.pass [84]], c.reach 2 .reqHttpHT) :=
    byteStep_over rfl (by simp) (by simp only [reach_nread]; omega) rfl
  have h₂ : byteStep (c.reach 2 .reqHttpHT) 84 = some ([.pass [84]], c.reach 3 .reqHttpHTT) :=
    byteStep_over rfl (by simp) (by simp only [reach_nread]; omega) rfl
  have h₃ : byteStep (c.reach 3 .reqHttpHTT) 80 = some ([.pass [80]], c.reach 4 .reqHttpHTTP) :=
    byteStep_over rfl (by simp) (by simp only [reach_nread]; omega) rfl
  have h₄ : byteStep (c.reach 4 .reqHttpHTTP) 47 = some ([.pass [47]], c.reach 5 .reqHttpMajor) :=
    byteStep_over rfl (by simp) (by simp only [reach_nread]; omega) rfl
  have h₅ : byteStep (c.reach 5 .reqHttpMajor) (RequestHead.digitByte major) =
      some ([.pass [RequestHead.digitByte major]], { c.reach 6 .reqHttpDot with httpMajor := major }) := by
    refine byteStep_over rfl (by simp) (by simp only [reach_nread]; omega) ?_
    simp only [step, count_state, reach_state, move, sReqHttpMajor, hmajor, hmajor']
    rfl
  have h₆ : byteStep { c.reach 6 .reqHttpDot with httpMajor := major } 46 =
      some ([.pass [46]], { c.reach 7 .reqHttpMinor with httpMajor := major }) :=
    byteStep_over rfl (by simp) (by simp only [reach_nread]; omega) rfl
  have h₇ : byteStep { c.reach 7 .reqHttpMinor with httpMajor := major } (RequestHead.digitByte minor) =
      some ([.pass [RequestHead.digitByte minor]],
        { c.reach 8 .reqHttpEnd with httpMajor := major, httpMinor := minor }) := by
    refine byteStep_over rfl (by simp) (by simp only [reach_nread]; omega) ?_
    simp only [step, count_state, reach_state, move, sReqHttpMinor, hminor, hminor']
    rfl
  have h₈ : byteStep { c.reach 8 .reqHttpEnd with httpMajor := major, httpMinor := minor } CR =
      some ([.pass [CR]], { c.reach 9 .reqLineAlmostDone with httpMajor := major, httpMinor := minor }) :=
    byteStep_over rfl (by simp) (by simp only [reach_nread]; omega) rfl
  have h₉ : byteStep { c.reach 9 .reqLineAlmostDone with httpMajor := major, httpMinor := minor } LF =
      some ([.pass [LF]], { c.reach 10 .headerFieldStart with httpMajor := major, httpMinor := minor }) :=
    byteStep_over rfl (by simp) (by simp only [reach_nread]; omega) rfl
  simp only [crlf, List.cons_append, List.nil_append, scan, h₀, h₁, h₂, h₃, h₄, h₅, h₆, h₇, h₈, h₉,
    List.map_cons, List.map_nil]

theorem says_version {c : Parser} (hs : c.state = .reqHttpStart) (major minor : Fin 10)
    (hfit : c.nread + 10 ≤ maxHeaderSize) :
    Says c ([72, 84, 84, 80, 47] ++ [RequestHead.digitByte major, 46, RequestHead.digitByte minor] ++ crlf)
      { c.reach 10 .headerFieldStart with httpMajor := major, httpMinor := minor } fun _ => [] :=
  Tells.passes (scan_version hs major minor hfit)

/-- The parser behind the request line `h`. -/
def RequestHead.behind (h : RequestHead) : Parser :=
  { httpParserInit with
    method := h.method
    httpMajor := h.httpMajor
    httpMinor := h.httpMinor
    state := .headerFieldStart
    contentLength := ULLONG_MAX
    index := (httpMethodStr h.method).length + 1
    nread := h.text.length }

/-- **The request line.** -/
theorem says_requestLine (h : RequestHead) (hlegal : h.Legal) (hfit : h.text.length ≤ maxHeaderSize) :
    Says httpParserInit h.text h.behind fun _ => [urlSaid h.url] := by
  have hlength : h.text.length = (httpMethodStr h.method).length + 1 + (h.url.length + 1) + 10 := by
    simp [RequestHead.text, crlf]
    omega
  obtain ⟨c, hc⟩ : ∃ c : Parser, c = { httpParserInit with
    method := h.method
    state := .reqUrl .spacesBeforeUrl
    contentLength := ULLONG_MAX
    index := (httpMethodStr h.method).length + 1
    nread := (httpMethodStr h.method).length + 1 } := ⟨_, rfl⟩
  have hmethod : Says httpParserInit (httpMethodStr h.method ++ [32]) c fun _ => [] := by
    rw [hc]
    exact Tells.passes (scan_method h.method)
  have hnread : c.nread = (httpMethodStr h.method).length + 1 := by rw [hc]
  have hurl := says_url (c := c) (by rw [hc]) (by rw [hc]; exact hlegal.method) hlegal.url (by omega)
  have hversion := says_version (reach_state c (h.url.length + 1) _) h.httpMajor h.httpMinor
    (by simp only [reach_nread]; omega)
  have hend : h.behind = { (c.reach (h.url.length + 1) .reqHttpStart).reach 10 .headerFieldStart with
      httpMajor := h.httpMajor, httpMinor := h.httpMinor } := by
    rw [hc, RequestHead.behind, hlength]
    rfl
  rw [hend]
  exact (hmethod.append hurl).append hversion

/-! ## The front of a line -/

/-- What the headers tell of a message, besides `Connection`. -/
structure Framing where
  parser : HttpParser
  contentLength : Nat
  chunked : Bool
  trailing : Bool
  upgrade : Bool
  skipbody : Bool
  contentlength : Bool
  deriving DecidableEq, Repr

def Parser.framing (c : Parser) : Framing where
  parser := c.toHttpParser
  contentLength := c.contentLength
  chunked := c.flags.chunked
  trailing := c.flags.trailing
  upgrade := c.flags.upgrade
  skipbody := c.flags.skipbody
  contentlength := c.flags.contentlength

/-- `c` is at the front of a line.  If the byte there does not fold the line before,
`c₀` is the parser that reads it, with the operations `pre` that say `front`. -/
structure AtLine (c c₀ : Parser) (pre : List Op) (front : List Said) : Prop where
  header : c.state.parsingHeader = true
  notStart : c.state ≠ .startReq
  nread : c.nread = c₀.nread
  state : c₀.state = .headerFieldStart
  step : ∀ ch, ch ≠ 32 → ch ≠ 9 → step (c.count 1) ch = sHeaderFieldStart (c₀.count 1) ch pre
  said : ∀ n, MarkOp.meaning channel Prod.fst pre (none, n) = (front, none, n)

theorem atLine_start {c : Parser} (hs : c.state = .headerFieldStart) : AtLine c c [] [] where
  header := by rw [hs]; rfl
  notStart := by rw [hs]; simp
  nread := rfl
  state := hs
  step := fun ch _ _ => by simp only [step, move, count_state, hs]
  said := fun n => rfl

/-- The header is finished. -/
def Parser.finish (c : Parser) : Parser :=
  { c with flags := finishedHeader c.headerState c.flags, state := .headerFieldStart }

theorem atLine_lws {c : Parser} (hs : c.state = .headerValueLws) : AtLine c c.finish [] [] where
  header := by rw [hs]; rfl
  notStart := by rw [hs]; simp
  nread := rfl
  state := rfl
  step := by
    intro ch hspace htab
    simp only [Http.step, move, count_state, hs, sHeaderValueLws, hspace, htab, or_self, ↓reduceIte]
    rfl
  said := fun n => rfl

/-- Behind an empty value, which is not said yet. -/
theorem atLine_empty {c : Parser} (hs : c.state = .headerValueDiscardLws)
    (hh : c.headerState ≠ .contentLength) :
    AtLine c c.finish [c.mark .headerValue, c.callbackDataNoadvance .headerValue]
      [valueSaid c.toHttpParser []] where
  header := by rw [hs]; rfl
  notStart := by rw [hs]; simp
  nread := rfl
  state := rfl
  step := by
    intro ch hspace htab
    simp only [Http.step, move, count_state, hs, sHeaderValueDiscardLws, hspace, htab, or_self, ↓reduceIte]
    rw [if_neg (by exact hh)]
    rfl
  said := fun n => rfl

theorem AtLine.read {c c₀ c' : Parser} {pre : List Op} {front : List Said} (h : AtLine c c₀ pre front)
    {ch : UInt8} (hspace : ch ≠ 32) (htab : ch ≠ 9) (hfit : c₀.nread + 1 ≤ maxHeaderSize) (ops : List Op)
    (hstep : sHeaderFieldStart (c₀.count 1) ch pre = c'.go ch ops) :
    byteStep c ch = some (ops ++ [.pass [ch]], c') :=
  byteStep_go ops h.header (upgraded_of_ne h.notStart) (by rw [h.nread]; exact hfit)
    ((h.step ch hspace htab).trans hstep)

/-- **Names.** -/
theorem AtLine.says_name {c c₀ : Parser} {pre : List Op} {front : List Said} (h : AtLine c c₀ pre front)
    {name : Bytes} (hne : name ≠ []) (htoken : ∀ b ∈ name, token b ≠ 0) (hspace : name.head? ≠ some 32)
    (hfit : c₀.nread + (name.length + 1) ≤ maxHeaderSize) :
    ∃ s i, Knows (name.map token) s i ∧ Says c (name ++ [58])
      { c₀.reach (name.length + 1) .headerValueDiscardWs with headerState := s, index := i }
      fun _ => front ++ [fieldSaid c₀.toHttpParser name] := by
  obtain ⟨b, u, rfl⟩ := List.exists_cons_of_ne_nil hne
  have hb := htoken b (List.mem_cons_self ..)
  have hcr : b ≠ CR := by rintro rfl; exact hb (by decide)
  have hlf : b ≠ LF := by rintro rfl; exact hb (by decide)
  have htab : b ≠ 9 := by rintro rfl; exact hb (by decide)
  simp only [List.length_cons] at hfit
  obtain ⟨c₁, hc₁⟩ : ∃ c₁ : Parser, c₁ = { c₀.reach 1 .headerField with
    index := 0, headerState := firstHeaderState (token b) } := ⟨_, rfl⟩
  have hfirst : byteStep c b = some (pre ++ [c₀.mark .headerField] ++ [.pass [b]], c₁) := by
    refine h.read (by simpa using hspace) htab (by omega) (pre ++ [c₀.mark .headerField]) ?_
    rw [sHeaderFieldStart, if_neg hcr, if_neg hlf, if_neg hb, hc₁]
    rfl
  rw [List.append_assoc] at hfirst
  have hnread : c₁.nread = c₀.nread + 1 := by rw [hc₁]; rfl
  obtain ⟨s, i, hscan, hknows⟩ := scan_name (t := [token b]) (c := c₁) (by rw [hc₁]; rfl)
    (by rw [hc₁]; exact knows_first b) u (fun d hd => htoken d (List.mem_cons_of_mem _ hd))
    (by rw [hnread]; omega)
  refine ⟨s, i, hknows, ?_⟩
  have hread := Tells.scan_marked pre hfirst hscan
  refine says_word pre front (.headerField, c₀.toHttpParser) (.headerField, c₀.toHttpParser) 1 rfl h.said
    hread ?_
  rw [byteStep_fieldEnd (by rw [hc₁]; rfl) (by decide), if_pos ⟨by simp only [hnread]; omega, rfl⟩, hc₁]
  simp [Parser.reach, Parser.count, Parser.callbackData, Nat.add_assoc, Nat.add_comm 1]

/-! ## Values -/

theorem scan_gap {c : Parser} (hs : c.state = .headerValueDiscardWs) (gap : Bytes)
    (h : ∀ b ∈ gap, b = 32 ∨ b = 9) (hfit : c.nread + gap.length ≤ maxHeaderSize) :
    scan byteStep c gap =
      some (gap.map fun b => .pass [b], c.reach gap.length .headerValueDiscardWs) := by
  induction gap generalizing c with
  | nil =>
    rw [← hs, List.length_nil, reach_self]
    rfl
  | cons b gap ih =>
    simp only [List.length_cons] at hfit
    have hone : byteStep c b = some ([.pass [b]], c.reach 1 .headerValueDiscardWs) := by
      refine byteStep_over (by rw [hs]; rfl) (by rw [hs]; simp) (by omega) ?_
      simp only [step, move, count_state, hs, sHeaderValueDiscardWs, h b (List.mem_cons_self ..), ↓reduceIte]
      rw [Parser.reach, ← hs]
      rfl
    rw [Scan.scan_cons, hone, Option.bind_some, ih rfl (fun d hd => h d (List.mem_cons_of_mem _ hd))
      (by simp only [reach_nread]; omega)]
    simp [Nat.add_comm 1]

/-- A value and the end of its line. -/
theorem says_value {c c₁ : Parser} {v : Bytes}
    (hread : scan byteStep c v =
      some (.mark (.headerValue, c.toHttpParser) :: v.map fun b => .pass [b], c₁))
    (hs : c₁.state = .headerValue) (hp : c₁.toHttpParser = c.toHttpParser)
    (hfit : c₁.nread + 2 ≤ maxHeaderSize) :
    Says c (v ++ crlf) (c₁.reach 2 .headerValueLws) fun _ => [valueSaid c.toHttpParser v] := by
  have hcr : byteStep c₁ CR =
      some ([.flush (.headerValue, c₁.toHttpParser) 1, .pass [CR]], c₁.reach 1 .headerAlmostDone) := by
    rw [byteStep_cr hs, if_pos ⟨by omega, trivial⟩]
    rfl
  have hlf : byteStep (c₁.reach 1 .headerAlmostDone) LF =
      some ([.pass [LF]], c₁.reach 2 .headerValueLws) :=
    byteStep_over rfl (by simp) (by simp only [reach_nread]; omega) rfl
  have hword := says_word [] [] (.headerValue, c.toHttpParser) (.headerValue, c₁.toHttpParser) _
    (by rw [hp]) (fun n => rfl) hread hcr
  have hall := hword.append (Tells.silent hlf)
  rw [List.append_assoc] at hall
  exact hall

/-- An empty value is not said yet. -/
theorem says_empty {c : Parser} (hs : c.state = .headerValueDiscardWs) (hfit : c.nread + 2 ≤ maxHeaderSize) :
    Says c crlf (c.reach 2 .headerValueDiscardLws) fun _ => [] := by
  have hcr : byteStep c CR = some ([.pass [CR]], c.reach 1 .headerValueDiscardWsAlmostDone) := by
    refine byteStep_over (by rw [hs]; rfl) (by rw [hs]; simp) (by omega) ?_
    simp only [step, move, count_state, hs]
    rfl
  have hlf : byteStep (c.reach 1 .headerValueDiscardWsAlmostDone) LF =
      some ([.pass [LF]], c.reach 2 .headerValueDiscardLws) :=
    byteStep_over rfl (by simp) (by simp only [reach_nread]; omega) rfl
  exact (Tells.silent hcr).append (Tells.silent hlf)

/-- The states of a value that tells nothing of the body. -/
def HeaderState.quiet : HeaderState → Bool
  | .general | .matchingConnectionTokenStart | .matchingConnectionKeepAlive | .matchingConnectionClose
  | .matchingConnectionUpgrade | .matchingConnectionToken | .connectionKeepAlive | .connectionClose
  | .connectionUpgrade => true
  | _ => false

theorem quiet_firstConnection {l : UInt8} {other : HeaderState} (h : other.quiet = true) :
    (firstConnectionState l other).quiet = true := by
  unfold firstConnectionState
  split
  · rfl
  · split
    · rfl
    · split
      · rfl
      · exact h

theorem quiet_match {name : Bytes} {matched mismatched current : HeaderState} {index : Nat} {t : UInt8}
    (hmatched : matched.quiet = true) (hmismatched : mismatched.quiet = true) (h : current.quiet = true) :
    (matchState name matched mismatched current index t).quiet = true := by
  unfold matchState
  split
  · exact hmismatched
  · split
    · exact hmatched
    · exact h

theorem quiet_connectionChar {c : Parser} {flags : Flags} {ch : UInt8} (h : c.headerState.quiet = true) :
    (connectionChar c flags ch).headerState.quiet = true := by
  unfold connectionChar
  split
  · rfl
  · split
    · rfl
    · exact h

theorem framing_connectionChar {c : Parser} {flags : Flags} {ch : UInt8}
    (h : Parser.framing { c with flags } = c.framing) : (connectionChar c flags ch).framing = c.framing := by
  unfold connectionChar
  split
  · exact h
  · split <;> rfl

theorem quiet_valueChar {c : Parser} (h : c.headerState.quiet = true) (ch : UInt8) :
    ∃ c', valueChar c ch = .ok c' ∧ c'.headerState.quiet = true ∧ c'.framing = c.framing := by
  unfold valueChar
  cases hs : c.headerState <;> rw [hs] at h <;> simp only [] <;> try cases h
  case general => exact ⟨c, rfl, by rw [hs]; rfl, rfl⟩
  case matchingConnectionTokenStart =>
    refine ⟨_, rfl, quiet_firstConnection ?_, rfl⟩
    split
    · rfl
    · split <;> rfl
  case matchingConnectionKeepAlive | matchingConnectionClose | matchingConnectionUpgrade =>
    exact ⟨_, rfl, quiet_match rfl rfl (by simp only [Parser.nextIndex, hs]; rfl), rfl⟩
  case matchingConnectionToken =>
    split
    · exact ⟨_, rfl, rfl, rfl⟩
    · exact ⟨_, rfl, by rw [hs]; rfl, rfl⟩
  case connectionKeepAlive | connectionClose | connectionUpgrade =>
    exact ⟨_, rfl, quiet_connectionChar (by rw [hs]; rfl), framing_connectionChar rfl⟩

theorem framing_finish {c : Parser} (h : c.headerState ≠ .transferEncodingChunked) :
    c.finish.framing = c.framing := by
  unfold Parser.finish finishedHeader
  cases hs : c.headerState <;> first | rfl | exact absurd hs h

/-- The bytes a value is written with. -/
def ValueByte (b : UInt8) : Prop := isHeaderChar b = true ∧ b ≠ CR ∧ b ≠ LF

theorem scan_quiet {c : Parser} (hs : c.state = .headerValue) (hq : c.headerState.quiet = true) (v : Bytes)
    (h : ∀ b ∈ v, ValueByte b) (hfit : c.nread + v.length ≤ maxHeaderSize) :
    ∃ c', scan byteStep c v = some (v.map fun b => .pass [b], c') ∧ c'.state = .headerValue ∧
      c'.headerState.quiet = true ∧ c'.framing = c.framing ∧ c'.nread = c.nread + v.length := by
  induction v generalizing c with
  | nil => exact ⟨c, rfl, hs, hq, rfl, rfl⟩
  | cons b v ih =>
    obtain ⟨hchar, hcr, hlf⟩ := h b (List.mem_cons_self ..)
    obtain ⟨c₁, hvalue, hq₁, hframing⟩ := quiet_valueChar hq b
    have hframe := valueChar_frame hs hvalue
    have hs₁ : c₁.state = .headerValue := by rw [hframe]; exact hs
    have hn₁ : c₁.nread = c.nread := by rw [hframe]
    simp only [List.length_cons] at hfit
    obtain ⟨c', hscan, hs', hq', hframing', hn'⟩ := ih (c := c₁.count 1) hs₁ hq₁
      (fun d hd => h d (List.mem_cons_of_mem _ hd)) (by rw [count_nread, hn₁]; omega)
    refine ⟨c', ?_, hs', hq', hframing'.trans hframing, ?_⟩
    · rw [Scan.scan_cons, byteStep_valueChar hs hcr hlf hchar hvalue, if_pos (by omega),
        Option.bind_some, hscan]
      rfl
    · rw [hn', count_nread, hn₁, List.length_cons]
      omega

/-- A value that begins quietly. -/
theorem read_quiet {c c₁ : Parser} {b : UInt8} {v : Bytes}
    (hfirst : byteStep c b = some ([.mark (.headerValue, c.toHttpParser), .pass [b]], c₁))
    (hs : c₁.state = .headerValue) (hq : c₁.headerState.quiet = true) (hframing : c₁.framing = c.framing)
    (hn : c₁.nread = c.nread + 1) (h : ∀ b ∈ v, ValueByte b)
    (hfit : c.nread + (v.length + 1) ≤ maxHeaderSize) :
    ∃ c', scan byteStep c (b :: v) =
        some (.mark (.headerValue, c.toHttpParser) :: (b :: v).map fun b => .pass [b], c') ∧
      c'.state = .headerValue ∧ c'.headerState.quiet = true ∧ c'.framing = c.framing ∧
      c'.nread = c.nread + (v.length + 1) := by
  obtain ⟨c', hscan, hs', hq', hframing', hn'⟩ := scan_quiet hs hq v h (by omega)
  exact ⟨c', Tells.scan_marked [] hfirst hscan, hs', hq', hframing'.trans hframing, by omega⟩

/-- The names that tell something of the body. -/
def framingNames : List Bytes := [bytes "content-length", bytes "transfer-encoding", bytes "upgrade"]

/-- The header state behind another name. -/
structure PlainName (s : HeaderState) : Prop where
  ofField : s.ofField = true
  noLength : s ≠ .contentLength
  noEncoding : s ≠ .transferEncoding
  noUpgrade : s ≠ .upgrade

theorem Knows.plain {t : Bytes} {s : HeaderState} {i : Nat} (h : Knows t s i)
    (hplain : ∀ x ∈ framingNames, ¬ Is x t) : PlainName s where
  ofField := h.ofField
  noLength := by
    rintro rfl
    exact hplain _ (by decide) h
  noEncoding := by
    rintro rfl
    exact hplain _ (by decide) h
  noUpgrade := by
    rintro rfl
    exact hplain _ (by decide) h

/-- The first byte of a value behind such a name. -/
theorem plain_start {c : Parser} (hs : c.state = .headerValueDiscardWs) (hname : PlainName c.headerState)
    {b : UInt8} (hb : ValueByte b) (hspace : b ≠ 32) (htab : b ≠ 9) (hfit : c.nread + 1 ≤ maxHeaderSize) :
    ∃ c₁, byteStep c b = some ([.mark (.headerValue, c.toHttpParser), .pass [b]], c₁) ∧
      c₁.state = .headerValue ∧ c₁.headerState.quiet = true ∧ c₁.framing = c.framing ∧
      c₁.nread = c.nread + 1 := by
  obtain ⟨-, hcr, hlf⟩ := hb
  obtain ⟨hof, hlength, hencoding, hupgrade⟩ := hname
  have hstep : ∀ c₁, sHeaderValueStart (c.count 1) b = Parser.go c₁ b [.mark (.headerValue, c.toHttpParser)] →
      byteStep c b = some ([.mark (.headerValue, c.toHttpParser), .pass [b]], c₁) := by
    intro c₁ h
    refine byteStep_go [.mark (.headerValue, c.toHttpParser)] (by rw [hs]; rfl)
      (upgraded_of_ne (by rw [hs]; simp)) hfit ?_
    rw [← h]
    simp only [step, move, count_state, hs, sHeaderValueDiscardWs, hspace, htab, hcr, hlf, or_self,
      ↓reduceIte]
  have hgeneral : sHeaderValueStart (c.count 1) b = Parser.go { c.count 1 with
      state := .headerValue, index := 0, headerState := .general } b [.mark (.headerValue, c.toHttpParser)] →
      ∃ c₁, byteStep c b = some ([.mark (.headerValue, c.toHttpParser), .pass [b]], c₁) ∧
        c₁.state = .headerValue ∧ c₁.headerState.quiet = true ∧ c₁.framing = c.framing ∧
        c₁.nread = c.nread + 1 := fun h => ⟨_, hstep _ h, rfl, rfl, rfl, rfl⟩
  cases hh : c.headerState <;> rw [hh] at hof hlength hencoding hupgrade <;>
    first | exact absurd rfl hlength | exact absurd rfl hencoding | exact absurd rfl hupgrade | skip
  case connection =>
    refine ⟨_, hstep { c.count 1 with
      state := .headerValue
      index := 0
      headerState := firstConnectionState (lower b) .matchingConnectionToken } ?_, rfl,
      quiet_firstConnection rfl, rfl, rfl⟩
    simp only [sHeaderValueStart, Parser.count, hh]
    rfl
  all_goals try cases hof
  all_goals
    refine hgeneral ?_
    simp only [sHeaderValueStart, Parser.count, hh]
    rfl

/-- The character of a name that is looked for, if it is there. -/
theorem matchState_next {name t rest : Bytes} {r : UInt8} (h : name = t ++ r :: rest)
    (matched mismatched current : HeaderState) :
    matchState name matched mismatched current t.length r = if rest = [] then matched else current := by
  have hget : (name ++ [0])[t.length]? = some r := by rw [h]; simp
  have hlen : name.length = t.length + (rest.length + 1) := by rw [h]; simp
  rw [matchState, hget, if_neg (by simp; omega)]
  by_cases hnil : rest = []
  · rw [if_pos (by simp [hlen, hnil]), if_pos hnil]
  · have := List.length_pos_iff.mpr hnil
    rw [if_neg (by omega), if_neg hnil]

/-- The letters of `chunked` behind the first. -/
theorem scan_chunked {c : Parser} (hs : c.state = .headerValue)
    (hh : c.headerState = .matchingTransferEncodingChunked) {t rest : Bytes}
    (hname : bytes "chunked" = t ++ rest) (hne : rest ≠ []) (hindex : c.index + 1 = t.length)
    (v : Bytes) (hv : v.map lower = rest) (hbytes : ∀ b ∈ v, ValueByte b)
    (hfit : c.nread + v.length ≤ maxHeaderSize) :
    ∃ i, scan byteStep c v = some (v.map fun b => .pass [b],
      { c.count v.length with headerState := .transferEncodingChunked, index := i }) := by
  induction v generalizing c t rest with
  | nil => exact absurd hv.symm hne
  | cons b v ih =>
    obtain ⟨hchar, hcr, hlf⟩ := hbytes b (List.mem_cons_self ..)
    simp only [List.length_cons] at hfit
    rw [List.map_cons] at hv
    subst hv
    have hlen := congrArg List.length hname
    simp only [List.length_append, List.length_cons] at hlen
    have hshort : t.length < 7 := by
      have : (bytes "chunked").length = 7 := by decide
      omega
    have hmod : (c.index + 1) % 128 = t.length := by omega
    have hmatch := matchState_next hname .transferEncodingChunked .general .matchingTransferEncodingChunked
    have hvalue : valueChar c b = .ok { c with
        index := t.length
        headerState := if v.map lower = [] then .transferEncodingChunked
          else .matchingTransferEncodingChunked } := by
      rw [← hmatch]
      simp only [valueChar, hh, matchName, Parser.nextIndex, hmod]
    rw [Scan.scan_cons, byteStep_valueChar hs hcr hlf hchar hvalue, if_pos (by omega), Option.bind_some]
    by_cases hnil : v = []
    · subst hnil
      exact ⟨t.length, by simp [scan, Parser.count]⟩
    · have hmore' : v.map lower ≠ [] := by simpa using hnil
      obtain ⟨i, hscan⟩ := ih (c := Parser.count { c with
          index := t.length
          headerState := if v.map lower = [] then .transferEncodingChunked
            else .matchingTransferEncodingChunked } 1) hs (if_neg hmore') (t := t ++ [lower b])
        (by rw [hname]; simp) hmore' (by simp [Parser.count]) rfl
        (fun d hd => hbytes d (List.mem_cons_of_mem _ hd)) (by simp only [count_nread]; omega)
      refine ⟨i, ?_⟩
      rw [hscan]
      simp [Parser.count, Nat.add_assoc, Nat.add_comm 1]

/-- **`chunked`**, in any case. -/
theorem read_chunked {c : Parser} (hs : c.state = .headerValueDiscardWs)
    (hh : c.headerState = .transferEncoding) {v : Bytes} (hv : v.map lower = bytes "chunked")
    (hbytes : ∀ b ∈ v, ValueByte b) (hspace : v.head? ≠ some 32) (htab : v.head? ≠ some 9)
    (hfit : c.nread + v.length ≤ maxHeaderSize) :
    ∃ i, scan byteStep c v = some (.mark (.headerValue, c.toHttpParser) :: v.map fun b => .pass [b],
      { c.reach v.length .headerValue with headerState := .transferEncodingChunked, index := i }) := by
  cases v with
  | nil => exact absurd hv (by decide)
  | cons b v =>
    have hb : lower b = 99 ∧ v.map lower = bytes "hunked" := by
      rw [List.map_cons] at hv
      exact List.cons.inj (hv.trans (by decide : bytes "chunked" = 99 :: bytes "hunked"))
    obtain ⟨-, hcr, hlf⟩ := hbytes b (List.mem_cons_self ..)
    simp only [List.head?_cons, ne_eq, Option.some.injEq] at hspace htab
    simp only [List.length_cons] at hfit
    obtain ⟨c₁, hc₁⟩ : ∃ c₁ : Parser, c₁ = { c.count 1 with
      state := .headerValue, index := 0, headerState := .matchingTransferEncodingChunked } := ⟨_, rfl⟩
    have hfirst : byteStep c b = some ([] ++ [.mark (.headerValue, c.toHttpParser), .pass [b]], c₁) := by
      refine byteStep_go [.mark (.headerValue, c.toHttpParser)] (by rw [hs]; rfl)
        (upgraded_of_ne (by rw [hs]; simp)) (by omega) ?_
      simp only [step, move, Parser.count, hs, sHeaderValueDiscardWs, hspace, htab, hcr, hlf, or_self,
        ↓reduceIte, sHeaderValueStart, hh, hb.1]
      rw [hc₁]
      rfl
    obtain ⟨i, hscan⟩ := scan_chunked (c := c₁) (by rw [hc₁]) (by rw [hc₁]) (t := bytes "c")
      (by decide) (by decide) (by rw [hc₁]; exact (by decide : 0 + 1 = (bytes "c").length)) v hb.2
      (fun d hd => hbytes d (List.mem_cons_of_mem _ hd)) (by rw [hc₁]; simp only [count_nread]; omega)
    refine ⟨i, ?_⟩
    rw [Tells.scan_marked _ hfirst hscan, hc₁]
    simp [Parser.reach, Parser.count, Nat.add_assoc, Nat.add_comm 1]

/-! ## Header lines -/

structure HeaderLine where
  name : Bytes
  gap : Bytes
  value : Bytes
  deriving DecidableEq, Repr

namespace HeaderLine

def text (l : HeaderLine) : Bytes := l.name ++ [58] ++ l.gap ++ (l.value ++ crlf)

def pair (l : HeaderLine) : Bytes × Bytes := (l.name, l.value)

structure Legal (l : HeaderLine) : Prop where
  name : l.name ≠ []
  tokens : ∀ b ∈ l.name, token b ≠ 0
  unfolded : l.name.head? ≠ some 32
  gap : ∀ b ∈ l.gap, b = 32 ∨ b = 9
  value : ∀ b ∈ l.value, ValueByte b
  trimmed : l.value.head? ≠ some 32 ∧ l.value.head? ≠ some 9

/-- What a line tells of the message. -/
inductive Sets (l : HeaderLine) (f : Framing) : Framing → Prop
  | plain : (∀ x ∈ framingNames, ¬ Is x (l.name.map token)) → Sets l f f
  | length : Is (bytes "content-length") (l.name.map token) → l.value ≠ [] →
    (∀ b ∈ l.value, isNum b = true) → digitsValue l.value < lengthLimit → f.contentlength = false →
    Sets l f { f with contentlength := true, contentLength := digitsValue l.value }
  | chunked : Is (bytes "transfer-encoding") (l.name.map token) → l.value.map lower = bytes "chunked" →
    Sets l f { f with chunked := true }

end HeaderLine

/-- From the front of a line, `u` is parsed to the front of one, with `all` said of it;
the value of its last line may be said behind it. -/
def ReadTo (c c₀ : Parser) (front : List Said) (u : Bytes) (f : Framing) (all : List Said) : Prop :=
  ∃ c' c₀' pre front' now, AtLine c' c₀' pre front' ∧ c₀'.framing = f ∧
    c₀'.nread = c₀.nread + u.length ∧ Says c u c' (fun _ => now) ∧ now ++ front' = front ++ all

/-- The value of a line is read from `c`, up to `c₁`. -/
theorem readTo_value {c c₀ c₁ c₂ : Parser} {front : List Said} {u v : Bytes} {name : Said}
    (hname : Says c u c₁ fun _ => front ++ [name]) (hp : c₁.toHttpParser = c₀.toHttpParser)
    (hn : c₁.nread = c₀.nread + u.length)
    (hread : scan byteStep c₁ v =
      some (.mark (.headerValue, c₁.toHttpParser) :: v.map fun b => .pass [b], c₂))
    (hs : c₂.state = .headerValue) (hp' : c₂.toHttpParser = c₁.toHttpParser)
    (hn' : c₂.nread = c₁.nread + v.length) (hfit : c₀.nread + (u ++ (v ++ crlf)).length ≤ maxHeaderSize) :
    ReadTo c c₀ front (u ++ (v ++ crlf)) c₂.finish.framing [name, valueSaid c₀.toHttpParser v] := by
  have hlength : (u ++ (v ++ crlf)).length = u.length + v.length + 2 := by
    simp [crlf]
    omega
  have hvalue := says_value hread hs hp' (by omega)
  refine ⟨_, _, _, _, _, atLine_lws (reach_state c₂ 2 _), rfl, ?_, hname.append hvalue, ?_⟩
  · show c₂.nread + 2 = _
    omega
  · simp [hp]

/-- **A header line.** -/
theorem says_line {c c₀ : Parser} {pre : List Op} {front : List Said} (h : AtLine c c₀ pre front)
    {l : HeaderLine} (hl : l.Legal) {f : Framing} (hsets : l.Sets c₀.framing f)
    (hfit : c₀.nread + l.text.length ≤ maxHeaderSize) :
    ReadTo c c₀ front l.text f [fieldSaid c₀.toHttpParser l.name, valueSaid c₀.toHttpParser l.value] := by
  have hlength : l.text.length = (l.name.length + 1) + l.gap.length + (l.value.length + 2) := by
    simp [HeaderLine.text, crlf]
    omega
  obtain ⟨s, i, hknows, hname⟩ := h.says_name hl.name hl.tokens hl.unfolded (by omega)
  obtain ⟨c₁, hc₁⟩ : ∃ c₁ : Parser, c₁ = Parser.reach { c₀.reach (l.name.length + 1) .headerValueDiscardWs with
    headerState := s, index := i } l.gap.length .headerValueDiscardWs := ⟨_, rfl⟩
  have hgap := scan_gap (c := { c₀.reach (l.name.length + 1) .headerValueDiscardWs with
    headerState := s, index := i }) rfl l.gap hl.gap (by simp only [reach_nread]; omega)
  rw [← hc₁] at hgap
  have hfront : Says c (l.name ++ [58] ++ l.gap) c₁
      fun _ => front ++ [fieldSaid c₀.toHttpParser l.name] := by
    have hall := hname.append (Tells.passes hgap)
    simp only [List.append_nil] at hall
    exact hall
  have hs₁ : c₁.state = .headerValueDiscardWs := by rw [hc₁]; rfl
  have hh₁ : c₁.headerState = s := by rw [hc₁]; rfl
  have hp₁ : c₁.toHttpParser = c₀.toHttpParser := by rw [hc₁]; rfl
  have hf₁ : c₁.framing = c₀.framing := by rw [hc₁]; rfl
  have hn₁ : c₁.nread = c₀.nread + (l.name ++ [58] ++ l.gap).length := by
    rw [hc₁]
    simp [Nat.add_assoc, Nat.add_comm 1]
  have hfit₁ : c₁.nread + (l.value.length + 2) ≤ maxHeaderSize := by
    rw [hn₁]
    simp
    omega
  cases hsets with
  | plain hplain =>
    have hname' : PlainName c₁.headerState := by rw [hh₁]; exact hknows.plain hplain
    cases hv : l.value with
    | nil =>
      -- the value is said with the next byte
      have hempty := says_empty hs₁ (by omega)
      refine ⟨_, _, _, _, _, atLine_empty (reach_state c₁ 2 _) hname'.noLength, ?_, ?_,
        by rw [HeaderLine.text, hv]; exact hfront.append hempty, ?_⟩
      · rw [← hf₁]
        refine framing_finish (c := c₁.reach 2 .headerValueDiscardLws) ?_
        intro hno
        have hof := hname'.ofField
        rw [reach_headerState] at hno
        rw [hno] at hof
        cases hof
      · show c₁.nread + 2 = _
        rw [hn₁, HeaderLine.text, hv]
        simp [crlf, Nat.add_assoc]
      · simp [hp₁]
    | cons b v =>
      have hbytes := hl.value
      have htrim := hl.trimmed
      rw [hv] at hbytes htrim hfit₁
      simp only [List.head?_cons, ne_eq, Option.some.injEq, List.length_cons] at htrim hfit₁
      obtain ⟨c₂, hfirst, hs₂, hq₂, hf₂, hn₂⟩ := plain_start hs₁ hname' (hbytes b (List.mem_cons_self ..))
        htrim.1 htrim.2 (by omega)
      obtain ⟨c₃, hread, hs₃, hq₃, hf₃, hn₃⟩ := read_quiet hfirst hs₂ hq₂ hf₂ hn₂
        (fun d hd => hbytes d (List.mem_cons_of_mem _ hd)) (by omega)
      have hto := readTo_value hfront hp₁ hn₁ hread hs₃ (congrArg Framing.parser hf₃) hn₃
        (by rw [← hv]; exact hfit)
      have hend : c₃.finish.framing = c₀.framing := by
        rw [framing_finish, hf₃, hf₁]
        intro hno
        rw [hno] at hq₃
        cases hq₃
      rw [hend] at hto
      rw [HeaderLine.text, hv]
      exact hto
  | length his hne hdigits hsmall hnew =>
    have hs : s = .contentLength := (hknows.iff (x := (bytes "content-length", .contentLength))
      (by decide)).mpr ⟨_, by decide, rfl, his⟩
    have hnew₁ : c₁.flags.contentlength = false := by
      have := congrArg Framing.contentlength hf₁
      exact this.trans hnew
    have hread := scan_length hs₁ (hh₁.trans hs) hnew₁ hne hdigits (by omega)
    rw [if_pos hsmall] at hread
    obtain ⟨b, v, hv⟩ := List.exists_cons_of_ne_nil hne
    have hops : valueOps c₁ l.value =
        .mark (.headerValue, c₁.toHttpParser) :: l.value.map fun b => .pass [b] := by
      rw [hv]
      rfl
    rw [hops] at hread
    have hto := readTo_value hfront hp₁ hn₁ hread rfl rfl rfl hfit
    rw [← hf₁]
    exact hto
  | chunked his hvalue =>
    have hs : s = .transferEncoding := (hknows.iff (x := (bytes "transfer-encoding", .transferEncoding))
      (by decide)).mpr ⟨_, by decide, rfl, his⟩
    obtain ⟨j, hread⟩ := read_chunked hs₁ (hh₁.trans hs) hvalue hl.value hl.trimmed.1 hl.trimmed.2 (by omega)
    have hto := readTo_value hfront hp₁ hn₁ hread rfl rfl rfl hfit
    rw [← hf₁]
    exact hto

/-- Header lines, and what they tell together. -/
inductive SetsAll : List HeaderLine → Framing → Framing → Prop
  | nil (f : Framing) : SetsAll [] f f
  | cons {l : HeaderLine} {ls : List HeaderLine} {f f₁ f₂ : Framing} : l.Legal → l.Sets f f₁ →
    SetsAll ls f₁ f₂ → SetsAll (l :: ls) f f₂

def linesText (ls : List HeaderLine) : Bytes := ls.flatMap HeaderLine.text

theorem parser_of_sets {l : HeaderLine} {f f' : Framing} (h : l.Sets f f') : f'.parser = f.parser := by
  cases h <;> rfl

/-- **Header lines.** -/
theorem says_lines {ls : List HeaderLine} {c c₀ : Parser} {pre : List Op} {front : List Said}
    (h : AtLine c c₀ pre front) {f : Framing} (hsets : SetsAll ls c₀.framing f)
    (hfit : c₀.nread + (linesText ls).length ≤ maxHeaderSize) :
    ReadTo c c₀ front (linesText ls) f (linesSaid c₀.toHttpParser (ls.map HeaderLine.pair)) := by
  induction ls generalizing c c₀ pre front with
  | nil =>
    generalize hf : c₀.framing = f₀ at hsets
    cases hsets
    exact ⟨c, c₀, pre, front, [], h, hf, rfl, Tells.nil c none, by simp [linesSaid]⟩
  | cons l ls ih =>
    generalize hf : c₀.framing = f₀ at hsets
    cases hsets with
    | @cons _ _ _ f₁ _ hl hone hrest =>
      subst hf
      have htext : linesText (l :: ls) = l.text ++ linesText ls := rfl
      rw [htext, List.length_append] at hfit
      obtain ⟨c₁, c₀₁, pre₁, front₁, now₁, h₁, hf₁, hn₁, hsays₁, hsaid₁⟩ := says_line h hl hone (by omega)
      obtain ⟨c₂, c₀₂, pre₂, front₂, now₂, h₂, hf₂, hn₂, hsays₂, hsaid₂⟩ := ih h₁ (by rw [hf₁]; exact hrest)
        (by rw [hn₁]; omega)
      have hp : c₀₁.toHttpParser = c₀.toHttpParser := by
        have := congrArg Framing.parser hf₁
        exact this.trans (parser_of_sets hone)
      refine ⟨c₂, c₀₂, pre₂, front₂, now₁ ++ now₂, h₂, hf₂, ?_, hsays₁.append hsays₂, ?_⟩
      · rw [hn₂, hn₁, htext, List.length_append, Nat.add_assoc]
      · rw [List.append_assoc, hsaid₂, ← List.append_assoc, hsaid₁, hp]
        simp [linesSaid, HeaderLine.pair]

end Ehttp.Http
