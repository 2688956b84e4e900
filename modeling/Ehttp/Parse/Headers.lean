import Ehttp.Parse.Outcome

/-!
# Header lines, the request line and the Content-Length rule

* `header_request`: a header reads as the last line of that name;
* `header_lookup`: so it does from the end of the header section on, in whatever
  fragments the lines arrive;
* `headOut_ok_iff`: which header sections are accepted;
* `recorded_iff`: when the request line is recorded;
* `never_answered_411`: what becomes of a POST without a length.
-/

namespace Ehttp

open Lib

/-! ## Header lookup -/

/-- The value of the last header line with this name, in any letter case. -/
def lastHeader (headers : List (Bytes × Bytes)) (name : Bytes) : Option Bytes :=
  (headers.reverse.find? (fun h => ssStrTolower h.1 = ssStrTolower name)).map (·.2)

def Message.header (m : Message) (name : Bytes) : Bytes := (lastHeader m.headers name).getD []

theorem find_insertHeaders (pairs : List (Bytes × Bytes)) (name : Bytes)
    (headers : StdMap Bytes Bytes) :
    StdMap.find (insertHeaders headers pairs) (ssStrTolower name) =
      (lastHeader pairs name).or (StdMap.find headers (ssStrTolower name)) := by
  induction pairs generalizing headers with
  | nil => rfl
  | cons h pairs ih =>
    have hstep : insertHeaders headers (h :: pairs) =
        insertHeaders (headers.insert bytesLt (ssStrTolower h.1) h.2) pairs := rfl
    rw [hstep, ih, StdMap.find_insert]
    simp only [lastHeader, List.reverse_cons, List.find?_append, Option.map_or]
    cases pairs.reverse.find? (fun h => ssStrTolower h.1 = ssStrTolower name) with
    | some g => rfl
    | none =>
      by_cases e : ssStrTolower h.1 = ssStrTolower name
      · simp [e]
      · simp [e]

theorem zip_fst_snd (l : List (Bytes × Bytes)) : (l.map (·.1)).zip (l.map (·.2)) = l := by
  induction l with
  | nil => rfl
  | cons p l ih => simp [ih]

namespace Message

variable (m : Message)

theorem headState_fields : m.headState.headerFields = m.headers.map (·.1) ∧
    m.headState.headerValues = m.headers.map (·.2) ∧ m.headState.headers = [] := by
  rw [headState, Request.withHeaders]
  split
  · rename_i h
    simp [h]
  · exact ⟨rfl, rfl, rfl⟩

theorem header_headOver (name : Bytes) : m.headState.headOver.header name = m.header name := by
  obtain ⟨hf, hv, hh⟩ := m.headState_fields
  rw [Request.header_eq, Request.headOver, addHeaders_eq]
  simp only [hf, hv, hh, zip_fst_snd, find_insertHeaders]
  cases h : lastHeader m.headers name <;> simp [header, h, StdMap.find]

/-- The method, once it is recorded. -/
theorem getMethod_headOver : m.headState.headOver.getMethod =
    if m.headers = [] then [] else httpMethodStr m.method := by
  have hparams : ∀ l : RequestLine, l.parseRequestUrlParams.2.method = l.method := by
    intro l
    simp only [RequestLine.parseRequestUrlParams]
    split <;> rfl
  rw [Request.headOver, addHeaders_eq]
  simp only [Request.getMethod, headState, Request.withHeaders]
  split
  · rfl
  · simp only [Request.inHead, ↓reduceIte, RequestLine.recorded]
    split <;> split <;> simp [RequestLine.setHttpVersion, hparams, RequestLine.setMethod, parser]

theorem httpMethodStr_post (x : HttpMethod) : httpMethodStr x = bytes "POST" ↔ x = .post := by
  cases x <;> decide

/-- **The Content-Length rule**, as far as the code applies it. -/
theorem headOut_ok_iff : m.headOut.1 = .ret 0 ↔
    ¬ (m.headers ≠ [] ∧ m.method = .post ∧ m.header (bytes "Content-Length") = []) := by
  obtain ⟨hf, hv, -⟩ := m.headState_fields
  have hlen : (m.headState.headOver.getHeader (bytes "Content-Length")).1 =
      m.header (bytes "Content-Length") := m.header_headOver _
  rw [headOut, ssOnHeadersComplete_eq _ (by rw [hf, hv]; simp), getMethod_headOver]
  by_cases hnil : m.headers = []
  · have hpost : ([] : Bytes) ≠ bytes "POST" := by decide
    simp [hnil, hpost]
  · simp only [hnil, ↓reduceIte, httpMethodStr_post, hlen]
    by_cases hp : m.method = .post
    · by_cases he : m.header (bytes "Content-Length") = []
      · simp [hp, he, hnil]
      · simp [hp, he]
    · simp [hp]

theorem line_headOut : m.headOut.2.line = m.headState.line := by
  obtain ⟨hf, hv, -⟩ := m.headState_fields
  have hover : m.headState.headOver.line = m.headState.line := by
    rw [Request.headOver, addHeaders_eq]
  have hget : (m.headState.headOver.getHeader (bytes "Content-Length")).2.line =
      m.headState.line := by
    rw [Request.getHeader_frame]
    exact hover
  rw [headOut, ssOnHeadersComplete_eq _ (by rw [hf, hv]; simp)]
  split
  · simp only
    split <;> exact hget
  · exact hover

theorem header_headOut (name : Bytes) : m.headOut.2.header name = m.header name := by
  obtain ⟨hf, hv, -⟩ := m.headState_fields
  have hget : (m.headState.headOver.getHeader (bytes "Content-Length")).2.header name =
      m.header name := by
    rw [Request.header_getHeader]
    exact m.header_headOver name
  rw [headOut, ssOnHeadersComplete_eq _ (by rw [hf, hv]; simp)]
  split
  · simp only
    split
    · rw [Request.header_eq] at hget ⊢
      exact hget
    · exact hget
  · exact m.header_headOver name

theorem header_bodyState (name : Bytes) : m.bodyState.header name = m.header name := by
  have h := m.header_headOut name
  rw [Request.header_eq] at h ⊢
  exact h

/-- The request line and the headers survive the end of the message. -/
theorem line_request : m.request.line = m.headState.line := by
  rw [request]
  split
  · exact m.line_headOut
  · rw [overOut, ssOnMessageComplete_eq]
    simp only [Request.afterLookup]
    rw [Request.getHeader_frame]
    exact m.line_headOut

/-- **Header lookup** in the parsed request. -/
theorem header_request (name : Bytes) : m.request.header name = m.header name := by
  rw [request]
  split
  · exact m.header_headOut name
  · have h := Request.header_getHeader m.bodyState name (bytes "Content-Type")
    rw [header_bodyState] at h
    rw [overOut, ssOnMessageComplete_eq]
    rw [Request.header_eq] at h ⊢
    exact h

end Message

/-! ## Lookup under fragmentation -/

section Lookup

variable (p : HttpParser)

theorem Request.header_congr {r r' : Request} (h : r.headers = r'.headers) (name : Bytes) :
    r.header name = r'.header name := by
  rw [header_eq, header_eq, h]

/-- Only the end of the header section enters headers in the map. -/
theorem header_httpCallback (e : HttpEvent) (he : e ≠ .headersComplete) (r : Request)
    (name : Bytes) : (httpCallback p e r).2.header name = r.header name := by
  cases e with
  | headersComplete => exact absurd rfl he
  | url s =>
    apply Request.header_congr
    rfl
  | headerField s =>
    apply Request.header_congr
    rw [httpCallback, ssOnHeaderField_eq, pushHeaderField, Request.inHead]
    split <;> split <;> rfl
  | headerValue s =>
    apply Request.header_congr
    rfl
  | body s =>
    apply Request.header_congr
    rfl
  | messageComplete =>
    rw [httpCallback, ssOnMessageComplete_eq]
    have hlook := Request.header_getHeader r name (bytes "Content-Type")
    rw [← hlook]
    apply Request.header_congr
    rfl

theorem headersComplete_notMem_headers {headers : List (Bytes × Bytes)} {es : List HttpEvent}
    (h : HeaderFragments headers es) : HttpEvent.headersComplete ∉ es := by
  induction h with
  | nil => simp
  | cons names values headers es _ _ _ ih => simp [ih]

theorem headersComplete_notMem_tail {m : Message} {es : List HttpEvent} (h : TailEvents m es) :
    HttpEvent.headersComplete ∉ es := by
  obtain ⟨bodies, ts, -, hts, rfl⟩ := h
  simp [headersComplete_notMem_headers hts]

/-- **Header lookup**: in whatever fragments the names and values arrive, they
pair up at the end of the header section, a header reads as the last line of
that name from then on, and nothing that follows changes that. -/
theorem header_lookup (m : Message) (head tail later : List HttpEvent) (hhead : HeadEvents m head)
    (htail : TailEvents m tail) (hlater : later <+: tail ++ [.messageComplete]) :
    ∃ r, runAll (httpCallback m.parser) head {} = (none, r) ∧
      r.headerFields.length = r.headerValues.length ∧
      r.headerFields.zip r.headerValues = m.headers ∧
      ∀ name, (ssOnHeadersComplete r).2.header name = (lastHeader m.headers name).getD [] ∧
        (runAll (httpCallback m.parser) later (ssOnHeadersComplete r).2).2.header name =
          (lastHeader m.headers name).getD [] := by
  obtain ⟨hf, hv, -⟩ := m.headState_fields
  refine ⟨m.headState, run_head m head hhead, by rw [hf, hv]; simp, ?_, ?_⟩
  · rw [hf, hv, zip_fst_snd]
  · intro name
    have hcomplete : (ssOnHeadersComplete m.headState).2.header name =
        (lastHeader m.headers name).getD [] := m.header_headOut name
    refine ⟨hcomplete, ?_⟩
    have hnone : ∀ e ∈ later, e ≠ .headersComplete := by
      rintro e he rfl
      have hmem := hlater.subset he
      simp [headersComplete_notMem_tail htail] at hmem
    refine RunAll.runAll_frame _
      (fun r : Request => r.header name = (lastHeader m.headers name).getD []) later ?_ _ hcomplete
    intro e he r hr
    rw [header_httpCallback m.parser e (hnone e he) r name]
    exact hr

end Lookup

/-- Two lines of one name, and a trailer of that name. -/
def twoHosts : Message :=
  { method := .get, url := bytes "/", httpMajor := 1, httpMinor := 1
    headers := [(bytes "Host", bytes "x"), (bytes "hOST", bytes "yz")], body := bytes "b"
    trailers := [(bytes "Host", bytes "t")], headLf := 30, size := 60 }

def twoHostsFields : List HttpEvent :=
  [.headerField (bytes "Ho"), .headerField (bytes "st"), .headerValue [], .headerValue (bytes "x"),
    .headerField (bytes "hOST"), .headerValue (bytes "y"), .headerValue (bytes "z")]

def twoHostsTail : List HttpEvent :=
  [.body (bytes "b"), .headerField (bytes "Host"), .headerValue (bytes "t")]

theorem header_lookup_twice :
    ∃ r, runAll (httpCallback twoHosts.parser) (.url (bytes "/") :: twoHostsFields) {} = (none, r) ∧
      r.headerFields.length = r.headerValues.length ∧
      r.headerFields.zip r.headerValues = twoHosts.headers ∧
      ∀ name, (ssOnHeadersComplete r).2.header name = (lastHeader twoHosts.headers name).getD [] ∧
        (runAll (httpCallback twoHosts.parser) (twoHostsTail ++ [.messageComplete])
          (ssOnHeadersComplete r).2).2.header name =
            (lastHeader twoHosts.headers name).getD [] := by
  have hname : bytes "Ho" ++ bytes "st" = bytes "Host" := by decide
  have hvalue : bytes "y" ++ bytes "z" = bytes "yz" := by decide
  have hfields : HeaderFragments twoHosts.headers twoHostsFields := by
    simpa [hname, hvalue, twoHosts, twoHostsFields] using
      HeaderFragments.cons [bytes "Ho", bytes "st"] [[], bytes "x"] _ _ (by simp) (by simp)
        (.cons [bytes "hOST"] [bytes "y", bytes "z"] _ _ (by simp) (by simp) .nil)
  have htrailer : HeaderFragments twoHosts.trailers (twoHostsTail.drop 1) := by
    simpa [twoHosts, twoHostsTail] using
      HeaderFragments.cons [bytes "Host"] [bytes "t"] _ _ (by simp) (by simp) .nil
  have hhead : HeadEvents twoHosts (.url (bytes "/") :: twoHostsFields) :=
    ⟨[bytes "/"], twoHostsFields, by simp, by simp [twoHosts], hfields, by simp⟩
  have htail : TailEvents twoHosts twoHostsTail :=
    ⟨[bytes "b"], twoHostsTail.drop 1, by simp [twoHosts], htrailer, by simp [twoHostsTail]⟩
  have hall : twoHostsTail ++ [.messageComplete] <+: twoHostsTail ++ [.messageComplete] :=
    List.prefix_refl _
  have h := header_lookup twoHosts _ twoHostsTail _ hhead htail hall
  exact h

/-! ## The request line -/

/-- The query params of a URL. -/
def queryParams (url : Bytes) : RequestParam :=
  (RequestLine.parseRequestUrlParams { requestUrl := url }).2.param

/-- The request line is recorded as sent, with the params of its URL, and a
POST has a length. -/
structure Recorded (m : Message) (r : Request) : Prop where
  method : r.line.method = httpMethodStr m.method
  url : r.line.requestUrl = m.url
  version : r.line.httpVersion =
    bytes "HTTP/" ++ decimal m.httpMajor ++ bytes "." ++ decimal m.httpMinor
  params : r.line.param = queryParams m.url
  length : m.method = .post → r.header (bytes "Content-Length") ≠ []

theorem parseRequestUrlParams_eq (l : RequestLine) :
    l.parseRequestUrlParams.2 = { l with param := l.parseRequestUrlParams.2.param } := by
  simp only [RequestLine.parseRequestUrlParams]
  split <;> rfl

/-- The recorded line; other versions leave no version string. -/
theorem recorded_eq (p : HttpParser) (url : Bytes) :
    RequestLine.recorded p { requestUrl := url } =
      { method := httpMethodStr p.method
        requestUrl := url
        param := queryParams url
        httpVersion :=
          if p.httpMajor = 1 ∧ p.httpMinor = 1 then bytes "HTTP/1.1"
          else if p.httpMajor = 1 ∧ p.httpMinor = 0 then bytes "HTTP/1.0" else [] } := by
  have hparam : ∀ m, (RequestLine.parseRequestUrlParams { requestUrl := url, method := m }).2.param =
      queryParams url := by
    intro m
    simp only [queryParams, RequestLine.parseRequestUrlParams]
    split <;> rfl
  simp only [RequestLine.recorded, RequestLine.setMethod]
  rw [parseRequestUrlParams_eq, hparam]
  split <;> split <;> simp_all [RequestLine.setHttpVersion]

namespace Message

variable (m : Message)

theorem line_headState : m.headState.line =
    if m.headers = [] then { requestUrl := m.url }
    else RequestLine.recorded m.parser { requestUrl := m.url } := by
  rw [headState, Request.withHeaders]
  split <;> rfl

/-- **The request line is recorded** exactly in requests with a header line and
version 1.0 or 1.1. -/
theorem recorded_request_iff (hok : m.headOut.1 = .ret 0) : Recorded m m.request ↔
    m.headers ≠ [] ∧ m.httpMajor = 1 ∧ (m.httpMinor = 0 ∨ m.httpMinor = 1) := by
  have hline := m.line_request.trans m.line_headState
  constructor
  · intro h
    have hversion := h.version
    have hhttp : bytes "HTTP/" = 72 :: bytes "TTP/" := by decide
    have hne : m.headers ≠ [] := by
      intro hnil
      rw [hline, if_pos hnil, hhttp] at hversion
      simp at hversion
    rw [hline, if_neg hne, recorded_eq, hhttp] at hversion
    refine ⟨hne, ?_⟩
    by_cases h11 : m.parser.httpMajor = 1 ∧ m.parser.httpMinor = 1
    · exact ⟨h11.1, Or.inr h11.2⟩
    · by_cases h10 : m.parser.httpMajor = 1 ∧ m.parser.httpMinor = 0
      · exact ⟨h10.1, Or.inl h10.2⟩
      · rw [if_neg h11, if_neg h10] at hversion
        simp at hversion
  · rintro ⟨hne, hmajor, hminor⟩
    rw [if_neg hne, recorded_eq] at hline
    refine ⟨by rw [hline]; rfl, by rw [hline], ?_, by rw [hline], ?_⟩
    · rw [hline]
      simp only [parser, hmajor]
      rcases hminor with h0 | h1
      · rw [h0]; decide
      · rw [h1]; decide
    · intro hpost hempty
      rw [m.header_request] at hempty
      exact (m.headOut_ok_iff.mp hok) ⟨hne, hpost, hempty⟩

end Message

theorem verdict_zero {m : Message} (h : m.verdict = .ret 0) :
    m.headOut.1 = .ret 0 ∧ m.size ≤ MAX_REQ_SIZE ∧ overRet m.overOut.1 m.overOut.2 = .ret 0 := by
  unfold Message.verdict at h
  split at h
  · simp at h
  · rename_i hnot
    exact ⟨Classical.byContradiction fun hf => hnot (Or.inl hf),
      Nat.le_of_not_lt fun hlt => hnot (Or.inr hlt), h⟩

/-- What a trace says when its last return is 0. -/
theorem feed_zero {m : Message} {segs : List Segment} (h : Trace m segs)
    (h0 : (feed {} segs).1.getLast? = some (.ret 0)) :
    m.verdict = .ret 0 ∧ (feed {} segs).2.Same m.request := by
  obtain ⟨k, r, hfeed, hsame, -⟩ := feed_trace m segs h
  rw [hfeed] at h0 ⊢
  have hv : m.verdict = .ret 0 := by simpa using h0
  exact ⟨hv, hsame (verdict_zero hv).2.1⟩

theorem Request.Same.header {r r' : Request} (h : r.Same r') (name : Bytes) :
    r.header name = r'.header name := by
  rw [header_eq, header_eq, h.headers]

/-- **The request line.**  Of the requests that `parse_request` accepts, the
line is recorded in those with a header line and version 1.0 or 1.1. -/
theorem recorded_iff (m : Message) (segs : List Segment) (h : Trace m segs)
    (h0 : (feed {} segs).1.getLast? = some (.ret 0)) :
    Recorded m (feed {} segs).2 ↔
      m.headers ≠ [] ∧ m.httpMajor = 1 ∧ (m.httpMinor = 0 ∨ m.httpMinor = 1) := by
  obtain ⟨hv, hsame⟩ := feed_zero h h0
  rw [← m.recorded_request_iff (verdict_zero hv).1]
  have hlength := hsame.header (bytes "Content-Length")
  constructor
  · rintro ⟨hm, hu, hver, hp, hl⟩
    rw [hsame.line] at hm hu hver hp
    rw [hlength] at hl
    exact ⟨hm, hu, hver, hp, hl⟩
  · rintro ⟨hm, hu, hver, hp, hl⟩
    rw [← hsame.line] at hm hu hver hp
    rw [← hlength] at hl
    exact ⟨hm, hu, hver, hp, hl⟩

/-- `GET /?k=v` with a header line. -/
theorem recorded_iff_get :
    let m : Message :=
      { method := .get, url := bytes "/?k=v", httpMajor := 1, httpMinor := 1
        headers := [(bytes "Host", bytes "x")], body := [], trailers := [], headLf := 30, size := 31 }
    Trace m [m.segment] ∧ (feed {} [m.segment]).1.getLast? = some (.ret 0) ∧
      (Recorded m (feed {} [m.segment]).2 ↔
        m.headers ≠ [] ∧ m.httpMajor = 1 ∧ (m.httpMinor = 0 ∨ m.httpMinor = 1)) := by
  intro m
  have h := trace_segment m (by decide)
  have h0 : (feed {} [m.segment]).1.getLast? = some (.ret 0) := by decide +kernel
  exact ⟨h, h0, recorded_iff m _ h h0⟩

/-- `GET /a` without any header line is accepted, with no method and no version. -/
theorem request_line_lost :
    let m : Message :=
      { method := .get, url := bytes "/a", httpMajor := 1, httpMinor := 1
        headers := [], body := [], trailers := [], headLf := 18, size := 19 }
    Trace m [m.segment] ∧ (feed {} [m.segment]).1 = [.ret 0] ∧
      ¬ Recorded m (feed {} [m.segment]).2 := by
  intro m
  refine ⟨trace_segment m (by decide), by decide +kernel, ?_⟩
  intro h
  have := h.method
  revert this
  decide +kernel

/-! ## A POST without a length -/

/-- What `http_parser` does on the segments up to the one that holds the end of
the header section. -/
structure HeadTrace (m : Message) (segs : List Segment) : Prop where
  events : ∃ head, HeadEvents m head ∧
    (segs.flatMap Segment.calls).map HttpCall.event = head ++ [.headersComplete]
  parser : ∀ c ∈ segs.flatMap Segment.calls, SeesParser m c
  placed : Placed m 0 segs

/-- The 411 answer: `parse_request` asks for a length, and `on_readable` prepares
the response and reports the request as over. -/
structure Answered411 (handleRequest : Request → Response → Request × Response)
    (segs : List Segment) : Prop where
  ret : (feed {} segs).1.getLast? = some (.ret PARSE_LEN_REQUIRED)
  reported : (readLoop handleRequest {} segs).1 = .readOver
  res : (readLoop handleRequest {} segs).2.1.res.codeMsg = STATUS_LENGTH_REQUIRED

/-- A refused header section: the failing callback leaves its LF unread, so the
bytes consumed are fewer than the bytes received. -/
theorem feed_headTrace (m : Message) (segs : List Segment) (h : HeadTrace m segs)
    (hfail : m.headOut.1 ≠ .ret 0) :
    ∃ k r, feed {} segs = (List.replicate k (.ret NEED_MORE_STATUS) ++ [.ret (-1)], r) := by
  obtain ⟨head, hhead, hevents⟩ := h.events
  obtain ⟨as, rest, hcalls, has, hrest⟩ := List.map_eq_append_iff.mp hevents
  obtain ⟨hc, behind, rfl, hce, hnil⟩ := List.map_eq_cons_iff.mp hrest
  obtain rfl := List.map_eq_nil_iff.mp hnil
  have hsees : ∀ c ∈ as ++ [hc], SeesParser m c := by
    rw [← hcalls]; exact h.parser
  have hrun : runAll httpCall as {} = (none, m.headState) := by
    refine runAll_calls m as (fun c hc => hsees c (by simp [hc])) {} m.headState ?_
    rw [has]
    exact run_head m head hhead
  have hheadOut : httpCall hc m.headState = m.headOut := by
    rw [httpCall_eq (hsees hc (by simp)), hce]
    rfl
  have hcode : m.headOut.1 = .ret (-1) := (headersComplete_ret _).resolve_left hfail
  obtain ⟨k, r, hfeed, -⟩ := feed_stopped segs as [] hc (-1) hcalls
    (ne_messageComplete as (by rw [has]; exact no_messageComplete_head hhead)) (by rw [hrun])
    (by rw [hrun, hheadOut, hcode]) (by decide)
    (fun front seg back hsegs hmem => by
      have hplaced := h.placed
      rw [hsegs] at hplaced
      exact ((hplaced.split hc hmem).1 hce).2)
  exact ⟨k, r, hfeed⟩

/-- A header that is on no line, or on empty ones only, reads as empty. -/
theorem header_empty (m : Message) (name : Bytes)
    (h : ∀ line ∈ m.headers, ssStrTolower line.1 = ssStrTolower name → line.2 = []) :
    m.header name = [] := by
  unfold Message.header lastHeader
  cases hf : m.headers.reverse.find? (fun h => ssStrTolower h.1 = ssStrTolower name) with
  | none => rfl
  | some line =>
    have hmem := List.mem_of_find?_eq_some hf
    have hname := List.find?_some hf
    simp only [Option.map_some, Option.getD_some]
    exact h line (List.mem_reverse.mp hmem) (by simpa using hname)

/-- **No 411.**  A POST with header lines but no length is never answered: the
last `parse_request` returns -1 and `on_readable` closes the connection. -/
theorem never_answered_411 (handleRequest : Request → Response → Request × Response)
    (m : Message) (segs : List Segment) (h : HeadTrace m segs) (hpost : m.method = .post)
    (hheaders : m.headers ≠ [])
    (hlen : ∀ line ∈ m.headers, ssStrTolower line.1 = bytes "content-length" → line.2 = []) :
    ¬ Answered411 handleRequest segs ∧
      (feed {} segs).1.getLast? = some (.ret (-1)) ∧
      (readLoop handleRequest {} segs).1 = .readClose := by
  have hempty : m.header (bytes "Content-Length") = [] := by
    refine header_empty m _ ?_
    intro line hmem hname
    have hlower : ssStrTolower (bytes "Content-Length") = bytes "content-length" := by decide
    exact hlen line hmem (by rw [hname, hlower])
  have hfail : m.headOut.1 ≠ .ret 0 := fun hok =>
    m.headOut_ok_iff.mp hok ⟨hheaders, hpost, hempty⟩
  obtain ⟨k, r, hfeed⟩ := feed_headTrace m segs h hfail
  have hlast : (feed {} segs).1.getLast? = some (.ret (-1)) := by
    rw [hfeed]; simp
  have hread : (readLoop handleRequest {} segs).1 = .readClose := by
    have hloop := readLoop_feed handleRequest segs {} r {} k (.ret (-1)) hfeed (by decide)
    have hdefault : ({} : HttpContext) = { req := {}, res := {} } := rfl
    rw [hdefault, hloop]
    rfl
  refine ⟨?_, hlast, hread⟩
  intro hanswered
  have hret := hanswered.ret
  rw [hlast] at hret
  exact absurd hret (by decide)

/-- The head of `POST /`, with one header line that is not a length. -/
def postHead : Message :=
  { method := .post, url := bytes "/", httpMajor := 1, httpMinor := 1
    headers := [(bytes "Host", bytes "x")], body := [], trailers := [], headLf := 27, size := 28 }

/-- It arrives in two segments, the second with the end of the header section. -/
def postHeadSegments : List Segment :=
  [⟨17, [⟨postHead.parser, .url (bytes "/"), 0⟩]⟩,
   ⟨11, [⟨postHead.parser, .headerField (bytes "Host"), 0⟩,
    ⟨postHead.parser, .headerValue (bytes "x"), 0⟩, ⟨postHead.parser, .headersComplete, 10⟩]⟩]

theorem postHead_trace : HeadTrace postHead postHeadSegments := by
  refine ⟨⟨_, ⟨[bytes "/"], _, by decide, rfl,
    .cons [bytes "Host"] [bytes "x"] [] [] (by decide) (by decide) .nil, rfl⟩, rfl⟩, ?_, ?_⟩
  · intro c hc
    simp only [postHeadSegments, List.flatMap_cons, List.flatMap_nil] at hc
    simp at hc
    rcases hc with rfl | rfl | rfl | rfl <;> exact Or.inr rfl
  · simp [Placed, postHeadSegments, postHead]

theorem never_answered_411_post :
    HeadTrace postHead postHeadSegments ∧
      ¬ Answered411 (fun req res => (req, res)) postHeadSegments ∧
      (feed {} postHeadSegments).1.getLast? = some (.ret (-1)) ∧
      (readLoop (fun req res => (req, res)) {} postHeadSegments).1 = .readClose :=
  ⟨postHead_trace, never_answered_411 _ postHead postHeadSegments postHead_trace rfl (by decide)
    (by decide)⟩

/-- The same input, refused without an answer. -/
theorem post_without_length_closed :
    HeadTrace postHead postHeadSegments ∧
      ¬ Answered411 (fun req res => (req, res)) postHeadSegments := by
  refine ⟨postHead_trace, ?_⟩
  intro h
  exact absurd h.ret (by decide +kernel)

end Ehttp
