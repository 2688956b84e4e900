import Ehttp.Parse.Feed

/-!
# The callback traces of one message

A `Message` is what `http_parser` reads in one HTTP request, and `Trace` the
segments it can arrive in: every string of the message is cut into fragments,
and the bytes into segments, at will.

* `run_head`, `run_tail`: the callbacks leave a request that depends on the
  message alone;
* `trace_segment`: every message has a trace.
-/

namespace Ehttp

open Lib

/-- One request message.  `headLf` is the offset of the LF that ends the header
section and `size` that of the first byte behind the message; `trailers` are
the header lines behind a chunked body. -/
structure Message where
  method : HttpMethod
  url : Bytes
  httpMajor : Nat
  httpMinor : Nat
  headers : List (Bytes × Bytes)
  body : Bytes
  trailers : List (Bytes × Bytes)
  headLf : Nat
  size : Nat
  deriving DecidableEq, Repr

def Message.parser (m : Message) : HttpParser := ⟨m.method, m.httpMajor, m.httpMinor⟩

/-- The field and value callbacks of header lines, each name and value in one
or more fragments. -/
inductive HeaderFragments : List (Bytes × Bytes) → List HttpEvent → Prop
  | nil : HeaderFragments [] []
  | cons (names values : List Bytes) (headers : List (Bytes × Bytes)) (es : List HttpEvent) :
      names ≠ [] → values ≠ [] → HeaderFragments headers es →
      HeaderFragments ((names.flatten, values.flatten) :: headers)
        (names.map .headerField ++ values.map .headerValue ++ es)

/-- The callbacks before `on_headers_complete`. -/
def HeadEvents (m : Message) (es : List HttpEvent) : Prop :=
  ∃ (urls : List Bytes) (hs : List HttpEvent), urls ≠ [] ∧ urls.flatten = m.url ∧
    HeaderFragments m.headers hs ∧
    es = urls.map .url ++ hs

/-- The callbacks between `on_headers_complete` and `on_message_complete`. -/
def TailEvents (m : Message) (es : List HttpEvent) : Prop :=
  ∃ (bodies : List Bytes) (ts : List HttpEvent), bodies.flatten = m.body ∧
    HeaderFragments m.trailers ts ∧
    es = bodies.map .body ++ ts

/-- Where the two callbacks that can fail are made: the first at the LF that
ends the header section, the second behind the message. -/
def Placed (m : Message) : Nat → List Segment → Prop
  | _, [] => True
  | start, seg :: segs =>
    (∀ c ∈ seg.calls,
      (c.event = .headersComplete → start + c.consumed = m.headLf ∧ c.consumed < seg.readSize) ∧
      (c.event = .messageComplete → start + c.consumed = m.size ∧ c.consumed ≤ seg.readSize)) ∧
    Placed m (start + seg.readSize) segs

/-- The parser fields are set once the request line is read. -/
def SeesParser (m : Message) (c : HttpCall) : Prop :=
  (∃ s, c.event = .url s) ∨ c.parser = m.parser

/-- What `http_parser` does on the segments of one complete message. -/
structure Trace (m : Message) (segs : List Segment) : Prop where
  events : ∃ head tail, HeadEvents m head ∧ TailEvents m tail ∧
    (segs.flatMap Segment.calls).map HttpCall.event =
      head ++ .headersComplete :: (tail ++ [.messageComplete])
  parser : ∀ c ∈ segs.flatMap Segment.calls, SeesParser m c
  placed : Placed m 0 segs
  size : totalSize segs = m.size
  nonempty : ∀ seg ∈ segs, 0 < seg.readSize

theorem Placed.split {m : Message} {start : Nat} {front back : List Segment} {seg : Segment}
    (h : Placed m start (front ++ seg :: back)) : ∀ c ∈ seg.calls,
      (c.event = .headersComplete →
        start + totalSize front + c.consumed = m.headLf ∧ c.consumed < seg.readSize) ∧
      (c.event = .messageComplete →
        start + totalSize front + c.consumed = m.size ∧ c.consumed ≤ seg.readSize) := by
  induction front generalizing start with
  | nil => exact h.1
  | cons first front ih =>
    have := ih h.2
    simpa [totalSize, Nat.add_assoc] using this

/-! ## The trace in one segment -/

theorem headerFragments_whole (headers : List (Bytes × Bytes)) :
    HeaderFragments headers (headers.flatMap fun h => [.headerField h.1, .headerValue h.2]) := by
  induction headers with
  | nil => exact .nil
  | cons h headers ih => simpa using HeaderFragments.cons [h.1] [h.2] headers _ (by simp) (by simp) ih

def Message.headEvents (m : Message) : List HttpEvent :=
  .url m.url :: m.headers.flatMap fun h => [.headerField h.1, .headerValue h.2]

def Message.tailEvents (m : Message) : List HttpEvent :=
  .body m.body :: m.trailers.flatMap fun h => [.headerField h.1, .headerValue h.2]

/-- All of the message in one `recv`, no string cut. -/
def Message.segment (m : Message) : Segment where
  readSize := m.size
  calls := (m.headEvents ++ HttpEvent.headersComplete ::
      (m.tailEvents ++ [HttpEvent.messageComplete])).map fun e =>
    ⟨m.parser, e, if e = HttpEvent.headersComplete then m.headLf else m.size⟩

/-- Every message has a trace. -/
theorem trace_segment (m : Message) (h : m.headLf < m.size) : Trace m [m.segment] where
  events := by
    refine ⟨m.headEvents, m.tailEvents, ?_, ?_, ?_⟩
    · exact ⟨[m.url], _, by simp, by simp, headerFragments_whole m.headers, rfl⟩
    · exact ⟨[m.body], _, by simp, headerFragments_whole m.trailers, rfl⟩
    · simp [Message.segment, Function.comp_def]
  parser := by
    intro c hc
    rw [List.flatMap_singleton] at hc
    obtain ⟨e, -, rfl⟩ := List.mem_map.mp hc
    exact Or.inr rfl
  placed := by
    refine ⟨?_, trivial⟩
    intro c hc
    obtain ⟨e, -, rfl⟩ := List.mem_map.mp hc
    refine ⟨?_, ?_⟩
    · intro he
      simp only at he
      simp [he, Message.segment, h]
    · intro he
      simp only at he
      simp [he, Message.segment]
  size := by simp [totalSize, Message.segment]
  nonempty := by
    intro seg hseg
    obtain rfl := List.mem_singleton.mp hseg
    exact Nat.lt_of_le_of_lt (Nat.zero_le _) h

/-! ## The head of the message -/

section Fragments

variable (p : HttpParser)

theorem inHead_of_ne {r : Request} (h : r.parsePart ≠ .line) : r.inHead p = r := by
  simp [Request.inHead, h]

theorem parsePart_inHead (r : Request) : (r.inHead p).parsePart ≠ .line := by
  unfold Request.inHead
  split
  · simp
  · assumption

theorem parsePart_pushHeaderField (s : Bytes) (r : Request) :
    (pushHeaderField s r).parsePart = r.parsePart := by
  unfold pushHeaderField
  split <;> rfl

theorem pushHeaderField_join (x y : Bytes) (r : Request) :
    pushHeaderField y (pushHeaderField x r) = pushHeaderField (x ++ y) r := by
  cases h : r.lastWasValue with
  | true => simp [pushHeaderField, h, updateBack_snoc]
  | false => simp [pushHeaderField, h, updateBack_updateBack]

/-- A name in fragments is a name in one piece. -/
theorem run_names (names : List Bytes) (h : names ≠ []) (r : Request) :
    runAll (httpCallback p) (names.map .headerField) r =
      (none, pushHeaderField names.flatten (r.inHead p)) := by
  have hcb : ∀ s r, httpCallback p (.headerField s) r = (.ret 0, pushHeaderField s (r.inHead p)) :=
    fun s r => ssOnHeaderField_eq p s r
  rw [RunAll.runAll_fragments (httpCallback p) .headerField ?_ ?_ names h r, hcb]
  · intro x s
    rw [hcb]
  · intro x y s
    have hne : (pushHeaderField x (s.inHead p)).parsePart ≠ .line := by
      rw [parsePart_pushHeaderField]; exact parsePart_inHead p s
    rw [hcb, hcb, hcb, inHead_of_ne p hne, pushHeaderField_join]

/-- A value in fragments is a value in one piece. -/
theorem run_values (values : List Bytes) (h : values ≠ []) (r : Request) :
    runAll (httpCallback p) (values.map .headerValue) r =
      (none, (ssOnHeaderValue values.flatten r).2) := by
  rw [RunAll.runAll_fragments (httpCallback p) .headerValue ?_ ?_ values h r]
  · rfl
  · intro x s
    rfl
  · intro x y s
    cases hl : s.lastWasValue with
    | true => simp [httpCallback, ssOnHeaderValue, hl, updateBack_updateBack]
    | false => simp [httpCallback, ssOnHeaderValue, hl, updateBack_snoc]

/-- The request with header lines recorded. -/
def Request.withHeaders (headers : List (Bytes × Bytes)) (r : Request) : Request :=
  if headers = [] then r
  else { r.inHead p with
    headerFields := r.headerFields ++ headers.map (·.1)
    headerValues := r.headerValues ++ headers.map (·.2) }

theorem run_headers (headers : List (Bytes × Bytes)) (es : List HttpEvent)
    (h : HeaderFragments headers es) (r : Request) (hr : r.lastWasValue = true) :
    runAll (httpCallback p) es r = (none, r.withHeaders p headers) := by
  induction h generalizing r with
  | nil => rfl
  | cons names values headers es hn hv _ ih =>
    have hhead : (r.inHead p).lastWasValue = true ∧ (r.inHead p).headerFields = r.headerFields ∧
        (r.inHead p).headerValues = r.headerValues := by
      unfold Request.inHead
      split <;> exact ⟨hr, rfl, rfl⟩
    obtain ⟨hlast, hfields, hvalues⟩ := hhead
    have hpair : runAll (httpCallback p) (names.map .headerField ++ values.map .headerValue) r =
        (none, r.withHeaders p [(names.flatten, values.flatten)]) := by
      rw [RunAll.runAll_append_ok _ _ _ _ (by rw [run_names p names hn]), run_names p names hn,
        run_values p values hv]
      simp [pushHeaderField, hlast, ssOnHeaderValue, hfields, hvalues, Request.withHeaders]
    rw [RunAll.runAll_append_ok _ _ _ _ (by rw [hpair]), hpair]
    simp only
    rw [ih _ (by simp [Request.withHeaders, hlast])]
    have hne : (r.withHeaders p [(names.flatten, values.flatten)]).parsePart ≠ .line := by
      simpa [Request.withHeaders] using parsePart_inHead p r
    cases headers with
    | nil => simp [Request.withHeaders]
    | cons k ks =>
      rw [Request.withHeaders, inHead_of_ne p hne]
      simp [Request.withHeaders, List.append_assoc]

end Fragments

/-! ## The whole message -/

namespace Message

variable (m : Message)

/-- The request when the header section ends. -/
def headState : Request :=
  Request.withHeaders m.parser m.headers { line := { requestUrl := m.url } }

/-- What `on_headers_complete` makes of it. -/
def headOut : Exit × Request := ssOnHeadersComplete m.headState

/-- The request when the message ends. -/
def bodyState : Request :=
  let req := m.headOut.2
  { req with
    headerFields := req.headerFields ++ m.trailers.map (·.1)
    headerValues := req.headerValues ++ m.trailers.map (·.2)
    body := { req.body with rawString := req.body.rawString ++ m.body } }

/-- What `on_message_complete` makes of it. -/
def overOut : Exit × Request := ssOnMessageComplete m.bodyState

/-- The last return of `parse_request`. -/
def verdict : Exit :=
  if m.headOut.1 ≠ .ret 0 ∨ MAX_REQ_SIZE < m.size then .ret (-1)
  else overRet m.overOut.1 m.overOut.2

/-- The request behind that return. -/
def request : Request := if m.headOut.1 ≠ .ret 0 then m.headOut.2 else m.overOut.2

end Message

theorem run_urls (p : HttpParser) (urls : List Bytes) (h : urls ≠ []) (r : Request) :
    runAll (httpCallback p) (urls.map .url) r = (none, (ssOnUrl urls.flatten r).2) := by
  rw [RunAll.runAll_fragments (httpCallback p) .url ?_ ?_ urls h r]
  · rfl
  · intro x s
    rfl
  · intro x y s
    simp [httpCallback, ssOnUrl, RequestLine.appendRequestUrl]

/-- **The head.**  Its callbacks cannot fail. -/
theorem run_head (m : Message) (es : List HttpEvent) (h : HeadEvents m es) :
    runAll (httpCallback m.parser) es {} = (none, m.headState) := by
  obtain ⟨urls, hs, hne, hurl, hhs, rfl⟩ := h
  have hu := run_urls m.parser urls hne {}
  rw [RunAll.runAll_append_ok _ _ _ _ (by rw [hu]), hu, run_headers m.parser m.headers hs hhs]
  · simp only [ssOnUrl, RequestLine.appendRequestUrl, hurl]
    rfl
  · rfl

/-- The body arrives in any number of fragments, none included. -/
theorem run_bodies (p : HttpParser) (bodies : List Bytes) (r : Request) :
    ∃ part, (part = r.parsePart ∨ part = .body) ∧
      runAll (httpCallback p) (bodies.map .body) r =
        (none, { r with
          body := { r.body with rawString := r.body.rawString ++ bodies.flatten }
          parsePart := part }) := by
  cases bodies with
  | nil => exact ⟨r.parsePart, Or.inl rfl, by simp [runAll]⟩
  | cons b bodies =>
    refine ⟨.body, Or.inr rfl, ?_⟩
    rw [RunAll.runAll_fragments (httpCallback p) .body ?_ ?_ (b :: bodies) (by simp) r]
    · rfl
    · intro x s
      rfl
    · intro x y s
      simp [httpCallback, ssOnBody]

theorem parsePart_headersComplete (r : Request) (h : (ssOnHeadersComplete r).1 = .ret 0) :
    (ssOnHeadersComplete r).2.parsePart = .headOver := by
  by_cases hlen : r.headerFields.length = r.headerValues.length
  · rw [ssOnHeadersComplete_eq r hlen] at h ⊢
    have hget : (r.headOver.getHeader (bytes "Content-Length")).2.parsePart = .headOver := by
      rw [Request.getHeader_frame]
      rfl
    split
    · rename_i hpost
      simp only [hpost, ↓reduceIte] at h
      simp only
      split
      · rename_i hempty
        simp [hempty] at h
      · exact hget
    · rfl
  · simp [ssOnHeadersComplete, hlen] at h

theorem lastWasValue_headersComplete (r : Request) :
    (ssOnHeadersComplete r).2.lastWasValue = r.lastWasValue := by
  have hover : r.headOver.lastWasValue = r.lastWasValue := by
    rw [Request.headOver, addHeaders_eq]
  by_cases hlen : r.headerFields.length = r.headerValues.length
  · rw [ssOnHeadersComplete_eq r hlen]
    have hget : (r.headOver.getHeader (bytes "Content-Length")).2.lastWasValue = r.lastWasValue := by
      rw [Request.getHeader_frame]
      exact hover
    split
    · simp only
      split <;> exact hget
    · exact hover
  · simp [ssOnHeadersComplete, hlen]

/-- **Between the head and the end** the callbacks cannot fail either; what is
open is only whether a body callback was made. -/
theorem run_tail (m : Message) (es : List HttpEvent) (h : TailEvents m es)
    (hok : m.headOut.1 = .ret 0) :
    ∃ part, part ≠ .line ∧ runAll (httpCallback m.parser) es m.headOut.2 =
      (none, { m.bodyState with parsePart := part }) := by
  obtain ⟨bodies, ts, hbody, hts, rfl⟩ := h
  have hpart : m.headOut.2.parsePart = .headOver := parsePart_headersComplete _ hok
  have hlast : m.headOut.2.lastWasValue = true := by
    rw [Message.headOut, lastWasValue_headersComplete, Message.headState, Request.withHeaders]
    split
    · rfl
    · rfl
  obtain ⟨part, hor, hrun⟩ := run_bodies m.parser bodies m.headOut.2
  have hne : part ≠ .line := by
    rcases hor with rfl | rfl
    · rw [hpart]; decide
    · decide
  refine ⟨part, hne, ?_⟩
  rw [RunAll.runAll_append_ok _ _ _ _ (by rw [hrun]), hrun, run_headers m.parser m.trailers ts hts]
  · rw [hbody, Request.withHeaders, inHead_of_ne m.parser (by simpa using hne)]
    split
    · rename_i hnil
      simp [Message.bodyState, hnil]
    · rfl
  · exact hlast

end Ehttp
