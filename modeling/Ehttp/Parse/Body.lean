import Ehttp.Parse.Headers

/-!
# The body of a parsed message

What `on_message_complete` makes of the body depends on the Content-Type and
the bytes alone.

* `verdict_body`, `request_body`: return and body of an accepted head;
* `messageBody_multipart`: a multipart body goes to the multipart parser.
-/

namespace Ehttp

open Lib

theorem parseFormBody_multipart (ct : Bytes) (b : RequestBody)
    (h : contains (bytes "multipart/form-data") ct = true) : parseFormBody ct b = b := by
  have hne : ct ≠ bytes "application/x-www-form-urlencoded" := by
    rintro rfl
    exact absurd h (by decide)
  rw [parseFormBody, if_neg hne]

theorem messageBody_multipart (ct : Bytes) (b : RequestBody)
    (h : contains (bytes "multipart/form-data") ct = true) (hne : b.rawString ≠ []) :
    messageBody ct b = parseMultipartBody ct b := by
  simp only [messageBody, parseFormBody_multipart ct b h]
  rw [if_pos ⟨h, hne⟩]

/-- Nothing is made of an empty body. -/
theorem messageBody_empty (ct : Bytes) :
    messageBody ct { rawString := [] } = (.ret 0, { rawString := [] }) := by
  have hform : parseFormBody ct { rawString := [] } = { rawString := [] } := by
    unfold parseFormBody
    split <;> simp
  simp [messageBody, hform]

namespace Message

variable (m : Message)

theorem body_headOut : m.headOut.2.body = {} := by
  obtain ⟨hf, hv, -⟩ := m.headState_fields
  have hstate : m.headState.body = {} := by
    rw [headState, Request.withHeaders]
    split
    · rfl
    · simp only [Request.inHead]
      split <;> rfl
  have hover : m.headState.headOver.body = {} := by
    rw [Request.headOver, addHeaders_eq]
    exact hstate
  have hget : (m.headState.headOver.getHeader (bytes "Content-Length")).2.body = {} := by
    rw [Request.getHeader_frame]
    exact hover
  rw [headOut, ssOnHeadersComplete_eq _ (by rw [hf, hv]; simp)]
  split
  · simp only
    split <;> exact hget
  · exact hover

theorem body_bodyState : m.bodyState.body = { rawString := m.body } := by
  simp [bodyState, m.body_headOut]

/-- The return for a message with an accepted head. -/
theorem verdict_body (hok : m.headOut.1 = .ret 0) (hsize : m.size ≤ MAX_REQ_SIZE) :
    m.verdict =
      bodyVerdict (messageBody (m.header (bytes "Content-Type")) { rawString := m.body }).1 := by
  have hnot : ¬ (m.headOut.1 ≠ .ret 0 ∨ MAX_REQ_SIZE < m.size) := by
    rintro (h | h)
    · exact h hok
    · omega
  rw [verdict, if_neg hnot, overOut, overRet_messageComplete _ (parseErr_bodyState m hok),
    m.header_bodyState, m.body_bodyState]

/-- The body of the parsed request. -/
theorem request_body (hok : m.headOut.1 = .ret 0) :
    m.request.body =
      (messageBody (m.header (bytes "Content-Type")) { rawString := m.body }).2 := by
  rw [request, if_neg (by simp [hok]), overOut, ssOnMessageComplete_eq, m.header_bodyState,
    m.body_bodyState]

/-- A POST is accepted so far when its Content-Length is not empty. -/
theorem headOut_post (h : m.header (bytes "Content-Length") ≠ []) : m.headOut.1 = .ret 0 := by
  rw [m.headOut_ok_iff]
  rintro ⟨-, -, hempty⟩
  exact h hempty

/-- **The outcome** of every trace of a message with an accepted head. -/
theorem feed_body (hok : m.headOut.1 = .ret 0) (hsize : m.size ≤ MAX_REQ_SIZE)
    (segs : List Segment) (h : Trace m segs) :
    let out := messageBody (m.header (bytes "Content-Type")) { rawString := m.body }
    (feed {} segs).1.getLast? = some (bodyVerdict out.1) ∧ (feed {} segs).2.body = out.2 := by
  obtain ⟨k, r, hfeed, hsame, -⟩ := feed_trace m segs h
  rw [hfeed, List.getLast?_append, m.verdict_body hok hsize]
  exact ⟨rfl, by rw [(hsame hsize).body, m.request_body hok]⟩

/-- The method of a parsed request with header lines. -/
theorem getMethod_request (hne : m.headers ≠ []) :
    m.request.getMethod = httpMethodStr m.method := by
  rw [Request.getMethod, m.line_request, m.line_headState, if_neg hne, recorded_eq]
  rfl

/-- A request that reads as that of a POST. -/
theorem getMethod_post (hne : m.headers ≠ []) (hpost : m.method = .post) (r : Request)
    (hr : r.Same m.request) : r.getMethod = bytes "POST" := by
  rw [Request.getMethod, hr.line]
  exact (m.getMethod_request hne).trans ((httpMethodStr_post _).mpr hpost)

end Message

theorem bodyVerdict_zero (x : Exit) : bodyVerdict x = .ret 0 ↔ x = .ret 0 := by
  cases x with
  | thrown => simp [bodyVerdict]
  | ret code =>
    by_cases h : code = 0
    · simp [bodyVerdict, h]
    · have herr : PARSE_MULTIPART_ERR ≠ 0 := by decide
      simp [bodyVerdict, h, herr]

/-! ## The log of the body -/

/-- The multipart callbacks made for the body. -/
def Message.multipartLog (m : Message) : List MultipartEvent :=
  if m.body = [] then []
  else
    match multipartBoundary (m.header (bytes "Content-Type")) with
    | none => []
    | some boundary => (((multipartParserInit boundary).log m.body).map (·.1)).getD []

/-- The callbacks of an accepted body all returned 0, and made the body of the
request. -/
theorem accepted_body (m : Message)
    (hct : contains (bytes "multipart/form-data") (m.header (bytes "Content-Type")) = true)
    (h0 : (messageBody (m.header (bytes "Content-Type")) { rawString := m.body }).1 = .ret 0) :
    runAll multipartCallback m.multipartLog { rawString := m.body } =
      (none, (messageBody (m.header (bytes "Content-Type")) { rawString := m.body }).2) := by
  by_cases hempty : m.body = []
  · simp [Message.multipartLog, hempty, messageBody, runAll, parseFormBody_multipart _ _ hct]
  · rw [messageBody_multipart _ _ hct hempty] at h0 ⊢
    cases hb : multipartBoundary (m.header (bytes "Content-Type")) with
    | none => simp [Message.multipartLog, hempty, hb, parseMultipartBody, runAll]
    | some boundary =>
      cases hlog : (multipartParserInit boundary).log m.body with
      | none => exact absurd h0 (parseMultipartBody_stopped _ boundary _ hempty hb hlog)
      | some r =>
        obtain ⟨es, p⟩ := r
        have hbody := parseMultipartBody_log _ boundary { rawString := m.body } hempty hb es p hlog
        have hes : m.multipartLog = es := by simp [Message.multipartLog, hempty, hb, hlog]
        rw [hbody] at h0 ⊢
        rw [hes]
        exact Prod.ext ((parseRet_zero _).mp h0) rfl

/-- A missing header reads as empty. -/
theorem Message.headers_ne_nil {m : Message} {name : Bytes} (h : m.header name ≠ []) :
    m.headers ≠ [] := by
  intro hnil
  apply h
  simp [Message.header, lastHeader, hnil]

end Ehttp
