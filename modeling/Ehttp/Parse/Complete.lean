import Ehttp.Multipart.Refusal
import Ehttp.Parse.Body

/-!
# Complete multipart requests

Is an accepted multipart POST a complete one?

* `parse_undetermined`, `parse_stopped`, `parse_read`: what
  `ss_parse_multipart_data` returns, by how the body ends;
* `complete_iff`: it is, unless the boundary cannot be determined or the body
  breaks off and no callback refuses it;
* `incomplete_accepted`: one of each.
-/

namespace Ehttp

open Lib

/-- How the multipart parser comes to the end of the body: it has no boundary,
stops at a byte, runs out of input or has read the closing delimiter. -/
inductive Ending
  | undetermined | stopped | truncated | closed
  deriving DecidableEq, Repr

def Message.ending (m : Message) : Ending :=
  match multipartBoundary (m.header (bytes "Content-Type")) with
  | none => .undetermined
  | some boundary =>
    match (multipartParserInit boundary).log m.body with
    | none => .stopped
    | some (_, p) => if p.state = .sEnd then .closed else .truncated

/-- The params a user sees are the items, in order. -/
def ParamsOfItems (r : Request) : Prop :=
  ∀ name,
    r.getParams name = (r.body.fileItems.filter (·.name = name)).map (·.data) ∧
    r.getParam name = ((r.body.fileItems.filter (·.name = name)).map (·.data)).head?.getD []

/-- An accepted request is complete, and a body without a boundary or without
its end is answered with `PARSE_MULTIPART_ERR`. -/
structure CompleteOrRefused (m : Message) (ret : Exit) (r : Request) : Prop where
  complete : ret = .ret 0 → m.ending = .closed
  params : ret = .ret 0 → ParamsOfItems r
  refused : m.ending = .undetermined ∨ m.ending = .truncated → ret = .ret PARSE_MULTIPART_ERR

section Ending

variable (m : Message)

theorem parse_undetermined (h : m.ending = .undetermined) :
    (parseMultipartBody (m.header (bytes "Content-Type")) { rawString := m.body }).1 = .ret 0 := by
  have hb : multipartBoundary (m.header (bytes "Content-Type")) = none := by
    unfold Message.ending at h
    split at h
    · assumption
    · split at h
      · cases h
      · split at h <;> cases h
  simp [parseMultipartBody, hb]

theorem parse_stopped (hne : m.body ≠ []) (h : m.ending = .stopped) :
    (parseMultipartBody (m.header (bytes "Content-Type")) { rawString := m.body }).1 ≠ .ret 0 := by
  unfold Message.ending at h
  split at h
  · cases h
  · rename_i boundary hb
    split at h
    · rename_i hlog
      exact parseMultipartBody_stopped _ boundary _ hne hb hlog
    · split at h <;> cases h

/-- When the parser takes every byte, the callbacks decide. -/
theorem parse_read (hne : m.body ≠ []) (h : m.ending = .truncated ∨ m.ending = .closed) :
    ∃ p : MultipartParser, p.Ends m.multipartLog ∧ (p.state = .sEnd ↔ m.ending = .closed) ∧
      parseMultipartBody (m.header (bytes "Content-Type")) { rawString := m.body } =
        (parseRet (runAll multipartCallback m.multipartLog { rawString := m.body }).1,
          (runAll multipartCallback m.multipartLog { rawString := m.body }).2) := by
  unfold Message.ending at h ⊢
  cases hb : multipartBoundary (m.header (bytes "Content-Type")) with
  | none => simp [hb] at h
  | some boundary =>
    cases hlog : (multipartParserInit boundary).log m.body with
    | none => simp [hb, hlog] at h
    | some r =>
      obtain ⟨es, p⟩ := r
      have hes : m.multipartLog = es := by simp [Message.multipartLog, hne, hb, hlog]
      have hends := MultipartParser.log_ends boundary m.body es p hlog
      have hbody := parseMultipartBody_log _ boundary { rawString := m.body } hne hb es p hlog
      rw [hes]
      refine ⟨p, hends, ?_, hbody⟩
      simp only [hlog]
      constructor
      · intro hs
        rw [if_pos hs]
      · intro hc
        split at hc
        · assumption
        · cases hc

end Ending

theorem paramsOfItems_of_params (r : Request) (hmethod : r.getMethod = bytes "POST")
    (h : r.body.reqParams.params = r.body.fileItems.map fun item => (item.name, item.data)) :
    ParamsOfItems r := by
  have hget : bytes "POST" ≠ bytes "GET" := by decide
  have hparams : ∀ name, r.body.reqParams.params.equalRange name =
      (r.body.fileItems.filter (·.name = name)).map (·.data) := by
    intro name
    rw [StdMultimap.equalRange, h, List.filter_map, List.map_map]
    rfl
  intro name
  constructor
  · simp only [Request.getParams, hmethod, hget, ↓reduceIte, List.nil_append]
    exact hparams name
  · simp only [Request.getParam, hmethod, hget, ↓reduceIte]
    rw [← hparams name, ← StdMultimap.find_eq_head]
    rfl

/-- A refused request need only have the right code, where one is asked for. -/
theorem completeOrRefused_of_ne {m : Message} {ret : Exit} {r : Request} (hne : ret ≠ .ret 0)
    (h : m.ending = .undetermined ∨ m.ending = .truncated → ret = .ret PARSE_MULTIPART_ERR) :
    CompleteOrRefused m ret r :=
  ⟨fun h0 => absurd h0 hne, fun h0 => absurd h0 hne, h⟩

/-- Out of the size limit or without a length, the return is -1. -/
theorem verdict_limits {m : Message} (hpost : m.method = .post) (hheaders : m.headers ≠ [])
    (h : ¬ (m.size ≤ MAX_REQ_SIZE ∧ m.header (bytes "Content-Length") ≠ [])) :
    m.verdict = .ret (-1) := by
  rw [Message.verdict, if_pos]
  rcases Nat.lt_or_ge MAX_REQ_SIZE m.size with hbig | hsize
  · exact Or.inr hbig
  · apply Or.inl
    rw [ne_eq, m.headOut_ok_iff, Classical.not_not]
    refine ⟨hheaders, hpost, ?_⟩
    exact Classical.byContradiction fun hlen => h ⟨hsize, hlen⟩

/-- What becomes of the return where the callbacks decide. -/
theorem bodyVerdict_parseRet (stop : Option (MultipartEvent × Exit)) :
    bodyVerdict (parseRet stop) = .ret PARSE_MULTIPART_ERR ↔
      ∃ e code, stop = some (e, .ret code) := by
  have herr : PARSE_MULTIPART_ERR ≠ 0 := by decide
  rcases stop with _ | ⟨e, x⟩
  · simp [parseRet, bodyVerdict, herr.symm]
  · cases x with
    | thrown => simp [parseRet, bodyVerdict]
    | ret code => simp [parseRet, bodyVerdict]

/-- Out of these limits nothing is accepted, and no code is the right one. -/
theorem completeOrRefused_limits {m : Message} {r : Request} (hv : m.verdict = .ret (-1))
    (hlimits : ¬ (m.size ≤ MAX_REQ_SIZE ∧ m.header (bytes "Content-Length") ≠ [])) :
    CompleteOrRefused m m.verdict r ↔
      m.ending ≠ .undetermined ∧
        (m.ending = .truncated → m.size ≤ MAX_REQ_SIZE ∧
          m.header (bytes "Content-Length") ≠ [] ∧ Refused m.multipartLog) := by
  have herr : m.verdict ≠ .ret PARSE_MULTIPART_ERR := by rw [hv]; decide
  constructor
  · intro hr
    refine ⟨fun hu => herr (hr.refused (Or.inl hu)), fun ht => ?_⟩
    exact absurd (hr.refused (Or.inr ht)) herr
  · rintro ⟨hu, ht⟩
    apply completeOrRefused_of_ne (by rw [hv]; decide)
    rintro (hend | hend)
    · exact absurd hend hu
    · exact absurd ⟨(ht hend).1, (ht hend).2.1⟩ hlimits

/-- A body with its closing delimiter: if the callbacks accept it, the last of
them has filled the params. -/
theorem complete_closed {m : Message} {r : Request} (hne : m.body ≠ []) (hend : m.ending = .closed)
    (hmethod : r.getMethod = bytes "POST")
    (hv : m.verdict = bodyVerdict
      (parseMultipartBody (m.header (bytes "Content-Type")) { rawString := m.body }).1)
    (hbody : r.body =
      (parseMultipartBody (m.header (bytes "Content-Type")) { rawString := m.body }).2) :
    CompleteOrRefused m m.verdict r := by
  obtain ⟨p, hends, hstate, hparse⟩ := parse_read m hne (Or.inr hend)
  have hs : p.state = .sEnd := hstate.mpr hend
  rw [MultipartParser.Ends, if_pos hs] at hends
  obtain ⟨front, hlog, hfront⟩ := hends
  refine ⟨fun _ => hend, ?_, ?_⟩
  · intro h0
    rw [hv, bodyVerdict_zero, hparse, parseRet_zero] at h0
    apply paramsOfItems_of_params r hmethod
    rw [hbody, hparse]
    rw [hlog] at h0 ⊢
    exact params_bodyEnd front hfront { rawString := m.body } h0
  · rw [hend]
    rintro (h | h) <;> cases h

/-- **Complete requests.**  A multipart POST is complete or refused if and only if
its boundary can be determined and, should its body break off, the request is
within the size limit, has a length and makes one of the callbacks refuse. -/
theorem complete_iff (m : Message) (segs : List Segment) (h : Trace m segs)
    (hpost : m.method = .post)
    (hct : contains (bytes "multipart/form-data") (m.header (bytes "Content-Type")) = true)
    (hne : m.body ≠ []) (ret : Exit) (hret : (feed {} segs).1.getLast? = some ret) :
    CompleteOrRefused m ret (feed {} segs).2 ↔
      m.ending ≠ .undetermined ∧
        (m.ending = .truncated → m.size ≤ MAX_REQ_SIZE ∧
          m.header (bytes "Content-Length") ≠ [] ∧ Refused m.multipartLog) := by
  obtain ⟨k, r, hfeed, hsame, -⟩ := feed_trace m segs h
  rw [hfeed] at hret ⊢
  obtain rfl : m.verdict = ret := by simpa using hret
  have hheaders : m.headers ≠ [] := by
    apply @Message.headers_ne_nil m (bytes "Content-Type")
    intro hempty
    rw [hempty] at hct
    exact absurd hct (by decide)
  by_cases hlimits : m.size ≤ MAX_REQ_SIZE ∧ m.header (bytes "Content-Length") ≠ []
  · obtain ⟨hsize, hlength⟩ := hlimits
    have hok := m.headOut_post hlength
    have hv := m.verdict_body hok hsize
    have hbody : r.body = _ := (hsame hsize).body.trans (m.request_body hok)
    rw [messageBody_multipart _ _ hct hne] at hv hbody
    cases hend : m.ending with
    | undetermined =>
      rw [parse_undetermined m hend] at hv
      constructor
      · intro hr
        have hclosed := hr.complete hv
        rw [hend] at hclosed
        cases hclosed
      · rintro ⟨hu, -⟩
        exact absurd rfl hu
    | stopped =>
      have hstop := parse_stopped m hne hend
      constructor
      · intro _
        simp
      · intro _
        apply completeOrRefused_of_ne
        · rw [hv]
          exact fun h0 => hstop ((bodyVerdict_zero _).mp h0)
        · rw [hend]
          rintro (h | h) <;> cases h
    | truncated =>
      obtain ⟨p, -, -, hparse⟩ := parse_read m hne (Or.inl hend)
      rw [hparse] at hv
      have hrefused := refused_iff m.multipartLog { rawString := m.body } rfl
      rw [← bodyVerdict_parseRet, ← hv] at hrefused
      constructor
      · intro hr
        exact ⟨by simp, fun _ => ⟨hsize, hlength, hrefused.mpr (hr.refused (Or.inr hend))⟩⟩
      · rintro ⟨-, ht⟩
        have herr := hrefused.mp (ht rfl).2.2
        exact completeOrRefused_of_ne (by rw [herr]; decide) fun _ => herr
    | closed =>
      have hmethod := m.getMethod_post hheaders hpost r (hsame hsize)
      constructor
      · intro _
        simp
      · intro _
        exact complete_closed hne hend hmethod hv hbody
  · exact completeOrRefused_limits (verdict_limits hpost hheaders hlimits) hlimits

/-! ## Bodies for which it fails -/

/-- The body breaks off in the data of its part. -/
def truncatedMessage : Message :=
  { method := .post, url := bytes "/", httpMajor := 1, httpMinor := 1
    headers := [(bytes "Content-Type", bytes "multipart/form-data; boundary=B"),
      (bytes "Content-Length", bytes "50")]
    body := bytes "--B\r\nContent-Disposition: form-data; name=\"a\"\r\n\r\n1"
    trailers := [], headLf := 99, size := 150 }

/-- The Content-Type has a parameter more. -/
def undeterminedMessage : Message :=
  { method := .post, url := bytes "/", httpMajor := 1, httpMinor := 1
    headers := [(bytes "Content-Type", bytes "multipart/form-data; charset=utf-8; boundary=B"),
      (bytes "Content-Length", bytes "57")]
    body := bytes "--B\r\nContent-Disposition: form-data; name=\"a\"\r\n\r\n1\r\n--B--"
    trailers := [], headLf := 114, size := 172 }

theorem complete_iff_truncated :
    CompleteOrRefused truncatedMessage (.ret 0) (feed {} [truncatedMessage.segment]).2 ↔
      truncatedMessage.ending ≠ .undetermined ∧
        (truncatedMessage.ending = .truncated → truncatedMessage.size ≤ MAX_REQ_SIZE ∧
          truncatedMessage.header (bytes "Content-Length") ≠ [] ∧
          Refused truncatedMessage.multipartLog) :=
  complete_iff truncatedMessage _ (trace_segment truncatedMessage (by decide)) rfl
    (by decide +kernel) (by decide) (.ret 0) (by decide +kernel)

/-- Both are accepted: one has an item and no params, the other neither. -/
theorem incomplete_accepted :
    (Trace truncatedMessage [truncatedMessage.segment] ∧
      (feed {} [truncatedMessage.segment]).1 = [.ret 0] ∧
      ¬ CompleteOrRefused truncatedMessage (.ret 0) (feed {} [truncatedMessage.segment]).2) ∧
    Trace undeterminedMessage [undeterminedMessage.segment] ∧
      (feed {} [undeterminedMessage.segment]).1 = [.ret 0] ∧
      ¬ CompleteOrRefused undeterminedMessage (.ret 0) (feed {} [undeterminedMessage.segment]).2 := by
  refine ⟨⟨trace_segment _ (by decide), by decide +kernel, ?_⟩, trace_segment _ (by decide),
    by decide +kernel, ?_⟩
  · intro h
    exact absurd (h.complete rfl) (by decide +kernel)
  · intro h
    exact absurd (h.complete rfl) (by decide +kernel)

end Ehttp
