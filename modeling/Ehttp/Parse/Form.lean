import Ehttp.Parse.Query
import Ehttp.Parse.RoundTrip
import Ehttp.Parse.Url
import Ehttp.Unescape

/-!
# Form parameters

A `FormPair` is a key with a value and one of its encodings, `formText` joins
such pairs with `=` and `&`.

* `parseQueryUrl_form`: `parse_query_url` takes the text apart again;
* `form_roundtrip`: the params of a GET with that query, or of a POST with that
  body, in any segmentation, and what `unescape` does to any string.
-/

namespace Ehttp

open Lib

/-! ## Form texts -/

/-- A pair of a form: the key is written as it is, the value encoded. -/
structure FormPair where
  key : Bytes
  value : Bytes
  encoded : Bytes
  unreserved : ∀ c ∈ key, isUnreserved c = true
  encodes : Encodes value encoded

namespace FormPair

def text (p : FormPair) : Bytes := p.key ++ 61 :: p.encoded

theorem notMem_key (p : FormPair) (d : UInt8) (hd : isUnreserved d = false) : d ∉ p.key :=
  fun hmem => ne_of_unreserved (p.unreserved d hmem) hd rfl

/-- No delimiter but the `=` in the middle. -/
theorem notMem_text (p : FormPair) (d : UInt8) (hd : isUnreserved d = false) (heq : d ≠ 61)
    (hplus : d ≠ 43) (hpercent : d ≠ 37) : d ∉ p.text := by
  have hencoded := p.encodes.safe d hd hplus hpercent
  simp [text, p.notMem_key d hd, heq, hencoded]

end FormPair

def formText : List FormPair → Bytes
  | [] => []
  | [p] => p.text
  | p :: q :: ps => p.text ++ 38 :: formText (q :: ps)

theorem notMem_formText (ps : List FormPair) (d : UInt8) (hd : isUnreserved d = false)
    (hamp : d ≠ 38) (heq : d ≠ 61) (hplus : d ≠ 43) (hpercent : d ≠ 37) : d ∉ formText ps := by
  induction ps with
  | nil => exact List.not_mem_nil
  | cons p ps ih =>
    have hp := p.notMem_text d hd heq hplus hpercent
    cases ps with
    | nil => exact hp
    | cons q ps => simp [formText, hp, hamp, ih]

theorem length_formText (ps : List FormPair) : ps.length ≤ (formText ps).length := by
  induction ps with
  | nil => exact Nat.le_refl _
  | cons p ps ih =>
    cases ps with
    | nil => simp [formText, FormPair.text]; omega
    | cons q ps =>
      simp only [formText, List.length_append, List.length_cons] at ih ⊢
      omega

theorem formText_ne_nil (ps : List FormPair) (hne : ps ≠ []) : formText ps ≠ [] := by
  intro hnil
  have hlen := length_formText ps
  rw [hnil] at hlen
  exact hne (List.eq_nil_of_length_eq_zero (Nat.le_zero.mp hlen))

/-! ## `parse_query_url` -/

theorem splitOn_formText (ps : List FormPair) (hne : ps ≠ []) :
    (formText ps).splitOn 38 = ps.map FormPair.text := by
  have hamp : ∀ q : FormPair, (38 : UInt8) ∉ q.text := fun q =>
    q.notMem_text 38 (by decide) (by decide) (by decide) (by decide)
  induction ps with
  | nil => exact absurd rfl hne
  | cons q ps ih =>
    cases ps with
    | nil => exact List.splitOn_eq_singleton (hamp q)
    | cons q' ps =>
      rw [formText, List.splitOn_append_cons_self_of_not_mem (hamp q), ih (List.cons_ne_nil _ _)]
      rfl

theorem segmentPairs_text (q : FormPair) : segmentPairs q.text = [(q.key, q.encoded)] := by
  have hkey : 61 ∉ q.key := q.notMem_key 61 (by decide)
  have hvalue : 61 ∉ q.encoded := q.encodes.safe 61 (by decide) (by decide) (by decide)
  rw [segmentPairs, FormPair.text, List.splitOn_append_cons_self_of_not_mem hkey,
    List.splitOn_eq_singleton hvalue]
  rfl

theorem parseQueryUrl_form (p : RequestParam) (ps : List FormPair) (hne : ps ≠ []) :
    p.parseQueryUrl (formText ps) =
      (0, { params := p.params ++ ps.map fun q => (q.key, q.encoded) }) := by
  rw [RequestParam.parseQueryUrl_eq, queryPairs, splitOn_formText ps hne, List.flatMap_map,
    List.map_eq_flatMap]
  simp only [segmentPairs_text]

/-- The params of a URL with a query. -/
theorem queryParams_form (path : Bytes) (hpath : 63 ∉ path) (ps : List FormPair) (hne : ps ≠ []) :
    queryParams (path ++ 63 :: formText ps) =
      { params := ps.map fun q => (q.key, q.encoded) } := by
  have hmark : 63 ∉ formText ps :=
    notMem_formText ps 63 (by decide) (by decide) (by decide) (by decide) (by decide)
  have hall : (formText ps).takeWhile (· ≠ 63) = formText ps := by
    rw [List.takeWhile_eq_self_iff]
    intro b hb
    simpa using fun heq : b = 63 => hmark (heq ▸ hb)
  have hquery := queryUrl_some { requestUrl := path ++ 63 :: formText ps } path
    (formText ps) rfl hpath
  rw [queryParams, parseRequestUrlParams_eq_query, hquery, hall]
  simp only
  rw [parseQueryUrl_form _ ps hne]
  rfl

/-! ## The parsed request -/

/-- The values of a key, as they were written. -/
def encodedOf (ps : List FormPair) (key : Bytes) : List Bytes :=
  (ps.filter (·.key = key)).map FormPair.encoded

/-- What the handler reads of a form. -/
structure FormParams (ps : List FormPair) (r : Request) : Prop where
  getParams : ∀ key, r.getParams key = encodedOf ps key
  getParam : ∀ key, r.getParam key = (encodedOf ps key).headD []
  getUnescapeParam : ∀ key p, (ps.filter (·.key = key)).head? = some p →
    r.getUnescapeParam key = .returned p.value

theorem equalRange_form (ps : List FormPair) (key : Bytes) :
    StdMultimap.equalRange (ps.map fun q => (q.key, q.encoded)) key = encodedOf ps key := by
  simp only [StdMultimap.equalRange, encodedOf, List.filter_map, List.map_map]
  rfl

theorem find_form (ps : List FormPair) (key : Bytes) :
    (StdMultimap.find (ps.map fun q => (q.key, q.encoded)) key).getD [] =
      (encodedOf ps key).headD [] := by
  rw [StdMultimap.find_eq_head, equalRange_form, List.headD_eq_head?_getD]

theorem length_encoded_le (ps : List FormPair) (p : FormPair) (hp : p ∈ ps) :
    p.encoded.length ≤ (formText ps).length := by
  induction ps with
  | nil => exact absurd hp List.not_mem_nil
  | cons q ps ih =>
    have hq : q.encoded.length ≤ q.text.length := by
      rw [FormPair.text, List.length_append, List.length_cons]
      omega
    cases ps with
    | nil =>
      obtain rfl := List.mem_singleton.mp hp
      exact hq
    | cons q' ps =>
      rw [formText, List.length_append, List.length_cons]
      rcases List.mem_cons.mp hp with rfl | hp
      · omega
      · have := ih hp
        omega

/-- An encoded value is decoded to its bytes. -/
theorem unescape_encoded (p : FormPair) (hshort : p.encoded.length < 2 ^ 32) :
    unescape (p.encoded.length + 1) p.encoded [] = .returned p.value := by
  obtain ⟨v, hv, hret⟩ := unescape_returns p.encoded hshort
  rw [hret, hv.unique p.encodes.decodes]

theorem formParams_of_getParams (ps : List FormPair) (r : Request)
    (hshort : (formText ps).length < 2 ^ 32)
    (hparams : ∀ key, r.getParams key = encodedOf ps key)
    (hparam : ∀ key, r.getParam key = (encodedOf ps key).headD []) : FormParams ps r := by
  refine ⟨hparams, hparam, ?_⟩
  intro key p hp
  have hmem : p ∈ ps := (List.mem_filter.mp (List.mem_of_mem_head? hp)).1
  have hfirst : r.getParam key = p.encoded := by
    rw [hparam, encodedOf, List.headD_eq_head?_getD, List.head?_map, hp]
    rfl
  rw [Request.getUnescapeParam, hfirst]
  cases hnil : p.encoded with
  | nil =>
    have hdecodes := p.encodes.decodes
    rw [hnil] at hdecodes
    rw [hdecodes.unique .nil]
    rfl
  | cons c e =>
    rw [← hnil]
    have hlen := length_encoded_le ps p hmem
    simp only [hnil, List.isEmpty_cons, Bool.false_eq_true, if_false]
    rw [← hnil]
    exact unescape_encoded p (by omega)

/-- A form sent as the query of a GET with a header line. -/
structure SentAsQuery (ps : List FormPair) (m : Message) : Prop where
  method : m.method = .get
  headers : m.headers ≠ []
  url : ∃ path, 63 ∉ path ∧ m.url = path ++ 63 :: formText ps
  inside : m.url.length ≤ m.size

/-- A form sent as the body of a POST. -/
structure SentAsBody (ps : List FormPair) (m : Message) : Prop where
  method : m.method = .post
  contentType : m.header (bytes "Content-Type") = bytes "application/x-www-form-urlencoded"
  contentLength : m.header (bytes "Content-Length") = decimal m.body.length
  body : m.body = formText ps
  inside : m.body.length ≤ m.size

theorem SentAsQuery.params {ps : List FormPair} {m : Message} (h : SentAsQuery ps m)
    (hne : ps ≠ []) (hmax : m.size ≤ MAX_REQ_SIZE) {r : Request} (hr : r.Same m.request) :
    FormParams ps r := by
  obtain ⟨path, hpath, hurl⟩ := h.url
  have hline : r.line = RequestLine.recorded m.parser { requestUrl := m.url } := by
    rw [hr.line, m.line_request, m.line_headState, if_neg h.headers]
  have hmethod : r.getMethod = bytes "GET" := by
    rw [Request.getMethod, hline, recorded_eq]
    show httpMethodStr m.method = _
    rw [h.method]
    rfl
  have hparams : r.line.param = { params := ps.map fun q => (q.key, q.encoded) } := by
    rw [hline, recorded_eq]
    show queryParams m.url = _
    rw [hurl, queryParams_form path hpath ps hne]
  have hget : bytes "GET" ≠ bytes "POST" := by decide
  apply formParams_of_getParams
  · have hinside := h.inside
    rw [hurl, List.length_append, List.length_cons] at hinside
    simp only [MAX_REQ_SIZE] at hmax
    omega
  · intro key
    simp only [Request.getParams, hmethod, hget, if_true, if_false, List.append_nil, hparams,
      RequestParam.getParams]
    exact equalRange_form ps key
  · intro key
    simp only [Request.getParam, hmethod, if_true, hparams, RequestParam.getParam]
    exact find_form ps key

theorem SentAsBody.messageBody {ps : List FormPair} {m : Message} (h : SentAsBody ps m)
    (hne : ps ≠ []) :
    messageBody (m.header (bytes "Content-Type")) { rawString := m.body } =
      (.ret 0, { rawString := m.body
                 reqParams := { params := ps.map fun q => (q.key, q.encoded) } }) := by
  have hform : contains (bytes "multipart/form-data")
      (bytes "application/x-www-form-urlencoded") = false := by decide +kernel
  have hlen : (formText ps).length ≠ 0 := by
    rw [ne_eq, List.length_eq_zero_iff]
    exact formText_ne_nil ps hne
  rw [h.contentType, h.body, Ehttp.messageBody]
  simp only [parseFormBody, if_true, hform, Bool.false_eq_true, false_and, if_false, hlen, ne_eq,
    not_false_eq_true]
  rw [parseQueryUrl_form _ ps hne]
  rfl

theorem SentAsBody.params {ps : List FormPair} {m : Message} (h : SentAsBody ps m)
    (hne : ps ≠ []) (hmax : m.size ≤ MAX_REQ_SIZE) {r : Request} (hr : r.Same m.request) :
    FormParams ps r := by
  have hcl : m.header (bytes "Content-Length") ≠ [] := by
    rw [h.contentLength]
    exact decimal_ne_nil _
  have hmethod := m.getMethod_post (Message.headers_ne_nil hcl) h.method r hr
  have hbody : r.body.reqParams = { params := ps.map fun q => (q.key, q.encoded) } := by
    rw [hr.body, m.request_body (m.headOut_post hcl), h.messageBody hne]
  have hget : bytes "POST" ≠ bytes "GET" := by decide
  apply formParams_of_getParams
  · have hinside := h.inside
    rw [h.body] at hinside
    simp only [MAX_REQ_SIZE] at hmax
    omega
  · intro key
    simp only [Request.getParams, hmethod, hget, if_true, if_false, List.nil_append,
      RequestBody.getParams, hbody, RequestParam.getParams]
    exact equalRange_form ps key
  · intro key
    simp only [Request.getParam, hmethod, hget, if_true, if_false, RequestBody.getParam, hbody,
      RequestParam.getParam]
    exact find_form ps key

theorem SentAsQuery.verdict {ps : List FormPair} {m : Message} (h : SentAsQuery ps m)
    (hmax : m.size ≤ MAX_REQ_SIZE) (hbody : m.body = []) : m.verdict = .ret 0 := by
  have hok : m.headOut.1 = .ret 0 := by
    rw [m.headOut_ok_iff]
    rintro ⟨-, hpost, -⟩
    rw [h.method] at hpost
    cases hpost
  rw [m.verdict_body hok hmax, hbody, messageBody_empty]
  rfl

theorem SentAsBody.verdict {ps : List FormPair} {m : Message} (h : SentAsBody ps m)
    (hne : ps ≠ []) (hmax : m.size ≤ MAX_REQ_SIZE) : m.verdict = .ret 0 := by
  have hcl : m.header (bytes "Content-Length") ≠ [] := by
    rw [h.contentLength]
    exact decimal_ne_nil _
  rw [m.verdict_body (m.headOut_post hcl) hmax, h.messageBody hne]
  rfl

/-- **Round trip of a form.**  In any segmentation the params of the request are
those of the form, and the request is accepted (a GET if it has no body).  On
any string `unescape` stays within the NUL, and decodes it if it is shorter than
`2^32`, each `%` without two hex digits as itself. -/
theorem form_roundtrip :
    (∀ (ps : List FormPair) (m : Message) (segs : List Segment), ps ≠ [] →
      SentAsQuery ps m ∨ SentAsBody ps m → m.size ≤ MAX_REQ_SIZE → Trace m segs →
      FormParams ps (feed {} segs).2 ∧
        (m.method = .post ∨ m.body = [] → (feed {} segs).1.getLast? = some (.ret 0))) ∧
    ∀ param : Bytes,
      (∀ fuel unescapeParam, unescape fuel param unescapeParam ≠ .overRead) ∧
      (param.length < 2 ^ 32 →
        ∃ v, Decodes param v ∧ unescape (param.length + 1) param [] = .returned v) := by
  refine ⟨?_, fun param => ⟨fun fuel v => unescapeLoop_not_overRead param fuel _,
    unescape_returns param⟩⟩
  intro ps m segs hne hsent hmax h
  obtain ⟨k, r, hfeed, hsame, -⟩ := feed_trace m segs h
  rw [hfeed, List.getLast?_append]
  rcases hsent with hquery | hbody
  · refine ⟨hquery.params hne hmax (hsame hmax), ?_⟩
    rintro (hpost | hempty)
    · rw [hquery.method] at hpost
      cases hpost
    · rw [hquery.verdict hmax hempty]
      rfl
  · refine ⟨hbody.params hne hmax (hsame hmax), fun _ => ?_⟩
    rw [hbody.verdict hne hmax]
    rfl

/-- `k=a+%25&k=%00`. -/
def twoPairs : List FormPair :=
  [⟨bytes "k", bytes "a %", bytes "a+%25", by decide +kernel,
      .literal 97 (by decide) (.plus (.percent 37 50 53 (by decide) (by decide) (by decide)
        (by decide) .nil))⟩,
    ⟨bytes "k", [0], bytes "%00", by decide +kernel,
      .percent 0 48 48 (by decide) (by decide) (by decide) (by decide) .nil⟩]

def twoPairsMessage : Message :=
  { method := .get, url := bytes "/p?k=a+%25&k=%00", httpMajor := 1, httpMinor := 1
    headers := [(bytes "Host", bytes "x")], body := [], trailers := [], headLf := 41, size := 42 }

theorem form_roundtrip_two :
    (feed {} [twoPairsMessage.segment]).2.getParams (bytes "k") = [bytes "a+%25", bytes "%00"] ∧
      (feed {} [twoPairsMessage.segment]).2.getUnescapeParam (bytes "k") =
        .returned (bytes "a %") := by
  have hsent : SentAsQuery twoPairs twoPairsMessage :=
    ⟨rfl, by decide, ⟨bytes "/p", by decide +kernel, by decide +kernel⟩, by decide +kernel⟩
  obtain ⟨hparams, -⟩ := form_roundtrip.1 twoPairs twoPairsMessage [twoPairsMessage.segment]
    (by simp [twoPairs]) (Or.inl hsent) (by decide) (trace_segment _ (by decide))
  refine ⟨?_, ?_⟩
  · rw [hparams.getParams]
    decide +kernel
  · exact hparams.getUnescapeParam _ ⟨bytes "k", bytes "a %", bytes "a+%25", _, _⟩ rfl

/-- `2^32` times `%`: `unescape` does not return. -/
theorem unescape_endless :
    ¬ ∃ fuel v, unescape fuel (List.replicate (2 ^ 32) 37) [] = .returned v := by
  rintro ⟨fuel, v, hret⟩
  refine unescapeLoop_endless _ ?_ fuel _ ?_ v hret
  · rw [List.length_replicate]
  · exact Nat.two_pow_pos 32

end Ehttp
