import Ehttp.Http.Serve
import Ehttp.Http.Wire
import Ehttp.Parse.Form
import Ehttp.WriteRun

/-!
# Requests from the wire to the handler

* `wire_accepted`: which requests are accepted, and what is found in them;
* `form_arrives`: forms, as a query or as a body;
* `chunked_post_refused`: no POST in chunks;
* `connection_recv`: what any client can make of a connection;
* `connection_serves`: a kept connection serves its requests one by one, from the
  bytes that are read to the bytes that are sent.
-/

namespace Ehttp.Http

open Lib

/-! ## One request -/

namespace Wire

variable (w : Wire)

/-- The value of the last line with this name. -/
def header (name : Bytes) : Bytes := (lastHeader (w.lines.map HeaderLine.pair) name).getD []

/-- What was sent is in the request. -/
structure Arrived (r : Request) : Prop where
  method : r.line.method = httpMethodStr w.head.method
  url : r.line.requestUrl = w.head.url
  params : r.line.param = queryParams w.head.url
  version : r.line.httpVersion =
    if w.message.httpMajor = 1 ∧ w.message.httpMinor = 1 then bytes "HTTP/1.1"
    else if w.message.httpMajor = 1 ∧ w.message.httpMinor = 0 then bytes "HTTP/1.0" else []
  header : ∀ name, r.header name = w.header name
  body : r.body.rawString = w.body.data

/-- There are header lines, and no form in parts is to be read. -/
structure Ordinary : Prop where
  lines : w.lines ≠ []
  noParts : w.body.data = [] ∨
    contains (bytes "multipart/form-data") (w.header (bytes "Content-Type")) = false
  small : w.text.length ≤ MAX_REQ_SIZE

/-- A POST tells its length. -/
structure Acceptable : Prop extends Ordinary w where
  length : w.head.method = .post → w.header (bytes "Content-Length") ≠ []

variable {w}

theorem Acceptable.headOut (h : w.Acceptable) : w.message.headOut.1 = .ret 0 := by
  rw [w.message.headOut_ok_iff]
  rintro ⟨-, hpost, hempty⟩
  exact h.length hpost hempty

theorem Acceptable.verdict (h : w.Acceptable) : w.message.verdict = .ret 0 := by
  rw [w.message.verdict_body h.headOut h.small, bodyVerdict_zero]
  rcases h.noParts with hempty | hplain
  · have hbody : w.message.body = [] := hempty
    rw [hbody, messageBody_empty]
  · have htype : contains (bytes "multipart/form-data") (w.message.header (bytes "Content-Type")) = false :=
      hplain
    simp [messageBody, htype]

/-- A POST without a length is refused with its head. -/
theorem verdict_refused (hlines : w.lines ≠ [])
    (hno : ¬ (w.head.method = .post → w.header (bytes "Content-Length") ≠ [])) :
    w.message.verdict = .ret (-1) := by
  have hrefused : w.message.headOut.1 ≠ .ret 0 := by
    rw [ne_eq, w.message.headOut_ok_iff, not_not]
    simp only [Classical.not_imp, ne_eq, not_not] at hno
    exact ⟨by simpa [Wire.message] using hlines, hno⟩
  rw [Message.verdict, if_pos (Or.inl hrefused)]

theorem rawString_messageBody (ct : Bytes) (b : RequestBody) :
    (messageBody ct b).2.rawString = b.rawString := by
  simp only [messageBody]
  split
  · rw [rawString_parseMultipartBody, rawString_parseFormBody]
  · exact rawString_parseFormBody ct b

theorem arrived_of_same (hlines : w.lines ≠ []) (hok : w.message.headOut.1 = .ret 0) {r : Request}
    (h : r.Same w.message.request) : w.Arrived r := by
  have hne : w.message.headers ≠ [] := by simpa [Wire.message] using hlines
  have hline : r.line = RequestLine.recorded w.message.parser { requestUrl := w.message.url } := by
    rw [h.line, Message.line_request, Message.line_headState, if_neg hne]
  rw [recorded_eq] at hline
  refine ⟨by rw [hline]; rfl, by rw [hline]; rfl, by rw [hline]; rfl, by rw [hline]; rfl,
    fun name => ?_, ?_⟩
  · rw [h.header, Message.header_request]
    rfl
  · rw [h.body, Message.request_body _ hok, rawString_messageBody]
    rfl

end Wire

theorem accepted_arrives {w : Wire} (h : w.Legal) (hacc : w.Acceptable) {pieces : List Bytes}
    (hne : ∀ p ∈ pieces, p ≠ []) (hflat : pieces.flatten = w.text) :
    ∃ k s, feed {} pieces = some (List.replicate k (.ret NEED_MORE_STATUS) ++ [.ret 0], s) ∧
      pieces.length = k + 1 ∧ w.Arrived s.request := by
  obtain ⟨k, s, hfeed, hsame, hlength⟩ := feed_message (oneMessage_wire w h) pieces hne hflat
  rw [hacc.verdict] at hfeed hlength
  exact ⟨k, s, hfeed, hlength rfl, Wire.arrived_of_same hacc.lines hacc.headOut (hsame hacc.small)⟩

/-- **Requests arrive.**  However the bytes of a legal request are cut, all pieces
but the last ask for more; it is accepted exactly if a POST tells its length, with the
last piece, and is then what was sent. -/
theorem wire_accepted (w : Wire) (h : w.Legal) (hordinary : w.Ordinary) (pieces : List Bytes)
    (hne : ∀ p ∈ pieces, p ≠ []) (hflat : pieces.flatten = w.text) :
    ∃ k x s, feed {} pieces = some (List.replicate k (.ret NEED_MORE_STATUS) ++ [x], s) ∧
      (x = .ret 0 ∨ x = .ret (-1)) ∧
      (x = .ret 0 ↔ (w.head.method = .post → w.header (bytes "Content-Length") ≠ [])) ∧
      (x = .ret 0 → pieces.length = k + 1 ∧ w.Arrived s.request) := by
  by_cases hlength : w.head.method = .post → w.header (bytes "Content-Length") ≠ []
  · obtain ⟨k, s, hfeed, hlast, harrived⟩ := accepted_arrives h ⟨hordinary, hlength⟩ hne hflat
    exact ⟨k, _, s, hfeed, Or.inl rfl, iff_of_true rfl hlength, fun _ => ⟨hlast, harrived⟩⟩
  · obtain ⟨k, s, hfeed, -, -⟩ := feed_message (oneMessage_wire w h) pieces hne hflat
    rw [Wire.verdict_refused hordinary.lines hlength] at hfeed
    exact ⟨k, _, s, hfeed, Or.inr rfl, iff_of_false (by simp) hlength, fun hx => absurd hx (by simp)⟩

/-- `GET / HTTP/1.1` with a `Host` line. -/
def getWire : Wire where
  head := ⟨.get, bytes "/", 1, 1⟩
  lines := [⟨bytes "Host", [32], bytes "x"⟩]
  body := .none

theorem setsAll_host (f : Framing) : SetsAll getWire.lines f f := by
  have hlegal : HeaderLine.Legal ⟨bytes "Host", [32], bytes "x"⟩ :=
    ⟨by decide +kernel, by decide +kernel, by decide +kernel, by decide +kernel,
      by simp only [ValueByte]; decide +kernel, by decide +kernel⟩
  have hnone : ∀ x ∈ framingNames, ¬ x <+: (bytes "Host").map token := by decide
  exact .cons hlegal (.plain fun x hx ⟨k, hk⟩ => hnone x hx ⟨_, hk.symm⟩) (.nil f)

theorem getWire_legal : getWire.Legal where
  head := ⟨by decide, by decide⟩
  framed := ⟨_, setsAll_host _, .none rfl (Or.inr rfl)⟩
  fits := by decide +kernel

theorem wire_accepted_get :
    ∃ k s, feed {} [bytes "GET / HT", bytes "TP/1.1\x0d\x0aHost: x\x0d\x0a\x0d\x0a"] =
        some (List.replicate k (.ret NEED_MORE_STATUS) ++ [.ret 0], s) ∧
      2 = k + 1 ∧ getWire.Arrived s.request := by
  have hordinary : getWire.Ordinary := ⟨by decide, Or.inl rfl, by decide +kernel⟩
  obtain ⟨k, x, s, hfeed, -, haccepted, harrived⟩ := wire_accepted getWire getWire_legal hordinary
    [bytes "GET / HT", bytes "TP/1.1\x0d\x0aHost: x\x0d\x0a\x0d\x0a"] (by decide) (by decide +kernel)
  have hx : x = .ret 0 := haccepted.mpr fun hpost => absurd hpost (by decide)
  rw [hx] at hfeed
  exact ⟨k, s, hfeed, harrived hx⟩

/-! ## Forms -/

/-- A form as the query of a GET, or as the body of a POST with its length and type. -/
inductive Wire.SendsForm (ps : List FormPair) (w : Wire) : Prop
  | query (path : Bytes) : w.head.method = .get → w.lines ≠ [] → 63 ∉ path →
    w.head.url = path ++ 63 :: formText ps → w.body = .none → SendsForm ps w
  | body : w.head.method = .post →
    w.header (bytes "Content-Type") = bytes "application/x-www-form-urlencoded" →
    w.header (bytes "Content-Length") = decimal (formText ps).length →
    w.body = .identity (formText ps) → SendsForm ps w

/-- The URL and the body are in the text. -/
theorem Wire.inside (w : Wire) :
    w.head.url.length ≤ w.text.length ∧
      (w.body = .identity w.body.data → w.body.data.length ≤ w.text.length) := by
  have htext : w.text.length = w.head.text.length + (linesText w.lines).length + 2 + w.body.text.length := by
    simp [Wire.text, Wire.headText, crlf]
    omega
  have hhead : w.head.url.length ≤ w.head.text.length := by
    simp only [RequestHead.text, List.length_append]
    omega
  refine ⟨by omega, fun hbody => ?_⟩
  have hlength : w.body.text.length = w.body.data.length := by
    rw [hbody]
    rfl
  omega

/-- **Forms arrive.**  However the bytes of a request with a form are cut, it is
accepted; its params are those of the form, and the first of a key is decoded. -/
theorem form_arrives (w : Wire) (h : w.Legal) (ps : List FormPair) (hne : ps ≠ [])
    (hform : w.SendsForm ps) (hsmall : w.text.length ≤ MAX_REQ_SIZE) (pieces : List Bytes)
    (hpieces : ∀ p ∈ pieces, p ≠ []) (hflat : pieces.flatten = w.text) :
    ∃ k s, feed {} pieces = some (List.replicate k (.ret NEED_MORE_STATUS) ++ [.ret 0], s) ∧
      pieces.length = k + 1 ∧ FormParams ps s.request := by
  obtain ⟨k, s, hfeed, hsame, hlength⟩ := feed_message (oneMessage_wire w h) pieces hpieces hflat
  obtain ⟨hurl, hbody⟩ := w.inside
  have hsame := hsame hsmall
  have hall : w.message.verdict = .ret 0 ∧ FormParams ps s.request := by
    cases hform with
    | query path hmethod hlines hpath htarget hnone =>
      have hsent : SentAsQuery ps w.message :=
        ⟨hmethod, by simpa [Wire.message] using hlines, ⟨path, hpath, htarget⟩, hurl⟩
      have hempty : w.message.body = [] := congrArg Body.data hnone
      exact ⟨hsent.verdict hsmall hempty, hsent.params hne hsmall hsame⟩
    | body hmethod htype hcontent hdata =>
      have hdata' : w.body.data = formText ps := congrArg Body.data hdata
      have hsent : SentAsBody ps w.message := by
        refine ⟨hmethod, htype, hcontent.trans ?_, hdata', hbody ?_⟩
        · exact congrArg (fun d : Bytes => decimal d.length) hdata'.symm
        · rw [hdata', hdata]
      exact ⟨hsent.verdict hne hsmall, hsent.params hne hsmall hsame⟩
  rw [hall.1] at hfeed hlength
  exact ⟨k, s, hfeed, hlength rfl, hall.2⟩

/-- `GET /p?k=a+%25&k=%00 HTTP/1.1` with a `Host` line. -/
def formWire : Wire := { getWire with head := ⟨.get, bytes "/p?k=a+%25&k=%00", 1, 1⟩ }

theorem form_arrives_query :
    ∃ k s, feed {} [formWire.text] = some (List.replicate k (.ret NEED_MORE_STATUS) ++ [.ret 0], s) ∧
      1 = k + 1 ∧ FormParams twoPairs s.request := by
  have hlegal : formWire.Legal :=
    ⟨⟨by decide, by decide +kernel⟩, ⟨_, setsAll_host _, .none rfl (Or.inr rfl)⟩, by decide +kernel⟩
  exact form_arrives formWire hlegal twoPairs (by simp [twoPairs])
    (.query (bytes "/p") rfl (by decide) (by decide) (by decide +kernel) rfl) (by decide +kernel) _
    (by decide +kernel) (by decide +kernel)

/-! ## A POST in chunks -/

theorem token_tolower {b : UInt8} (h : token b ≠ 0) : token b = tolower b := by
  have hall : ∀ n : Fin 256, token (UInt8.ofNat n) ≠ 0 →
      token (UInt8.ofNat n) = tolower (UInt8.ofNat n) := by decide +kernel
  have hb := hall ⟨b.toNat, b.toNat_lt⟩
  simp only [UInt8.ofNat_toNat] at hb
  exact hb h

theorem tokens_tolower {name : Bytes} (h : ∀ b ∈ name, token b ≠ 0) :
    name.map token = ssStrTolower name :=
  List.map_congr_left fun b hb => token_tolower (h b hb)

theorem SetsAll.legal {ls : List HeaderLine} {f f' : Framing} (h : SetsAll ls f f') :
    ∀ l ∈ ls, l.Legal := by
  induction h with
  | nil f => exact fun l hl => absurd hl List.not_mem_nil
  | cons hlegal _ _ ih => exact List.forall_mem_cons.mpr ⟨hlegal, ih⟩

/-- A length that was told stays. -/
theorem SetsAll.contentlength {ls : List HeaderLine} {f f' : Framing} (h : SetsAll ls f f')
    (hset : f.contentlength = true) : f'.contentlength = true := by
  induction h with
  | nil f => exact hset
  | cons _ hone _ ih =>
    cases hone with
    | plain => exact ih hset
    | length => exact ih rfl
    | chunked => exact ih hset

theorem not_length_of_encoding {t : Bytes} (h : Is (bytes "transfer-encoding") t) :
    ¬ Is (bytes "content-length") t := by
  rintro ⟨k, hk⟩
  obtain ⟨j, rfl⟩ := h
  have hencoding : bytes "transfer-encoding" = 116 :: bytes "ransfer-encoding" := by decide
  have hlength : bytes "content-length" = 99 :: bytes "ontent-length" := by decide
  rw [hencoding, hlength] at hk
  simp at hk

/-- No length told, no line that tells one. -/
theorem SetsAll.no_length {ls : List HeaderLine} {f f' : Framing} (h : SetsAll ls f f')
    (hno : f'.contentlength = false) : ∀ l ∈ ls, ¬ Is (bytes "content-length") (l.name.map token) := by
  induction h with
  | nil f => exact fun l hl => absurd hl List.not_mem_nil
  | @cons l ls f f₁ f₂ _ hone hrest ih =>
    refine List.forall_mem_cons.mpr ⟨?_, ih hno⟩
    cases hone with
    | plain hplain => exact hplain _ (by decide)
    | length =>
      have hset := hrest.contentlength rfl
      rw [hno] at hset
      cases hset
    | chunked hencoding => exact not_length_of_encoding hencoding

theorem Wire.header_length {w : Wire} {f f' : Framing} (h : SetsAll w.lines f f')
    (hno : f'.contentlength = false) : w.header (bytes "Content-Length") = [] := by
  have hlower : ssStrTolower (bytes "Content-Length") = bytes "content-length" := by decide
  have hnone : (w.lines.map HeaderLine.pair).reverse.find?
      (fun x => ssStrTolower x.1 = ssStrTolower (bytes "Content-Length")) = none := by
    rw [List.find?_eq_none]
    intro x hx heq
    obtain ⟨l, hl, rfl⟩ := List.mem_map.mp (List.mem_reverse.mp hx)
    have hname : ssStrTolower l.name = bytes "content-length" := (of_decide_eq_true heq).trans hlower
    refine h.no_length hno l hl ⟨0, ?_⟩
    rw [tokens_tolower (h.legal l hl).tokens, hname, spaces, List.replicate_zero, List.append_nil]
  rw [Wire.header, lastHeader, hnone]
  rfl

/-- **No POST in chunks** is accepted, however it is cut: it has no Content-Length. -/
theorem chunked_post_refused (w : Wire) (h : w.Legal) (hpost : w.head.method = .post)
    (ks : List Chunk) (size extension : Bytes) (trailers : List HeaderLine)
    (hbody : w.body = .chunked ks size extension trailers) (pieces : List Bytes)
    (hne : ∀ p ∈ pieces, p ≠ []) (hflat : pieces.flatten = w.text) :
    ∃ k s, feed {} pieces = some (List.replicate k (.ret NEED_MORE_STATUS) ++ [.ret (-1)], s) := by
  obtain ⟨k, s, hfeed, -, -⟩ := feed_message (oneMessage_wire w h) pieces hne hflat
  obtain ⟨f, hsets, hframed⟩ := h.framed
  rw [hbody] at hframed
  cases hframed with
  | chunked hchunked hno =>
    have hlines : w.lines ≠ [] := by
      intro hnil
      rw [hnil] at hsets
      cases hsets
      cases hchunked
    refine ⟨k, s, ?_⟩
    rw [hfeed, Wire.verdict_refused hlines fun hlength => hlength hpost (Wire.header_length hsets hno)]

/-- `POST / HTTP/1.1` with one chunk. -/
def chunkedPost : Wire where
  head := ⟨.post, bytes "/", 1, 1⟩
  lines := [⟨bytes "Transfer-Encoding", [], bytes "chunked"⟩]
  body := .chunked [⟨bytes "1", [], bytes "x"⟩] (bytes "0") [] []

theorem chunkedPost_legal : chunkedPost.Legal where
  head := ⟨by decide, by decide⟩
  framed := by
    have hlegal : HeaderLine.Legal ⟨bytes "Transfer-Encoding", [], bytes "chunked"⟩ :=
      ⟨by decide +kernel, by decide +kernel, by decide +kernel, by decide +kernel,
        by simp only [ValueByte]; decide +kernel, by decide +kernel⟩
    have hsets : SetsAll chunkedPost.lines chunkedPost.head.behind.framing
        { chunkedPost.head.behind.framing with chunked := true } :=
      .cons hlegal (.chunked ⟨0, by decide⟩ (by decide)) (.nil _)
    have hsize : ∀ d : Bytes, d = bytes "1" ∨ d = bytes "0" → SizeLine d [] (hexValue d) := by
      intro d hd
      rcases hd with rfl | rfl
      · exact ⟨by decide +kernel, by simp only [isHex]; decide +kernel, rfl, by decide +kernel,
          by decide +kernel, by decide +kernel, by decide +kernel⟩
      · exact ⟨by decide +kernel, by simp only [isHex]; decide +kernel, rfl, by decide +kernel,
          by decide +kernel, by decide +kernel, by decide +kernel⟩
    have hone : hexValue (bytes "1") = (bytes "x").length := by decide
    have hzero : hexValue (bytes "0") = 0 := by decide
    have hchunk : Chunk.Legal ⟨bytes "1", [], bytes "x"⟩ :=
      ⟨hone ▸ hsize _ (Or.inl rfl), by decide⟩
    refine ⟨_, hsets, .chunked rfl rfl ?_ (hzero ▸ hsize _ (Or.inr rfl)) (by simp) (by decide)⟩
    simpa using hchunk
  fits := by decide

theorem chunked_post_refused_one :
    ∃ k s, feed {} [chunkedPost.text] =
      some (List.replicate k (.ret NEED_MORE_STATUS) ++ [.ret (-1)], s) :=
  chunked_post_refused chunkedPost chunkedPost_legal rfl _ _ _ _ rfl _ (by decide)
    (by decide)

/-! ## A connection -/

/-- What a connection holds; `writing` when it waits for EPOLLOUT. -/
structure Connection where
  reader : Reader := {}
  res : Response := {}
  writing : Bool := false

/-- What an event brings: what `recv` returns, where `closed` stands for 0 and for an
error other than EINTR, or the outcome of a `send`. -/
inductive Input
  | recv (data : Bytes)
  | eintr
  | closed
  | send (o : SendOutcome)

/-- What came of some events, and the connection if it is open. -/
structure Served where
  handled : List Request
  sent : Bytes
  connection : Option Connection

def Served.andThen (s t : Served) : Served :=
  ⟨s.handled ++ t.handled, s.sent ++ t.sent, t.connection⟩

namespace Connection

variable (handleRequest : Request → Response → Request × Response)

/-- One event; `none` if it is not the one that is armed, if an assertion fails, or
if the exception leaves `parse_request`. -/
def step (c : Connection) : Input → Option Served
  | .recv data =>
    if c.writing then none
    else
      (parseRequest data c.reader).bind fun out =>
        match afterParse handleRequest out.1 ⟨out.2.request, c.res⟩ with
        | (.readContinue, hc, req) =>
          some ⟨req.toList, [], some ⟨⟨out.2.parser, hc.req⟩, hc.res, false⟩⟩
        | (.readOver, hc, req) => some ⟨req.toList, [], some ⟨⟨out.2.parser, hc.req⟩, hc.res, true⟩⟩
        | (.readClose, _, req) => some ⟨req.toList, [], none⟩
        | (.thrown, _, _) => none
  | .eintr => if c.writing then none else some ⟨[], [], some c⟩
  | .closed => if c.writing then none else some ⟨[], [], none⟩
  | .send o =>
    if c.writing then
      let out := HttpContext.onWriteable ⟨c.reader.request, c.res⟩ o
      let connection := match out.1 with
        | .connContinue => some ⟨⟨c.reader.parser, out.2.1.req⟩, out.2.1.res, true⟩
        -- `clear` makes a new `Request`, and its constructor a new parser
        | .connAlive => some ⟨⟨some httpParserInit, out.2.1.req⟩, out.2.1.res, false⟩
        | .connClose => none
      some ⟨[], out.2.2, connection⟩
    else none

/-- Event after event; there is none for a connection that is closed. -/
def run : Option Connection → List Input → Option Served
  | c, [] => some ⟨[], [], c⟩
  | none, _ :: _ => none
  | some c, i :: is =>
    (c.step handleRequest i).bind fun s => (run s.connection is).map s.andThen

theorem run_append (is js : List Input) (c : Option Connection) :
    run handleRequest c (is ++ js) =
      (run handleRequest c is).bind fun s => (run handleRequest s.connection js).map s.andThen := by
  induction is generalizing c with
  | nil =>
    have hnil : (Served.andThen ⟨[], [], c⟩) = id := by
      funext t
      rfl
    simp [run, hnil]
  | cons i is ih =>
    cases c with
    | none => rfl
    | some c =>
      simp only [List.cons_append, run]
      cases c.step handleRequest i with
      | none => rfl
      | some s =>
        simp only [Option.bind_some, ih]
        cases run handleRequest s.connection is with
        | none => rfl
        | some t =>
          simp only [Option.bind_some, Option.map_some, Option.map_map]
          refine congrArg₂ Option.map ?_ rfl
          funext u
          simp [Served.andThen]

/-- A piece of a request, not the last. -/
theorem step_more {data : Bytes} {s t : Reader} (res : Response)
    (hparse : parseRequest data s = some (.ret NEED_MORE_STATUS, t)) :
    step handleRequest ⟨s, res, false⟩ (.recv data) = some ⟨[], [], some ⟨t, res, false⟩⟩ := by
  simp only [step, hparse]
  rfl

/-- The last piece of a request. -/
theorem step_over {data : Bytes} {s t : Reader} (res : Response)
    (hparse : parseRequest data s = some (.ret 0, t)) :
    step handleRequest ⟨s, res, false⟩ (.recv data) =
      some ⟨[t.request], [], some ⟨⟨t.parser, (handleRequest t.request res).1⟩,
        (handleRequest t.request res).2, true⟩⟩ := by
  simp only [step, hparse]
  rfl

/-- A request, piece after piece, up to its handler. -/
theorem run_read (k : Nat) {pieces : List Bytes} {s s' : Reader} (res : Response)
    (hfeed : feed s pieces = some (List.replicate k (.ret NEED_MORE_STATUS) ++ [.ret 0], s'))
    (hlength : pieces.length = k + 1) :
    run handleRequest (some ⟨s, res, false⟩) (pieces.map .recv) =
      some ⟨[s'.request], [], some ⟨⟨s'.parser, (handleRequest s'.request res).1⟩,
        (handleRequest s'.request res).2, true⟩⟩ := by
  induction k generalizing pieces s with
  | zero =>
    obtain ⟨data, rfl⟩ := List.length_eq_one_iff.mp hlength
    rcases feed_cons_accepted hfeed with ⟨t, j, hj, -⟩ | ⟨-, hparse⟩
    · cases hj
    · rw [List.map_singleton, run, step_over handleRequest res hparse]
      rfl
  | succ k ih =>
    obtain ⟨data, pieces, rfl⟩ := List.exists_cons_of_length_eq_add_one hlength
    rcases feed_cons_accepted hfeed with ⟨t, j, hj, hparse, hrest⟩ | ⟨hk, -⟩
    · cases hj
      have htail := ih hrest (by simpa using hlength)
      rw [List.map_cons, run, step_more handleRequest res hparse, Option.bind_some, htail]
      rfl
    · cases hk

/-- A response, as long as there is more of it. -/
theorem run_send (os : List SendOutcome) (hc : HttpContext) (p : Option Parser)
    (hopen : (writeRun hc os).ended = none) :
    run handleRequest (some ⟨⟨p, hc.req⟩, hc.res, true⟩) (os.map .send) =
      some ⟨[], (writeRun hc os).sent.flatten,
        some ⟨⟨p, (writeRun hc os).hc.req⟩, (writeRun hc os).hc.res, true⟩⟩ := by
  induction os generalizing hc with
  | nil => rfl
  | cons o os ih =>
    simp only [writeRun] at hopen ⊢
    split at hopen
    · rename_i hmore
      rw [if_pos hmore]
      have hstep : step handleRequest ⟨⟨p, hc.req⟩, hc.res, true⟩ (.send o) =
          some ⟨[], (hc.onWriteable o).2.2, some ⟨⟨p, (hc.onWriteable o).2.1.req⟩,
            (hc.onWriteable o).2.1.res, true⟩⟩ := by
        simp only [step, hmore]
        rfl
      rw [List.map_cons, run, hstep, Option.bind_some, ih _ hopen]
      rfl
    · cases hopen

/-! ## Any input -/

/-- While a request is read, nothing has failed. -/
def Fine (c : Connection) : Prop := c.writing = false → ∃ pieces, Sound pieces c.reader

theorem fine_start : Fine {} := fun _ =>
  ⟨[], ⟨_, rfl, behind_nil, rfl⟩, rfl, rfl, Nat.zero_le _, Nat.zero_le _⟩

variable {handleRequest}

theorem Fine.recv {c c' : Connection} {s : Served} {data : Bytes} (h : c.Fine) (hne : data ≠ [])
    (hfits : data.length ≤ SS_READ_BUFFER_SIZE) (hstep : step handleRequest c (.recv data) = some s)
    (hopen : s.connection = some c') : c'.Fine := by
  simp only [step] at hstep
  split at hstep
  · cases hstep
  · rename_i hread
    obtain ⟨pieces, hsound⟩ := h (by simpa using hread)
    obtain ⟨x, r, hparse, -, -, -, -, hmore⟩ := hsound.recv hne hfits
    simp only [hparse, Option.bind_some] at hstep
    by_cases hx : x = .ret NEED_MORE_STATUS
    · subst hx
      cases hstep
      cases hopen
      exact fun _ => ⟨_, hmore rfl⟩
    · -- the request is over, so nothing is read before the response
      have hover := afterParse_ne handleRequest x ⟨r.request, c.res⟩ hx
      split at hstep
      · rename_i heq
        rw [heq] at hover
        exact absurd rfl hover
      · cases hstep
        cases hopen
        exact fun hw => absurd hw (by simp)
      · cases hstep
        cases hopen
      · cases hstep

/-- A context that is kept is a new one. -/
theorem onWriteable_alive {hc : HttpContext} {o : SendOutcome} (h : (hc.onWriteable o).1 = .connAlive) :
    (hc.onWriteable o).2.1 = {} := by
  simp only [HttpContext.onWriteable] at h ⊢
  generalize (Response.readsome _ _) = block at h ⊢
  obtain ⟨ret, buffer, res⟩ := block
  simp only [HttpContext.sendBlock] at h ⊢
  split at h
  · cases h
  · split at h
    · cases h
    · split at h
      · cases h
      · split at h
        · rename_i hempty hfailed hlast hkeep
          rw [if_neg hempty, if_neg hfailed, if_neg hlast, if_pos hkeep]
          rfl
        · cases h

theorem Fine.send {c c' : Connection} {s : Served} {o : SendOutcome}
    (hstep : step handleRequest c (.send o) = some s) (hopen : s.connection = some c') : c'.Fine := by
  simp only [step] at hstep
  split at hstep
  · cases hstep
    simp only at hopen
    split at hopen
    · cases hopen
      exact fun hw => absurd hw (by simp)
    · rename_i halive
      cases hopen
      rw [onWriteable_alive halive]
      exact fine_start
    · cases hopen
  · cases hstep

theorem Fine.eintr {c c' : Connection} {s : Served} (h : c.Fine)
    (hstep : step handleRequest c .eintr = some s) (hopen : s.connection = some c') : c'.Fine := by
  simp only [step] at hstep
  split at hstep
  · cases hstep
  · cases hstep
    cases hopen
    exact h

theorem closed_ends {c : Connection} {s : Served} (hstep : step handleRequest c .closed = some s) :
    s.connection = none := by
  simp only [step] at hstep
  split at hstep
  · cases hstep
  · cases hstep
    rfl

/-- The bytes of one `recv`. -/
def Fits : Input → Prop
  | .recv data => data ≠ [] ∧ data.length ≤ SS_READ_BUFFER_SIZE
  | _ => True

theorem Fine.run {is : List Input} {c c' : Connection} {s : Served} (h : c.Fine)
    (hfits : ∀ i ∈ is, Fits i) (hrun : run handleRequest (some c) is = some s)
    (hopen : s.connection = some c') : c'.Fine := by
  induction is generalizing c s with
  | nil =>
    cases hrun
    cases hopen
    exact h
  | cons i is ih =>
    obtain ⟨t, hstep, hmap⟩ := Option.bind_eq_some_iff.mp hrun
    obtain ⟨u, hrest, rfl⟩ := Option.map_eq_some_iff.mp hmap
    cases hnow : t.connection with
    | none =>
      rw [hnow] at hrest
      cases is with
      | nil =>
        cases hrest
        cases hopen
      | cons j is => cases hrest
    | some c₁ =>
      rw [hnow] at hrest
      have hfine : c₁.Fine := by
        cases i with
        | recv data =>
          obtain ⟨hne, hsize⟩ := hfits _ (List.mem_cons_self ..)
          exact h.recv hne hsize hstep hnow
        | eintr => exact h.eintr hstep hnow
        | closed =>
          rw [closed_ends hstep] at hnow
          cases hnow
        | send o => exact Fine.send hstep hnow
      exact ih hfine (fun j hj => hfits j (List.mem_cons_of_mem _ hj)) hrest hopen

end Connection

/-- **Any client.**  Whatever was read and sent on a connection, requests in part, whole
or none at all: the next `recv` is parsed without a failed assertion, to one of
the returns, and what the request holds is bounded. -/
theorem connection_recv (handleRequest : Request → Response → Request × Response) (is : List Input)
    (hfits : ∀ i ∈ is, Connection.Fits i) (s : Served) (c : Connection)
    (hrun : Connection.run handleRequest (some {}) is = some s) (hopen : s.connection = some c)
    (hread : c.writing = false) (data : Bytes) (hne : data ≠ [])
    (hsize : data.length ≤ SS_READ_BUFFER_SIZE) :
    ∃ x r, parseRequest data c.reader = some (x, r) ∧ x ∈ parseReturns ∧
      r.request.totalReqSize ≤ MAX_REQ_SIZE + SS_READ_BUFFER_SIZE ∧
      (MAX_REQ_SIZE < r.request.totalReqSize → x = .ret (-1)) ∧
      r.request.stored ≤ r.request.totalReqSize := by
  obtain ⟨pieces, hsound⟩ := Connection.fine_start.run hfits hrun hopen hread
  obtain ⟨x, r, hparse, hreturns, hbig, hcounted, hstored, -⟩ := hsound.recv hne hsize
  rw [← hcounted] at hbig hstored
  refine ⟨x, r, hparse, hreturns, ?_, hbig, hstored⟩
  rw [hcounted]
  exact Nat.add_le_add hsound.small hsize

theorem connection_recv_second :
    ∃ s c, Connection.run (fun req res => (req, res)) (some {}) [.recv (bytes "GET /")] = some s ∧
      s.connection = some c ∧ ∃ x r, parseRequest (bytes " HTTP") c.reader = some (x, r) ∧
        x ∈ parseReturns ∧ r.request.stored ≤ r.request.totalReqSize := by
  have hopen : ((Connection.run (fun req res => (req, res)) (some {}) [.recv (bytes "GET /")]).bind
      Served.connection).map Connection.writing = some false := by decide +kernel
  obtain ⟨c, hc, hread⟩ := Option.map_eq_some_iff.mp hopen
  obtain ⟨s, hrun, hs⟩ := Option.bind_eq_some_iff.mp hc
  have hfits : ∀ i ∈ [Input.recv (bytes "GET /")], Connection.Fits i := by
    intro i hi
    rw [List.mem_singleton.mp hi]
    exact ⟨by decide, by decide⟩
  obtain ⟨x, r, hparse, hreturns, -, -, hstored⟩ :=
    connection_recv _ _ hfits s c hrun hs hread (bytes " HTTP") (by decide) (by decide)
  exact ⟨s, c, hrun, hs, x, r, hparse, hreturns, hstored⟩

/-! ## Request and response in turn -/

/-- One more outcome for a response that is not over. -/
theorem writeRun_snoc (os : List SendOutcome) (o : SendOutcome) (hc : HttpContext)
    (hopen : (writeRun hc os).ended = none) :
    let out := (writeRun hc os).hc.onWriteable o
    (writeRun hc (os ++ [o])).ended = (if out.1 = .connContinue then none else some out.1) ∧
      (writeRun hc (os ++ [o])).hc = out.2.1 ∧
      (writeRun hc (os ++ [o])).sent.flatten = (writeRun hc os).sent.flatten ++ out.2.2 := by
  induction os generalizing hc with
  | nil =>
    simp only [List.nil_append, writeRun]
    split
    · rename_i hmore
      simp [hmore]
    · rename_i hmore
      simp [hmore]
  | cons p os ih =>
    simp only [List.cons_append, writeRun] at hopen ⊢
    split at hopen
    · rename_i hmore
      obtain ⟨hended, hhc, hsent⟩ := ih _ hopen
      simp only [hmore, ↓reduceIte]
      exact ⟨hended, hhc, by rw [List.flatten_cons, hsent, List.flatten_cons, List.append_assoc]⟩
    · cases hopen

/-- What the sends take of a response of `n` bytes: all of it, up to a last
block `i` that is neither empty nor cut short. -/
structure Taken (n : Nat) (rooms : Nat → Nat) (i : Nat) : Prop where
  last : LastBlock n rooms i
  noOverrun : NoOverrun rooms i
  nonempty : blockStart rooms i < n
  whole : n ≤ blockStart rooms i + (rooms i + 1)

/-- A kept response ends with its last block. -/
theorem Taken.ends {req : Request} {codeMsg : CodeMsg} {body : Bytes} {headers : StdMap Bytes Bytes}
    {rooms : Nat → Nat} {i : Nat}
    (h : Taken (HttpContext.answered req codeMsg body headers).responseText.length rooms i)
    (hkeep : req.isKeepalive = true) :
    let hc := HttpContext.answered req codeMsg body headers
    (writeRun hc (outcomes rooms i)).ended = none ∧
      (writeRun hc (outcomes rooms (i + 1))).ended = some .connAlive ∧
      (writeRun hc (outcomes rooms (i + 1))).hc = {} ∧
      (writeRun hc (outcomes rooms (i + 1))).sent.flatten = hc.responseText := by
  intro hc
  have hends := HttpContext.endsAt req codeMsg body headers rooms i h.last h.noOverrun
  obtain ⟨n, hended, hhc, hsent⟩ := (hends.survives_iff h.last hkeep).mpr ⟨h.nonempty, h.whole⟩
  have hlt : i < n := by
    apply Nat.lt_of_not_le
    intro hle
    rw [(hends n).1 hle] at hended
    cases hended
  obtain ⟨hended', hhc', hsent'⟩ := (hends n).2 hlt
  obtain ⟨hlast, hlastHc, hlastSent⟩ := (hends (i + 1)).2 (Nat.lt_succ_self i)
  exact ⟨(hends i).1 (Nat.le_refl i), hlast.trans (hended'.symm.trans hended),
    hlastHc.trans (hhc'.symm.trans hhc), hlastSent.trans (hsent'.symm.trans hsent)⟩

/-- A handler sets the status, the body and headers, and no keep-alive. -/
def Answers (handleRequest : Request → Response → Request × Response) : Prop :=
  ∀ req, (handleRequest req {}).1.isKeepalive = req.isKeepalive ∧
    ∃ codeMsg body headers, (handleRequest req {}).2 = { codeMsg, body, headers }

/-- The response to a request. -/
def reply (handleRequest : Request → Response → Request × Response) (req : Request) : HttpContext :=
  ⟨(handleRequest req {}).1, (handleRequest req {}).2⟩

/-- A request in pieces, and what the sends take of the response. -/
structure Exchange where
  wire : Wire
  pieces : List Bytes
  rooms : Nat → Nat
  last : Nat

namespace Exchange

def inputs (e : Exchange) : List Input :=
  e.pieces.map .recv ++ (outcomes e.rooms (e.last + 1)).map .send

/-- An acceptable keep-alive request whose response is taken in full. -/
structure Legal (handleRequest : Request → Response → Request × Response) (e : Exchange) : Prop where
  wire : e.wire.Legal
  acceptable : e.wire.Acceptable
  keepAlive : strcaseeq (e.wire.header (bytes "Connection")) (bytes "keep-alive") = true
  nonempty : ∀ p ∈ e.pieces, p ≠ []
  whole : e.pieces.flatten = e.wire.text
  taken : ∀ r, e.wire.Arrived r →
    Taken (reply handleRequest r).responseText.length e.rooms e.last

variable {handleRequest : Request → Response → Request × Response}

/-- One exchange leaves a connection as a new one. -/
theorem Legal.run {e : Exchange} (h : e.Legal handleRequest) (hhandler : Answers handleRequest) :
    ∃ r, e.wire.Arrived r ∧ Connection.run handleRequest (some {}) e.inputs =
      some ⟨[r], (reply handleRequest r).responseText, some {}⟩ := by
  obtain ⟨k, s, hfeed, hlength, harrived⟩ := accepted_arrives h.wire h.acceptable h.nonempty h.whole
  have hread : Connection.run handleRequest (some {}) (e.pieces.map .recv) =
      some ⟨[s.request], [], some ⟨⟨s.parser, (reply handleRequest s.request).req⟩,
        (reply handleRequest s.request).res, true⟩⟩ :=
    Connection.run_read handleRequest k {} hfeed hlength
  obtain ⟨hkeepalive, codeMsg, body, headers, hres⟩ := hhandler s.request
  have hreply : reply handleRequest s.request =
      .answered (handleRequest s.request {}).1 codeMsg body headers := by
    rw [reply, hres]
    rfl
  have htaken := h.taken s.request harrived
  rw [hreply] at htaken
  have hkeep : (handleRequest s.request {}).1.isKeepalive = true := by
    rw [hkeepalive, Request.isKeepalive, harrived.header]
    exact h.keepAlive
  obtain ⟨hopen, hended, hhc, hsent⟩ := htaken.ends hkeep
  rw [← hreply] at hopen hended hhc hsent
  have hos : outcomes e.rooms (e.last + 1) = outcomes e.rooms e.last ++ [.room (e.rooms e.last)] := by
    simp [outcomes, List.range_succ]
  rw [hos] at hended hhc hsent
  obtain ⟨hended', hhc', hsent'⟩ := writeRun_snoc _ (.room (e.rooms e.last)) _ hopen
  rw [hended'] at hended
  rw [hhc'] at hhc
  rw [hsent'] at hsent
  have hsend := Connection.run_send handleRequest _ _ s.parser hopen
  generalize writeRun (reply handleRequest s.request) (outcomes e.rooms e.last) = r at *
  have hlast : Connection.step handleRequest ⟨⟨s.parser, r.hc.req⟩, r.hc.res, true⟩
      (.send (.room (e.rooms e.last))) =
      some ⟨[], (r.hc.onWriteable (.room (e.rooms e.last))).2.2, some {}⟩ := by
    split at hended
    · cases hended
    · simp only [Option.some.injEq] at hended
      simp only [Connection.step, hended, hhc]
      rfl
  have hwrite : Connection.run handleRequest (some ⟨⟨s.parser, (reply handleRequest s.request).req⟩,
      (reply handleRequest s.request).res, true⟩) ((outcomes e.rooms (e.last + 1)).map .send) =
      some ⟨[], (reply handleRequest s.request).responseText, some {}⟩ := by
    rw [hos, List.map_append, Connection.run_append, hsend, Option.bind_some, List.map_singleton,
      Connection.run, hlast, Option.bind_some, ← hsent]
    simp [Connection.run, Served.andThen]
  refine ⟨s.request, harrived, ?_⟩
  rw [inputs, Connection.run_append, hread, Option.bind_some, hwrite]
  rfl

end Exchange

/-- **A connection.**  Any number of requests is served one after the other, however
each is cut: every one is handled once with what was sent, and is answered in
full before the next. -/
theorem connection_serves (handleRequest : Request → Response → Request × Response)
    (hhandler : Answers handleRequest) (es : List Exchange) (h : ∀ e ∈ es, e.Legal handleRequest) :
    ∃ reqs : List Request, List.Forall₂ (fun e r => e.wire.Arrived r) es reqs ∧
      Connection.run handleRequest (some {}) (es.flatMap Exchange.inputs) =
        some ⟨reqs, reqs.flatMap fun r => (reply handleRequest r).responseText, some {}⟩ := by
  induction es with
  | nil => exact ⟨[], .nil, rfl⟩
  | cons e es ih =>
    obtain ⟨r, harrived, hrun⟩ := (h e (List.mem_cons_self ..)).run hhandler
    obtain ⟨reqs, hall, hrest⟩ := ih fun e he => h e (List.mem_cons_of_mem _ he)
    refine ⟨r :: reqs, .cons harrived hall, ?_⟩
    rw [List.flatMap_cons, Connection.run_append, hrun, Option.bind_some, hrest]
    rfl

/-- `GET / HTTP/1.1` on a connection that is kept. -/
def keepAliveWire : Wire where
  head := ⟨.get, bytes "/", 1, 1⟩
  lines := [⟨bytes "Connection", [32], bytes "keep-alive"⟩]
  body := .none

/-- One byte is answered. -/
def oneByte (req : Request) (res : Response) : Request × Response := (req, { res with body := bytes "x" })

theorem keepAliveWire_legal : keepAliveWire.Legal where
  head := ⟨by decide, by decide⟩
  framed := by
    have hlegal : HeaderLine.Legal ⟨bytes "Connection", [32], bytes "keep-alive"⟩ :=
      ⟨by decide +kernel, by decide +kernel, by decide +kernel, by decide +kernel,
      by simp only [ValueByte]; decide +kernel, by decide +kernel⟩
    have hnone : ∀ x ∈ framingNames, ¬ x <+: (bytes "Connection").map token := by decide
    have hsets : SetsAll keepAliveWire.lines keepAliveWire.head.behind.framing
        keepAliveWire.head.behind.framing :=
      .cons hlegal (.plain fun x hx ⟨k, hk⟩ => hnone x hx ⟨_, hk.symm⟩) (.nil _)
    exact ⟨_, hsets, .none rfl (Or.inr rfl)⟩
  fits := by decide

def keepAliveExchange : Exchange :=
  ⟨keepAliveWire, [keepAliveWire.text], fun _ => 4095, 0⟩

theorem keepAliveExchange_legal : keepAliveExchange.Legal oneByte where
  wire := keepAliveWire_legal
  acceptable := ⟨⟨by decide, Or.inl rfl, by decide +kernel⟩, by decide +kernel⟩
  keepAlive := by decide
  nonempty := by decide
  whole := by decide
  taken := by
    intro r hr
    have hkeep : r.isKeepalive = true := by
      rw [Request.isKeepalive, hr.header]
      decide
    have hversion : r.line.httpVersion = bytes "HTTP/1.1" := hr.version
    have hlength : (reply oneByte r).responseText.length =
        (Response.text { body := bytes "x" } (bytes "HTTP/1.1") true).length := by
      rw [← hkeep, ← hversion]
      rfl
    have hsmall : 0 < (Response.text { body := bytes "x" } (bytes "HTTP/1.1") true).length ∧
        (Response.text { body := bytes "x" } (bytes "HTTP/1.1") true).length < 4096 := by decide +kernel
    rw [hlength]
    exact ⟨⟨by simpa [keepAliveExchange, blockStart] using hsmall.2, by simp [keepAliveExchange]⟩,
      by simp [NoOverrun, keepAliveExchange], by simpa [keepAliveExchange, blockStart] using hsmall.1,
      by simp only [keepAliveExchange, blockStart]; omega⟩

theorem connection_serves_two :
    ∃ reqs : List Request,
      List.Forall₂ (fun e r => e.wire.Arrived r) [keepAliveExchange, keepAliveExchange] reqs ∧
      Connection.run oneByte (some {}) ([keepAliveExchange, keepAliveExchange].flatMap Exchange.inputs) =
        some ⟨reqs, reqs.flatMap fun r => (reply oneByte r).responseText, some {}⟩ := by
  have hhandler : Answers oneByte := fun req => ⟨rfl, STATUS_OK, bytes "x", [], rfl⟩
  refine connection_serves oneByte hhandler _ fun e he => ?_
  simp only [List.mem_cons, List.not_mem_nil, or_false, or_self] at he
  rw [he]
  exact keepAliveExchange_legal

end Ehttp.Http
