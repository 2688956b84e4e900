import Ehttp.Multipart.Callbacks
import Ehttp.Response

/-!
# Parsing a request: the `http_parser` callbacks and `parse_request`

`http_parser_execute` is the trace of callbacks it makes on the bytes of one
`recv`: a `Segment` lists them with the parser fields they can see and with
what the function returns if that callback does not return 0.  The callbacks
and `Request::parse_request`, `HttpEpollWatcher::on_readable` are the source's.
-/

namespace Ehttp

open Lib

/-! ## What `http_parser` shows -/

/-- `enum http_method`. -/
inductive HttpMethod
  | delete | get | head | post | put | connect | options | trace
  | copy | lock | mkcol | move | propfind | proppatch | search | unlock | bind | rebind | unbind
  | acl | report | mkactivity | checkout | merge | msearch | notify | subscribe | unsubscribe
  | patch | purge | mkcalendar | link | unlink | source
  deriving DecidableEq, Repr

def httpMethodStr : HttpMethod → Bytes
  | .delete => bytes "DELETE" | .get => bytes "GET" | .head => bytes "HEAD"
  | .post => bytes "POST" | .put => bytes "PUT" | .connect => bytes "CONNECT"
  | .options => bytes "OPTIONS" | .trace => bytes "TRACE" | .copy => bytes "COPY"
  | .lock => bytes "LOCK" | .mkcol => bytes "MKCOL" | .move => bytes "MOVE"
  | .propfind => bytes "PROPFIND" | .proppatch => bytes "PROPPATCH" | .search => bytes "SEARCH"
  | .unlock => bytes "UNLOCK" | .bind => bytes "BIND" | .rebind => bytes "REBIND"
  | .unbind => bytes "UNBIND" | .acl => bytes "ACL" | .report => bytes "REPORT"
  | .mkactivity => bytes "MKACTIVITY" | .checkout => bytes "CHECKOUT" | .merge => bytes "MERGE"
  | .msearch => bytes "M-SEARCH" | .notify => bytes "NOTIFY" | .subscribe => bytes "SUBSCRIBE"
  | .unsubscribe => bytes "UNSUBSCRIBE" | .patch => bytes "PATCH" | .purge => bytes "PURGE"
  | .mkcalendar => bytes "MKCALENDAR" | .link => bytes "LINK" | .unlink => bytes "UNLINK"
  | .source => bytes "SOURCE"

structure HttpParser where
  method : HttpMethod
  httpMajor : Nat
  httpMinor : Nat
  deriving DecidableEq, Repr

/-- The callbacks of `_settings`. -/
inductive HttpEvent
  | url (s : Bytes)
  | headerField (s : Bytes)
  | headerValue (s : Bytes)
  | headersComplete
  | body (s : Bytes)
  | messageComplete
  deriving DecidableEq, Repr

/-- `consumed` is what `http_parser_execute` returns if the callback fails. -/
structure HttpCall where
  parser : HttpParser
  event : HttpEvent
  consumed : Nat
  deriving DecidableEq, Repr

/-- The bytes of one `recv`: how many, and the callbacks made on them. -/
structure Segment where
  readSize : Nat
  calls : List HttpCall
  deriving DecidableEq, Repr

/-! ## The callbacks -/

def ssOnUrl (s : Bytes) (req : Request) : Exit × Request :=
  (.ret 0, { req with line := req.line.appendRequestUrl s })

/-- The part of `ss_on_header_field` under `PARSE_REQ_LINE`. -/
def recordRequestLine (p : HttpParser) (req : Request) : Int × Request :=
  let line := req.line.setMethod (httpMethodStr p.method)
  let (ret, line) := line.parseRequestUrlParams
  if ret ≠ 0 then (ret, { req with line })
  else
    let line := if p.httpMajor = 1 ∧ p.httpMinor = 0 then line.setHttpVersion (bytes "HTTP/1.0") else line
    let line := if p.httpMajor = 1 ∧ p.httpMinor = 1 then line.setHttpVersion (bytes "HTTP/1.1") else line
    (0, { req with line, parsePart := .head })

def pushHeaderField (field : Bytes) (req : Request) : Request :=
  if req.lastWasValue then
    { req with headerFields := req.headerFields ++ [field], lastWasValue := false }
  else -- when parse field partial, append the new field part
    { req with headerFields := updateBack (fun f => f ++ field) req.headerFields }

def ssOnHeaderField (p : HttpParser) (s : Bytes) (req : Request) : Exit × Request :=
  let (ret, req) := if req.parsePart = .line then recordRequestLine p req else (0, req)
  if ret ≠ 0 then (.ret ret, req) else (.ret 0, pushHeaderField s req)

def ssOnHeaderValue (s : Bytes) (req : Request) : Exit × Request :=
  let headerValues :=
    if !req.lastWasValue then req.headerValues ++ [s]
    else updateBack (fun v => v ++ s) req.headerValues
  (.ret 0, { req with headerValues, lastWasValue := true })

/-- The loop of `ss_on_headers_complete`; `add_header` lowers the recorded names. -/
def addHeaders (req : Request) : Request :=
  let pairs := req.headerFields.zip req.headerValues
  pairs.foldl (fun req h => (req.addHeader h.1 h.2).2)
    { req with headerFields := req.headerFields.map ssStrTolower }

def ssOnHeadersComplete (req : Request) : Exit × Request :=
  if req.headerFields.length ≠ req.headerValues.length then (.ret (-1), req)
  else
    let req := { addHeaders req with parsePart := .headOver }
    if req.getMethod = bytes "POST" then
      let (value, req) := req.getHeader (bytes "Content-Length")
      if value.isEmpty then (.ret (-1), { req with parseErr := PARSE_LEN_REQUIRED })
      else (.ret 0, req)
    else (.ret 0, req)

def ssOnBody (s : Bytes) (req : Request) : Exit × Request :=
  (.ret 0, { req with
    body := { req.body with rawString := req.body.rawString ++ s }, parsePart := .body })

/-- The form branch of `ss_on_message_complete`. -/
def parseFormBody (ctHeader : Bytes) (b : RequestBody) : RequestBody :=
  if ctHeader = bytes "application/x-www-form-urlencoded" then
    if b.rawString.length ≠ 0 then
      { b with reqParams := (b.reqParams.parseQueryUrl b.rawString).2 }
    else b
  else b

def ssOnMessageComplete (req : Request) : Exit × Request :=
  let (ctHeader, req) := req.getHeader (bytes "Content-Type")
  -- parse body params
  let req := { req with body := parseFormBody ctHeader req.body }
  if contains (bytes "multipart/form-data") ctHeader then
    match ssParseMultipartData req with
    | (.thrown, req) => (.thrown, req)
    | (.ret parseRet, req) =>
      let req := if parseRet ≠ 0 then { req with parseErr := PARSE_MULTIPART_ERR } else req
      (.ret parseRet, { req with parsePart := .over })
  else (.ret 0, { req with parsePart := .over })

/-- `_settings`, with the parser as each callback sees it. -/
def httpCallback (p : HttpParser) : HttpEvent → Request → Exit × Request
  | .url s, req => ssOnUrl s req
  | .headerField s, req => ssOnHeaderField p s req
  | .headerValue s, req => ssOnHeaderValue s req
  | .headersComplete, req => ssOnHeadersComplete req
  | .body s, req => ssOnBody s req
  | .messageComplete, req => ssOnMessageComplete req

def httpCall (c : HttpCall) (req : Request) : Exit × Request := httpCallback c.parser c.event req

/-! ## `parse_request` -/

/-- A failing callback ends the function with the bytes consumed so far. -/
def httpParserExecute (seg : Segment) (req : Request) : Exit × Request :=
  match runAll httpCall seg.calls req with
  | (none, req) => (.ret seg.readSize, req)
  | (some (c, .ret _), req) => (.ret c.consumed, req)
  | (some (_, .thrown), req) => (.thrown, req)

def parseRequest (seg : Segment) (req : Request) : Exit × Request :=
  let req := { req with totalReqSize := req.totalReqSize + seg.readSize }
  if req.totalReqSize > MAX_REQ_SIZE then (.ret (-1), req)
  else
    match httpParserExecute seg req with
    | (.thrown, req) => (.thrown, req)
    | (.ret nparsed, req) =>
      if nparsed ≠ seg.readSize then (.ret (-1), req)
      else if req.parseErr ≠ 0 then (.ret req.parseErr, req)
      else if req.parsePart ≠ .over then (.ret NEED_MORE_STATUS, req)
      else (.ret 0, req)

/-- One `recv` after the other, until the request is over or refused: the
returns, in order, and the request. -/
def feed : Request → List Segment → List Exit × Request
  | req, [] => ([], req)
  | req, seg :: segs =>
    let (ret, req) := parseRequest seg req
    if ret = .ret NEED_MORE_STATUS then (ret :: (feed req segs).1, (feed req segs).2)
    else ([ret], req)

/-! ## `on_readable` -/

/-- The result of `recv`. -/
inductive RecvResult
  | data (seg : Segment)
  | eintr
  | error
  | closed
  deriving DecidableEq, Repr

/-- `READ_OVER`, `READ_CONTINUE`, `READ_CLOSE`; `thrown` is the exception that
leaves `parse_request`. -/
inductive ReadRet
  | readOver | readContinue | readClose | thrown
  deriving DecidableEq, Repr

/-- `on_readable` behind `parse_request`: the return code, the context and the
request handed to `handle_request`. -/
def afterParse (handleRequest : Request → Response → Request × Response) (ret : Exit)
    (hc : HttpContext) : ReadRet × HttpContext × Option Request :=
  match ret with
  | .thrown => (.thrown, hc, none)
  | .ret ret =>
    if ret < 0 then (.readClose, hc, none)
    else if ret = NEED_MORE_STATUS then (.readContinue, hc, none)
    else if ret = PARSE_LEN_REQUIRED then
      let res := { hc.res with codeMsg := STATUS_LENGTH_REQUIRED, body := STATUS_LENGTH_REQUIRED.msg }
      (.readOver, { hc with res }, none)
    else
      let (req, res) := handleRequest hc.req hc.res
      (.readOver, { req, res }, some hc.req)

def onReadable (handleRequest : Request → Response → Request × Response) (recv : RecvResult)
    (hc : HttpContext) : ReadRet × HttpContext × Option Request :=
  match recv with
  | .eintr => (.readContinue, hc, none)
  | .error => (.readClose, hc, none)
  | .closed => (.readClose, hc, none)
  | .data seg =>
    let (ret, req) := parseRequest seg hc.req
    afterParse handleRequest ret { hc with req }

/-- `on_readable` again and again, as long as it returns `READ_CONTINUE`. -/
def readLoop (handleRequest : Request → Response → Request × Response) :
    HttpContext → List Segment → ReadRet × HttpContext × Option Request
  | hc, [] => (.readContinue, hc, none)
  | hc, seg :: segs =>
    let out := onReadable handleRequest (.data seg) hc
    if out.1 = .readContinue then readLoop handleRequest out.2.1 segs else out

/-! ## What the header callbacks do -/

/-- The request line once method, query and version are recorded. -/
def RequestLine.recorded (p : HttpParser) (l : RequestLine) : RequestLine :=
  let line := ((l.setMethod (httpMethodStr p.method)).parseRequestUrlParams).2
  let line := if p.httpMajor = 1 ∧ p.httpMinor = 0 then line.setHttpVersion (bytes "HTTP/1.0") else line
  if p.httpMajor = 1 ∧ p.httpMinor = 1 then line.setHttpVersion (bytes "HTTP/1.1") else line

theorem parseRequestUrlParams_ret (l : RequestLine) : l.parseRequestUrlParams.1 = 0 := by
  simp only [RequestLine.parseRequestUrlParams]
  split <;> rfl

theorem recordRequestLine_eq (p : HttpParser) (req : Request) :
    recordRequestLine p req = (0, { req with line := req.line.recorded p, parsePart := .head }) := by
  have h := parseRequestUrlParams_ret (req.line.setMethod (httpMethodStr p.method))
  simp only [recordRequestLine, h, ne_eq, not_true_eq_false, ↓reduceIte]
  rfl

/-- The request as the field is pushed: with its line recorded. -/
def Request.inHead (p : HttpParser) (req : Request) : Request :=
  if req.parsePart = .line then { req with line := req.line.recorded p, parsePart := .head } else req

theorem ssOnHeaderField_eq (p : HttpParser) (s : Bytes) (req : Request) :
    ssOnHeaderField p s req = (.ret 0, pushHeaderField s (req.inHead p)) := by
  by_cases h : req.parsePart = .line
  · simp [ssOnHeaderField, Request.inHead, recordRequestLine_eq, h]
  · simp [ssOnHeaderField, Request.inHead, h]

/-- The header map with header lines added, in order. -/
def insertHeaders (headers : StdMap Bytes Bytes) (pairs : List (Bytes × Bytes)) :
    StdMap Bytes Bytes :=
  pairs.foldl (fun headers h => headers.insert bytesLt (ssStrTolower h.1) h.2) headers

/-- Only the names and the map change. -/
theorem addHeaders_eq (req : Request) :
    addHeaders req = { req with
      headerFields := req.headerFields.map ssStrTolower
      headers := insertHeaders req.headers (req.headerFields.zip req.headerValues) } := by
  have h : ∀ (pairs : List (Bytes × Bytes)) (r : Request),
      pairs.foldl (fun req h => (req.addHeader h.1 h.2).2) r =
        { r with headers := insertHeaders r.headers pairs } := by
    intro pairs
    induction pairs with
    | nil => intro r; rfl
    | cons p pairs ih => intro r; exact ih (r.addHeader p.1 p.2).2
  exact h (req.headerFields.zip req.headerValues) _

/-- The request with its headers in the map. -/
def Request.headOver (req : Request) : Request := { addHeaders req with parsePart := .headOver }

/-- **Headers complete.**  A POST whose Content-Length reads as empty is
refused, any other request is not. -/
theorem ssOnHeadersComplete_eq (req : Request)
    (h : req.headerFields.length = req.headerValues.length) :
    ssOnHeadersComplete req =
      if req.headOver.getMethod = bytes "POST" then
        let found := req.headOver.getHeader (bytes "Content-Length")
        if found.1 = [] then (.ret (-1), { found.2 with parseErr := PARSE_LEN_REQUIRED })
        else (.ret 0, found.2)
      else (.ret 0, req.headOver) := by
  simp only [ssOnHeadersComplete, h, ne_eq, not_true_eq_false, ↓reduceIte, List.isEmpty_iff]
  rfl

end Ehttp
