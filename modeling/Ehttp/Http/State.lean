import Ehttp.Lib.Marks
import Ehttp.Parse.Driver
import Ehttp.Parse.Url

/-!
# The states of `http_parser`

The vendored parser as it is built (`HTTP_PARSER_STRICT=0`) and used: a parser
of requests that is not lenient.  `struct http_parser`, the tables, and what
the `switch` of `http_parser_execute` does with one byte in each state that has
no loop of its own.  `REEXECUTE` is a call of the state that was just entered.

`on_message_begin`, `on_status` and the chunk callbacks are not set in
`_settings`, so their macros do nothing.
-/

namespace Ehttp.Http

open Lib

/-! ## Tables and characters -/

def ULLONG_MAX : Nat := 2 ^ 64 - 1

/-- `max_header_size`. -/
def maxHeaderSize : Nat := 80 * 1024

/-- `tokens`: the token characters, letters in lower case, and 0 for every other
byte.  A space (32) is a token character, as the build is not strict. -/
def token (c : UInt8) : UInt8 :=
  if isAlpha c then c ||| 32
  else if isNum c ∨ c ∈ [32, 33, 35, 36, 37, 38, 39, 42, 43, 45, 46, 94, 95, 96, 124, 126] then c
  else 0

def strictToken (c : UInt8) : UInt8 := if c = 32 then 0 else token c

/-- `unhex`, with `none` for -1.  The table has no entries from 128 on, so they are 0. -/
def unhex (c : UInt8) : Option Nat :=
  if isNum c then some (c.toNat - 48)
  else if 65 ≤ c ∧ c ≤ 70 then some (c.toNat - 55)
  else if 97 ≤ c ∧ c ≤ 102 then some (c.toNat - 87)
  else if 128 ≤ c then some 0
  else none

def lower (c : UInt8) : UInt8 := c ||| 32

def isHeaderChar (c : UInt8) : Bool := c = CR ∨ c = LF ∨ c = 9 ∨ 31 < c ∧ c ≠ 127

def digit (c : UInt8) : Nat := c.toNat - 48

/-! ## The parser -/

/-- `enum state`, without the states of responses.  `reqUrl` stands for the states
of the URL, from `s_req_spaces_before_url` to `s_req_fragment`, and `s_dead`. -/
inductive State
  | startReq | reqMethod
  | reqUrl (s : UrlState)
  | reqHttpStart | reqHttpH | reqHttpHT | reqHttpHTT | reqHttpHTTP | reqHttpI | reqHttpIC
  | reqHttpMajor | reqHttpDot | reqHttpMinor | reqHttpEnd | reqLineAlmostDone
  | headerFieldStart | headerField
  | headerValueDiscardWs | headerValueDiscardWsAlmostDone | headerValueDiscardLws
  | headerValueStart | headerValue | headerValueLws | headerAlmostDone
  | chunkSizeStart | chunkSize | chunkParameters | chunkSizeAlmostDone
  | headersAlmostDone | headersDone
  | chunkData | chunkDataAlmostDone | chunkDataDone
  | bodyIdentity | messageDone
  deriving DecidableEq, Repr

/-- `PARSING_HEADER`. -/
def State.parsingHeader : State → Bool
  | .chunkData | .chunkDataAlmostDone | .chunkDataDone | .bodyIdentity | .messageDone => false
  | _ => true

/-- `enum header_states`. -/
inductive HeaderState
  | general | hC | hCO | hCON
  | matchingConnection | matchingProxyConnection | matchingContentLength
  | matchingTransferEncoding | matchingUpgrade
  | connection | contentLength | contentLengthNum | contentLengthWs | transferEncoding | upgrade
  | matchingTransferEncodingChunked | matchingConnectionTokenStart | matchingConnectionKeepAlive
  | matchingConnectionClose | matchingConnectionUpgrade | matchingConnectionToken
  | transferEncodingChunked | connectionKeepAlive | connectionClose | connectionUpgrade
  deriving DecidableEq, Repr

/-- The errors a parser of requests can end with; `cb` is `HPE_CB_*`. -/
inductive Errno
  | ok | cb
  | invalidEofState | headerOverflow | closedConnection | invalidVersion | invalidMethod
  | invalidUrl | lfExpected | invalidHeaderToken | invalidContentLength | unexpectedContentLength
  | invalidChunkSize | invalidConstant
  deriving DecidableEq, Repr

/-- `F_CHUNKED` .. `F_CONTENTLENGTH`. -/
structure Flags where
  chunked : Bool := false
  connectionKeepAlive : Bool := false
  connectionClose : Bool := false
  connectionUpgrade : Bool := false
  trailing : Bool := false
  upgrade : Bool := false
  skipbody : Bool := false
  contentlength : Bool := false
  deriving DecidableEq, Repr

/-- `struct http_parser`; what the callbacks read of it is `HttpParser`. -/
structure Parser extends HttpParser where
  flags : Flags
  state : State
  headerState : HeaderState
  index : Nat
  nread : Nat
  contentLength : Nat
  httpErrno : Errno
  upgrade : Bool
  deriving DecidableEq, Repr

/-- `http_parser_init` for `HTTP_REQUEST`. -/
def httpParserInit : Parser where
  method := .delete
  httpMajor := 0
  httpMinor := 0
  flags := {}
  state := .startReq
  headerState := .general
  index := 0
  nread := 0
  contentLength := 0
  httpErrno := .ok
  upgrade := false

/-! ## Marks and callbacks -/

/-- The data callbacks and their marks. -/
inductive DataKind
  | url | headerField | headerValue | body
  deriving DecidableEq, Repr

def DataKind.event : DataKind → Bytes → HttpEvent
  | .url, s => .url s
  | .headerField, s => .headerField s
  | .headerValue, s => .headerValue s
  | .body, s => .body s

/-- The callbacks without data. -/
inductive Notice
  | headersComplete | messageComplete
  deriving DecidableEq, Repr

def Notice.event : Notice → HttpEvent
  | .headersComplete => .headersComplete
  | .messageComplete => .messageComplete

abbrev Op : Type := MarkOp (DataKind × HttpParser) (HttpParser × Notice) UInt8

/-- How a pass through the `switch` ends: `break`, `goto error`,
`RETURN((p - data) + 1)`, or a failed assertion. -/
inductive Out
  | next | error | ret | abort
  deriving DecidableEq, Repr

/-- A pass through the `switch` that reads one byte, with the macros it executes. -/
structure Move where
  parser : Parser
  ops : List Op
  out : Out

namespace Parser

/-- `MARK(FOR)`. -/
def mark (c : Parser) (k : DataKind) : Op := .mark (k, c.toHttpParser)

/-- `CALLBACK_DATA(FOR)`. -/
def callbackData (c : Parser) (k : DataKind) : Op := .flush (k, c.toHttpParser) 1

/-- `CALLBACK_DATA_NOADVANCE(FOR)`. -/
def callbackDataNoadvance (c : Parser) (k : DataKind) : Op := .flush (k, c.toHttpParser) 0

/-- `CALLBACK_NOTIFY(message_complete)`. -/
def messageComplete (c : Parser) : Op := .notify (c.toHttpParser, .messageComplete) 1

/-- `break`, behind which `p` moves over the byte. -/
def go (c : Parser) (ch : UInt8) (ops : List Op) : Move := ⟨c, ops ++ [.pass [ch]], .next⟩

/-- `SET_ERRNO(e); goto error`. -/
def fail (c : Parser) (e : Errno) (ops : List Op) : Move := ⟨{ c with httpErrno := e }, ops, .error⟩

def abort (c : Parser) : Move := ⟨c, [], .abort⟩

/-- `index` has 7 bits. -/
def nextIndex (c : Parser) : Parser := { c with index := (c.index + 1) % 128 }

end Parser

/-! ## The request line -/

def firstMethod : List (UInt8 × HttpMethod) :=
  [(65, .acl), (66, .bind), (67, .connect), (68, .delete), (71, .get), (72, .head), (76, .lock),
    (77, .mkcol), (78, .notify), (79, .options), (80, .post), (82, .report), (83, .subscribe),
    (84, .trace), (85, .unlock)]

/-- The table `XX(meth, pos, ch, new_meth)`. -/
def nextMethod : List ((HttpMethod × Nat × UInt8) × HttpMethod) :=
  [((.post, 1, 85), .put), ((.post, 1, 65), .patch), ((.post, 1, 82), .propfind),
    ((.put, 2, 82), .purge), ((.connect, 1, 72), .checkout), ((.connect, 2, 80), .copy),
    ((.mkcol, 1, 79), .move), ((.mkcol, 1, 69), .merge), ((.mkcol, 1, 45), .msearch),
    ((.mkcol, 2, 65), .mkactivity), ((.mkcol, 3, 65), .mkcalendar), ((.subscribe, 1, 69), .search),
    ((.subscribe, 1, 79), .source), ((.report, 2, 66), .rebind), ((.propfind, 4, 80), .proppatch),
    ((.lock, 1, 73), .link), ((.unlock, 2, 83), .unsubscribe), ((.unlock, 2, 66), .unbind),
    ((.unlock, 3, 73), .unlink)]

def sStartReq (c : Parser) (ch : UInt8) : Move :=
  if ch = CR ∨ ch = LF then c.go ch []
  else
    let c := { c with flags := {}, contentLength := ULLONG_MAX }
    if !isAlpha ch then c.fail .invalidMethod []
    else
      let c := { c with method := .delete, index := 1 }
      match firstMethod.lookup ch with
      | none => c.fail .invalidMethod []
      | some method => Parser.go { c with method, state := .reqMethod } ch []

def sReqMethod (c : Parser) (ch : UInt8) : Move :=
  if ch = 0 then c.fail .invalidMethod []
  else
    match (httpMethodStr c.method ++ [0])[c.index]? with
    | none => c.abort -- a read behind the end of the string
    | some m =>
      if ch = 32 ∧ m = 0 then
        (Parser.nextIndex { c with state := .reqUrl .spacesBeforeUrl }).go ch []
      else if ch = m then c.nextIndex.go ch []
      else if 65 ≤ ch ∧ ch ≤ 90 ∨ ch = 45 then
        match nextMethod.lookup (c.method, c.index, ch) with
        | none => c.fail .invalidMethod []
        | some method => (Parser.nextIndex { c with method }).go ch []
      else c.fail .invalidMethod []

/-- `UPDATE_STATE(parse_url_char(CURRENT_STATE(), ch))` and the test behind it. -/
def urlChar (c : Parser) (s : UrlState) (ch : UInt8) (ops : List Op) : Move :=
  let c := { c with state := .reqUrl (parseUrlChar s ch) }
  if parseUrlChar s ch = .dead then c.fail .invalidUrl ops else c.go ch ops

def sReqUrl (c : Parser) (s : UrlState) (ch : UInt8) : Move :=
  match s with
  | .dead => if ch = CR ∨ ch = LF then c.go ch [] else c.fail .closedConnection []
  | .spacesBeforeUrl =>
    if ch = 32 then c.go ch []
    else urlChar c (if c.method = .connect then .serverStart else .spacesBeforeUrl) ch [c.mark .url]
  | .schema | .schemaSlash | .schemaSlashSlash | .serverStart =>
    -- no whitespace allowed here
    if ch = 32 ∨ ch = CR ∨ ch = LF then c.fail .invalidUrl [] else urlChar c s ch []
  | .server | .serverWithAt | .path | .queryStringStart | .queryString | .fragmentStart
  | .fragment =>
    if ch = 32 then Parser.go { c with state := .reqHttpStart } ch [c.callbackData .url]
    else if ch = CR ∨ ch = LF then
      let c := { c with
        httpMajor := 0
        httpMinor := 9
        state := if ch = CR then .reqLineAlmostDone else .headerFieldStart }
      c.go ch [c.callbackData .url]
    else urlChar c s ch []

def sReqHttpStart (c : Parser) (ch : UInt8) : Move :=
  if ch = 32 then c.go ch []
  else if ch = 72 then Parser.go { c with state := .reqHttpH } ch []
  else if ch = 73 ∧ c.method = .source then Parser.go { c with state := .reqHttpI } ch []
  else c.fail .invalidConstant []

/-- The states of `HTTP/`: not a strict build, so the byte is not looked at. -/
def sReqHttpLetter (c : Parser) (next : State) (ch : UInt8) : Move :=
  Parser.go { c with state := next } ch []

def sReqHttpMajor (c : Parser) (ch : UInt8) : Move :=
  if !isNum ch then c.fail .invalidVersion []
  else Parser.go { c with httpMajor := digit ch, state := .reqHttpDot } ch []

def sReqHttpDot (c : Parser) (ch : UInt8) : Move :=
  if ch ≠ 46 then c.fail .invalidVersion [] else Parser.go { c with state := .reqHttpMinor } ch []

def sReqHttpMinor (c : Parser) (ch : UInt8) : Move :=
  if !isNum ch then c.fail .invalidVersion []
  else Parser.go { c with httpMinor := digit ch, state := .reqHttpEnd } ch []

def sReqHttpEnd (c : Parser) (ch : UInt8) : Move :=
  if ch = CR then Parser.go { c with state := .reqLineAlmostDone } ch []
  else if ch = LF then Parser.go { c with state := .headerFieldStart } ch []
  else c.fail .invalidVersion []

def sReqLineAlmostDone (c : Parser) (ch : UInt8) : Move :=
  if ch ≠ LF then c.fail .lfExpected [] else Parser.go { c with state := .headerFieldStart } ch []

/-! ## The end of the headers -/

/-- `s_message_done`, without its callback: the new state, and whether the parser
leaves the rest to another protocol. -/
def sMessageDone (c : Parser) : Parser × Out :=
  ({ c with state := .startReq }, if c.upgrade then .ret else .next)

/-- `ops` are the macros before a `REEXECUTE`. -/
def sHeadersDone (c : Parser) (ch : UInt8) (ops : List Op) : Move :=
  let c := { c with nread := 0 }
  let hasBody := c.flags.chunked || (0 < c.contentLength && c.contentLength ≠ ULLONG_MAX)
  let done := { c with state := .startReq }
  if c.upgrade ∧ (c.method = .connect ∨ c.flags.skipbody ∨ !hasBody) then
    -- exit, the rest of the message is in a different protocol
    ⟨done, ops ++ [c.messageComplete, .pass [ch]], .ret⟩
  else if c.flags.skipbody then Parser.go done ch (ops ++ [c.messageComplete])
  else if c.flags.chunked then Parser.go { c with state := .chunkSizeStart } ch ops
  else if c.contentLength = 0 then Parser.go done ch (ops ++ [c.messageComplete])
  else if c.contentLength ≠ ULLONG_MAX then Parser.go { c with state := .bodyIdentity } ch ops
  else -- `http_message_needs_eof` is 0 for a request
    Parser.go done ch (ops ++ [c.messageComplete])

def sHeadersAlmostDone (c : Parser) (ch : UInt8) (ops : List Op) : Move :=
  if c.flags.trailing then
    -- end of a chunked request
    let d := sMessageDone c
    ⟨d.1, ops ++ [c.messageComplete, .pass [ch]], d.2⟩
  else if c.flags.chunked ∧ c.flags.contentlength then c.fail .unexpectedContentLength ops
  else
    let c := { c with
      state := .headersDone
      upgrade := if c.flags.upgrade ∧ c.flags.connectionUpgrade then true else c.method = .connect }
    sHeadersDone c ch (ops ++ [.notify (c.toHttpParser, .headersComplete) 0])

/-! ## Header fields -/

def firstHeaderState (t : UInt8) : HeaderState :=
  if t = 99 then .hC
  else if t = 112 then .matchingProxyConnection
  else if t = 116 then .matchingTransferEncoding
  else if t = 117 then .matchingUpgrade
  else .general

def sHeaderFieldStart (c : Parser) (ch : UInt8) (ops : List Op) : Move :=
  if ch = CR then Parser.go { c with state := .headersAlmostDone } ch ops
  else if ch = LF then
    -- they might be just sending \n instead of \r\n
    sHeadersAlmostDone { c with state := .headersAlmostDone } ch ops
  else if token ch = 0 then c.fail .invalidHeaderToken ops
  else
    Parser.go { c with
      index := 0
      state := .headerField
      headerState := firstHeaderState (token ch) } ch (ops ++ [c.mark .headerField])

/-- One of the `h_matching_*` states: the character at `index` of `name` is looked for. -/
def matchState (name : Bytes) (matched mismatched current : HeaderState) (index : Nat) (t : UInt8) :
    HeaderState :=
  if index > name.length ∨ (name ++ [0])[index]? ≠ some t then mismatched
  else if index = name.length - 1 then matched
  else current

def matchName (name : Bytes) (matched mismatched : HeaderState) (c : Parser) (t : UInt8) : Parser :=
  let c := c.nextIndex
  { c with headerState := matchState name matched mismatched c.headerState c.index t }

/-- The `switch` on `header_state` for a character `ch` of a field name, with
its token `t`; `none` is the assertion in its `default`. -/
def fieldChar (c : Parser) (ch t : UInt8) : Option Parser :=
  match c.headerState with
  | .general => some c
  | .hC => some { c.nextIndex with headerState := if t = 111 then .hCO else .general }
  | .hCO => some { c.nextIndex with headerState := if t = 110 then .hCON else .general }
  | .hCON =>
    some { c.nextIndex with
      headerState :=
        if t = 110 then .matchingConnection
        else if t = 116 then .matchingContentLength
        else .general }
  | .matchingConnection => some (matchName (bytes "connection") .connection .general c t)
  | .matchingProxyConnection =>
    some (matchName (bytes "proxy-connection") .connection .general c t)
  | .matchingContentLength => some (matchName (bytes "content-length") .contentLength .general c t)
  | .matchingTransferEncoding =>
    some (matchName (bytes "transfer-encoding") .transferEncoding .general c t)
  | .matchingUpgrade => some (matchName (bytes "upgrade") .upgrade .general c t)
  | .connection | .contentLength | .transferEncoding | .upgrade =>
    some { c with headerState := if ch ≠ 32 then .general else c.headerState }
  | _ => none

/-! ## Header values -/

/-- The letters a value of `Connection` may begin with. -/
def firstConnectionState (l : UInt8) (other : HeaderState) : HeaderState :=
  if l = 107 then .matchingConnectionKeepAlive
  else if l = 99 then .matchingConnectionClose
  else if l = 117 then .matchingConnectionUpgrade
  else other

def sHeaderValueStart (c : Parser) (ch : UInt8) : Move :=
  let mark := [c.mark .headerValue]
  let c := { c with state := .headerValue, index := 0 }
  match c.headerState with
  | .upgrade =>
    Parser.go { c with flags := { c.flags with upgrade := true }, headerState := .general } ch mark
  | .transferEncoding =>
    -- looking for 'Transfer-Encoding: chunked'
    Parser.go { c with
      headerState := if lower ch = 99 then .matchingTransferEncodingChunked else .general } ch mark
  | .contentLength =>
    if !isNum ch then c.fail .invalidContentLength mark
    else if c.flags.contentlength then c.fail .unexpectedContentLength mark
    else
      Parser.go { c with
        flags := { c.flags with contentlength := true }
        contentLength := digit ch
        headerState := .contentLengthNum } ch mark
  -- when obsolete line folding is encountered for content length continue to the value
  | .contentLengthWs => c.go ch mark
  | .connection =>
    Parser.go { c with
      headerState := firstConnectionState (lower ch) .matchingConnectionToken } ch mark
  | .matchingConnectionTokenStart => c.go ch mark
  | _ => Parser.go { c with headerState := .general } ch mark

inductive ValueChar
  | ok (c : Parser)
  | bad (e : Errno)
  | abort

/-- `h_content_length_num`.  The product is tested for overflow before it is kept. -/
def contentLengthChar (c : Parser) (ch : UInt8) : ValueChar :=
  if ch = 32 then .ok { c with headerState := .contentLengthWs }
  else if !isNum ch then .bad .invalidContentLength
  else if (ULLONG_MAX - 10) / 10 < c.contentLength then .bad .invalidContentLength
  else .ok { c with contentLength := (c.contentLength * 10 + digit ch) % 2 ^ 64 }

/-- `h_connection_keep_alive` and its two siblings, which differ in the flag set
at a comma. -/
def connectionChar (c : Parser) (flags : Flags) (ch : UInt8) : Parser :=
  if ch = 44 then { c with flags, headerState := .matchingConnectionTokenStart, index := 0 }
  else if ch ≠ 32 then { c with headerState := .matchingConnectionToken }
  else c

/-- The `switch` on `h_state` for a character of a value. -/
def valueChar (c : Parser) (ch : UInt8) : ValueChar :=
  let l := lower ch
  match c.headerState with
  | .general => .ok c
  | .connection | .transferEncoding => .abort -- "Shouldn't get here."
  | .contentLength =>
    if ch = 32 then .ok c else contentLengthChar { c with headerState := .contentLengthNum } ch
  | .contentLengthNum => contentLengthChar c ch
  | .contentLengthWs => if ch = 32 then .ok c else .bad .invalidContentLength
  | .matchingTransferEncodingChunked =>
    .ok (matchName (bytes "chunked") .transferEncodingChunked .general c l)
  | .matchingConnectionTokenStart =>
    .ok { c with
      headerState := firstConnectionState l
        (if strictToken l ≠ 0 then .matchingConnectionToken
        else if l = 32 ∨ l = 9 then .matchingConnectionTokenStart -- skip lws
        else .general) }
  | .matchingConnectionKeepAlive =>
    .ok (matchName (bytes "keep-alive") .connectionKeepAlive .matchingConnectionToken c l)
  | .matchingConnectionClose =>
    .ok (matchName (bytes "close") .connectionClose .matchingConnectionToken c l)
  | .matchingConnectionUpgrade =>
    .ok (matchName (bytes "upgrade") .connectionUpgrade .matchingConnectionToken c l)
  | .matchingConnectionToken =>
    .ok (if ch = 44 then { c with headerState := .matchingConnectionTokenStart, index := 0 } else c)
  | .transferEncodingChunked => .ok (if ch ≠ 32 then { c with headerState := .general } else c)
  | .connectionKeepAlive =>
    .ok (connectionChar c { c.flags with connectionKeepAlive := true } ch)
  | .connectionClose => .ok (connectionChar c { c.flags with connectionClose := true } ch)
  | .connectionUpgrade => .ok (connectionChar c { c.flags with connectionUpgrade := true } ch)
  | _ => .ok { c with headerState := .general, state := .headerValue }

def sHeaderValueDiscardWs (c : Parser) (ch : UInt8) : Move :=
  if ch = 32 ∨ ch = 9 then c.go ch []
  else if ch = CR then Parser.go { c with state := .headerValueDiscardWsAlmostDone } ch []
  else if ch = LF then Parser.go { c with state := .headerValueDiscardLws } ch []
  else sHeaderValueStart c ch

/-- The flags that the value of a finished header sets. -/
def finishedHeader (h : HeaderState) (flags : Flags) : Flags :=
  match h with
  | .connectionKeepAlive => { flags with connectionKeepAlive := true }
  | .connectionClose => { flags with connectionClose := true }
  | .transferEncodingChunked => { flags with chunked := true }
  | .connectionUpgrade => { flags with connectionUpgrade := true }
  | _ => flags

def sHeaderValueDiscardLws (c : Parser) (ch : UInt8) : Move :=
  if ch = 32 ∨ ch = 9 then Parser.go { c with state := .headerValueDiscardWs } ch []
  else if c.headerState = .contentLength then
    -- do not allow empty content length
    c.fail .invalidContentLength []
  else
    -- header value was empty
    let c := { c with flags := finishedHeader c.headerState c.flags, state := .headerFieldStart }
    sHeaderFieldStart c ch [c.mark .headerValue, c.callbackDataNoadvance .headerValue]

def sHeaderAlmostDone (c : Parser) (ch : UInt8) (ops : List Op) : Move :=
  if ch ≠ LF then c.fail .lfExpected ops else Parser.go { c with state := .headerValueLws } ch ops

def sHeaderValueLws (c : Parser) (ch : UInt8) : Move :=
  if ch = 32 ∨ ch = 9 then
    -- treat obsolete line folding as space
    sHeaderValueStart { c with
      headerState := if c.headerState = .contentLengthNum then .contentLengthWs else c.headerState
      state := .headerValueStart } ch
  else
    sHeaderFieldStart { c with
      flags := finishedHeader c.headerState c.flags
      state := .headerFieldStart } ch []

/-! ## Chunks -/

def sChunkSizeStart (c : Parser) (ch : UInt8) : Move :=
  if c.nread ≠ 1 ∨ !c.flags.chunked then c.abort
  else
    match unhex ch with
    | none => c.fail .invalidChunkSize []
    | some n => Parser.go { c with contentLength := n, state := .chunkSize } ch []

def sChunkSize (c : Parser) (ch : UInt8) : Move :=
  if !c.flags.chunked then c.abort
  else if ch = CR then Parser.go { c with state := .chunkSizeAlmostDone } ch []
  else
    match unhex ch with
    | none =>
      if ch = 59 ∨ ch = 32 then Parser.go { c with state := .chunkParameters } ch []
      else c.fail .invalidChunkSize []
    | some n =>
      if (ULLONG_MAX - 16) / 16 < c.contentLength then c.fail .invalidContentLength []
      else Parser.go { c with contentLength := (c.contentLength * 16 + n) % 2 ^ 64 } ch []

def sChunkParameters (c : Parser) (ch : UInt8) : Move :=
  if !c.flags.chunked then c.abort
  else if ch = CR then Parser.go { c with state := .chunkSizeAlmostDone } ch []
  else c.go ch []

def sChunkSizeAlmostDone (c : Parser) (ch : UInt8) : Move :=
  if !c.flags.chunked then c.abort
  else if c.contentLength = 0 then
    Parser.go { c with
      nread := 0, flags := { c.flags with trailing := true }, state := .headerFieldStart } ch []
  else Parser.go { c with nread := 0, state := .chunkData } ch []

def sChunkDataAlmostDone (c : Parser) (ch : UInt8) : Move :=
  if !c.flags.chunked ∨ c.contentLength ≠ 0 then c.abort
  else Parser.go { c with state := .chunkDataDone } ch [c.callbackData .body]

def sChunkDataDone (c : Parser) (ch : UInt8) : Move :=
  if !c.flags.chunked then c.abort
  else Parser.go { c with nread := 0, state := .chunkSizeStart } ch []

end Ehttp.Http
