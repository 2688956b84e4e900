import Ehttp.Http.State

/-!
# `http_parser_execute`

The loop over a buffer, with the inner loops of the states that read more than
a byte at a time.  A pointer into the buffer is the bytes from there on.  The
calls are those of a run in which every callback returns 0; the callbacks of
`_settings` return 0 or end the run (`headersComplete_ret`).

The loops of `h_general` stop after `max_header_size` bytes; only a buffer of
more than 80 KiB is that long, and `HPE_HEADER_OVERFLOW` ends the call there
either way.
-/

namespace Ehttp.Http

open Lib

/-- A pass through the `switch`: `p` is behind what was read, or at the byte that
is in error. -/
structure Turn where
  parser : Parser
  ops : List Op
  p : Bytes
  out : Out

def Move.turn (m : Move) (ch : UInt8) (rest : Bytes) : Turn :=
  ⟨m.parser, m.ops, if m.out = .next ∨ m.out = .ret then rest else ch :: rest, m.out⟩

/-- `COUNT_HEADER_SIZE(v)`, without the test. -/
def Parser.count (c : Parser) (v : Nat) : Parser := { c with nread := c.nread + v }

def Parser.overflows (c : Parser) : Bool := maxHeaderSize < c.nread

/-! ## `s_header_field` -/

/-- Where the loop over a field name stops: the bytes it passed, and those from `p` on. -/
structure FieldRun where
  parser : Parser
  passed : Bytes
  p : Bytes

def fieldLoop : Parser → Bytes → Option FieldRun
  | c, [] => some ⟨c, [], []⟩
  | c, ch :: rest =>
    if token ch = 0 then some ⟨c, [], ch :: rest⟩
    else
      (fieldChar c ch (token ch)).bind fun c =>
        (fieldLoop c rest).map fun r => { r with passed := ch :: r.passed }

def sHeaderField (c : Parser) (p : Bytes) : Turn :=
  match fieldLoop c p with
  | none => ⟨c, [], p, .abort⟩
  | some ⟨c, passed, []⟩ => -- `--p`: the last byte is counted already
    let c := c.count (passed.length - 1)
    if c.overflows then ⟨{ c with httpErrno := .headerOverflow }, [], p.drop (p.length - 1), .error⟩
    else ⟨c, [.pass passed], [], .next⟩
  | some ⟨c, passed, ch :: rest⟩ =>
    let c := c.count passed.length
    if c.overflows then ⟨{ c with httpErrno := .headerOverflow }, [], ch :: rest, .error⟩
    else if ch = 58 then
      ⟨{ c with state := .headerValueDiscardWs },
        [.pass passed, c.callbackData .headerField, .pass [ch]], rest, .next⟩
    else ⟨{ c with httpErrno := .invalidHeaderToken }, [], ch :: rest, .error⟩

/-! ## `s_header_value` -/

/-- Why the loop over a value stops. -/
inductive ValueEnd
  | cr | lf | more
  | bad (e : Errno)
  | abort

structure ValueRun where
  parser : Parser
  passed : Bytes
  p : Bytes
  out : ValueEnd

def valueLoop : Parser → Bytes → ValueRun
  | c, [] => ⟨c, [], [], .more⟩
  | c, ch :: rest =>
    if ch = CR then ⟨c, [], ch :: rest, .cr⟩
    else if ch = LF then ⟨c, [], ch :: rest, .lf⟩
    else if !isHeaderChar ch then ⟨c, [], ch :: rest, .bad .invalidHeaderToken⟩
    else
      match valueChar c ch with
      | .abort => ⟨c, [], ch :: rest, .abort⟩
      | .bad e => ⟨c, [], ch :: rest, .bad e⟩
      | .ok c =>
        let r := valueLoop c rest
        { r with passed := ch :: r.passed }

def sHeaderValue (c : Parser) (p : Bytes) : Turn :=
  let r := valueLoop c p
  match r.out with
  | .abort => ⟨c, [], p, .abort⟩
  | .bad e => ⟨{ r.parser with httpErrno := e }, [], r.p, .error⟩
  | .cr =>
    let c := { r.parser with state := .headerAlmostDone }
    let ops := [.pass r.passed, c.callbackData .headerValue]
    let c := c.count r.passed.length
    if c.overflows then ⟨{ c with httpErrno := .headerOverflow }, ops, r.p, .error⟩
    else ⟨c, ops ++ [.pass [CR]], r.p.tail, .next⟩
  | .lf =>
    let c := Parser.count { r.parser with state := .headerAlmostDone } r.passed.length
    if c.overflows then ⟨{ c with httpErrno := .headerOverflow }, [], r.p, .error⟩
    else
      (sHeaderAlmostDone c LF [.pass r.passed, c.callbackDataNoadvance .headerValue]).turn LF
        r.p.tail
  | .more =>
    let c := r.parser.count (r.passed.length - 1)
    if c.overflows then ⟨{ c with httpErrno := .headerOverflow }, [], p.drop (p.length - 1), .error⟩
    else ⟨c, [.pass r.passed], [], .next⟩

/-! ## Bodies -/

/-- `s_body_identity`.  At the last byte of the body the cursor of the operations
already stands behind it, so `p` is one back. -/
def sBodyIdentity (c : Parser) (p : Bytes) : Turn :=
  if c.contentLength = 0 ∨ c.contentLength = ULLONG_MAX then ⟨c, [], p, .abort⟩
  else
    let toRead := min c.contentLength p.length
    let ops := [c.mark .body, .pass (p.take toRead)]
    let c := { c with contentLength := c.contentLength - toRead }
    if c.contentLength = 0 then
      let d := sMessageDone { c with state := .messageDone }
      ⟨d.1, ops ++ [.flush (.body, c.toHttpParser) (-1),
        .notify (c.toHttpParser, .messageComplete) 0], p.drop toRead, d.2⟩
    else ⟨c, ops, p.drop toRead, .next⟩

def sChunkData (c : Parser) (p : Bytes) : Turn :=
  if !c.flags.chunked ∨ c.contentLength = 0 ∨ c.contentLength = ULLONG_MAX then ⟨c, [], p, .abort⟩
  else
    let toRead := min c.contentLength p.length
    let ops := [c.mark .body, .pass (p.take toRead)]
    let c := { c with contentLength := c.contentLength - toRead }
    ⟨if c.contentLength = 0 then { c with state := .chunkDataAlmostDone } else c, ops,
      p.drop toRead, .next⟩

/-! ## The `switch` -/

/-- The states without a loop of their own. -/
def move (c : Parser) (ch : UInt8) : Move :=
  match c.state with
  | .startReq => sStartReq c ch
  | .reqMethod => sReqMethod c ch
  | .reqUrl s => sReqUrl c s ch
  | .reqHttpStart => sReqHttpStart c ch
  | .reqHttpH => sReqHttpLetter c .reqHttpHT ch
  | .reqHttpHT => sReqHttpLetter c .reqHttpHTT ch
  | .reqHttpHTT => sReqHttpLetter c .reqHttpHTTP ch
  | .reqHttpI => sReqHttpLetter c .reqHttpIC ch
  | .reqHttpIC => sReqHttpLetter c .reqHttpHTTP ch -- treat "ICE" as "HTTP"
  | .reqHttpHTTP => sReqHttpLetter c .reqHttpMajor ch
  | .reqHttpMajor => sReqHttpMajor c ch
  | .reqHttpDot => sReqHttpDot c ch
  | .reqHttpMinor => sReqHttpMinor c ch
  | .reqHttpEnd => sReqHttpEnd c ch
  | .reqLineAlmostDone => sReqLineAlmostDone c ch
  | .headerFieldStart => sHeaderFieldStart c ch []
  | .headerValueDiscardWs => sHeaderValueDiscardWs c ch
  | .headerValueDiscardWsAlmostDone => Parser.go { c with state := .headerValueDiscardLws } ch []
  | .headerValueDiscardLws => sHeaderValueDiscardLws c ch
  | .headerValueStart => sHeaderValueStart c ch
  | .headerValueLws => sHeaderValueLws c ch
  | .headerAlmostDone => sHeaderAlmostDone c ch []
  | .chunkSizeStart => sChunkSizeStart c ch
  | .chunkSize => sChunkSize c ch
  | .chunkParameters => sChunkParameters c ch
  | .chunkSizeAlmostDone => sChunkSizeAlmostDone c ch
  | .headersAlmostDone => sHeadersAlmostDone c ch []
  | .headersDone => sHeadersDone c ch []
  | .chunkDataAlmostDone => sChunkDataAlmostDone c ch
  | .chunkDataDone => sChunkDataDone c ch
  | .messageDone => ⟨(sMessageDone c).1, [c.messageComplete, .pass [ch]], (sMessageDone c).2⟩
  | .headerField | .headerValue | .bodyIdentity | .chunkData => c.abort

def turn (c : Parser) (ch : UInt8) (rest : Bytes) : Turn :=
  match c.state with
  | .headerField => sHeaderField c (ch :: rest)
  | .headerValue => sHeaderValue c (ch :: rest)
  | .bodyIdentity => sBodyIdentity c (ch :: rest)
  | .chunkData => sChunkData c (ch :: rest)
  | _ => (move c ch).turn ch rest

/-- The `COUNT_HEADER_SIZE(1)` in front of the `switch`. -/
def countByte (c : Parser) : Parser := if c.state.parsingHeader then c.count 1 else c

def tooLong (c : Parser) : Bool := c.state.parsingHeader && (countByte c).overflows

/-- `for (p = data; p != data + len; p++)`.  Every pass reads a byte, so the length
of the buffer bounds their number. -/
def loop : Nat → Parser → Bytes → Turn
  | _, c, [] => ⟨c, [], [], .next⟩
  | 0, c, p => ⟨c, [], p, .abort⟩
  | fuel + 1, c, ch :: rest =>
    if tooLong c then ⟨{ countByte c with httpErrno := .headerOverflow }, [], ch :: rest, .error⟩
    else
      let t := turn (countByte c) ch rest
      if t.out = .next then
        let r := loop fuel t.parser t.p
        { r with ops := t.ops ++ r.ops }
      else t

/-! ## `http_parser_execute` -/

/-- The mark that is set again at the start of a buffer. -/
def State.entryMark : State → Option DataKind
  | .headerField => some .headerField
  | .headerValue => some .headerValue
  | .reqUrl .dead | .reqUrl .spacesBeforeUrl => none
  | .reqUrl _ => some .url
  | _ => none

def entryOps (c : Parser) : List Op :=
  match c.state.entryMark with
  | none => []
  | some k => [c.mark k]

/-- The callbacks for marks that are left over at the end of the buffer. -/
def leftoverOps (c : Parser) : List Op :=
  [c.callbackDataNoadvance .headerField, c.callbackDataNoadvance .headerValue,
    c.callbackDataNoadvance .url, c.callbackDataNoadvance .body]

/-- The channel of a callback.  `on_url` does not look at the parser. -/
abbrev Channel : Type := DataKind × Option HttpParser

def channel (x : DataKind × HttpParser) : Channel := (x.1, if x.1 = .url then none else some x.2)

def toCall (t : Sent (DataKind × HttpParser) (HttpParser × Notice) UInt8) : HttpCall :=
  match t.output with
  | .data x s => ⟨x.2, x.1.event s, t.pos⟩
  | .notice (p, e) => ⟨p, e.event, t.pos⟩

/-- The operations on one buffer, from no mark. -/
def runBuffer (ops : List Op) :
    List (Sent (DataKind × HttpParser) (HttpParser × Notice) UInt8) × Marks DataKind UInt8 :=
  MarkOp.runOps channel Prod.fst ops {}

/-- At most one mark is set, as is asserted at the end of the buffer. -/
def oneMark (m : Marks DataKind UInt8) : Bool :=
  ([DataKind.headerField, .headerValue, .url, .body].filter fun k => (m.data k).isSome).length ≤ 1

structure Execution where
  calls : List HttpCall
  parser : Parser
  nparsed : Nat

/-- `none` is a failed assertion. -/
def httpParserExecute (c : Parser) (data : Bytes) : Option Execution :=
  if c.httpErrno ≠ .ok then some ⟨[], c, 0⟩
  else if data = [] then
    if c.state = .reqUrl .dead ∨ c.state = .startReq then some ⟨[], c, 0⟩
    else some ⟨[], { c with httpErrno := .invalidEofState }, 1⟩
  else
    let t := loop data.length c data
    let ops := entryOps c ++ t.ops
    match t.out with
    | .abort => none
    | .next =>
      if oneMark (runBuffer ops).2 then
        some ⟨(runBuffer (ops ++ leftoverOps t.parser)).1.map toCall, t.parser, data.length⟩
      else none
    | .error | .ret => some ⟨(runBuffer ops).1.map toCall, t.parser, data.length - t.p.length⟩

end Ehttp.Http
