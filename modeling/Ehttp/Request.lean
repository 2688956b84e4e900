import Ehttp.Lib.Containers
import Ehttp.StringUtils

/-!
# The request object of `sim_parser.h`

`RequestParam`, `RequestLine`, `FileItem`, `RequestBody` and `Request` with the
members the parser callbacks and the server read and write.  `_client_ip` is
left out (only the access log reads it), and so is `http_parser _parser`: the
parser is the trace of callbacks it makes (`Ehttp.Parse.Driver`).
-/

namespace Ehttp

open Lib

/-! ## Constants -/

def MAX_REQ_SIZE : Nat := 10485760

/-- `PARSE_REQ_LINE` .. `PARSE_REQ_HEAD_OVER`. -/
inductive ParsePart
  | line | head | body | over | headOver
  deriving DecidableEq, Repr

def PARSE_MULTI_DISPOSITION : Int := 0
def PARSE_MULTI_CONTENT_TYPE : Int := 1
def PARSE_MULTI_OVER : Int := 3

def NEED_MORE_STATUS : Int := 1
def PARSE_LEN_REQUIRED : Int := 2
def PARSE_MULTIPART_ERR : Int := -3

/-! ## `RequestParam` -/

structure RequestParam where
  params : StdMultimap Bytes Bytes := []
  deriving DecidableEq, Repr

namespace RequestParam

def getParam (p : RequestParam) (name : Bytes) : Bytes := (p.params.find name).getD []

def getParams (p : RequestParam) (name : Bytes) : List Bytes := p.params.equalRange name

def addParamPair (p : RequestParam) (key value : Bytes) : RequestParam :=
  { p with params := p.params.insert key value }

/-- The inner loop of `parse_query_url`: two `getline`s on `'='` a round. -/
def keyValueLoop : Nat → StringStream UInt8 → RequestParam → RequestParam
  | 0, _, p => p
  | fuel + 1, keyValueSs, p =>
    if keyValueSs.good then
      let (key, keyValueSs) := keyValueSs.getline 61
      let (value, keyValueSs) := keyValueSs.getline 61
      keyValueLoop fuel keyValueSs (p.addParamPair key value)
    else p

/-- The outer loop of `parse_query_url`: one segment between `'&'`s a round. -/
def queryLoop : Nat → StringStream UInt8 → RequestParam → RequestParam
  | 0, _, p => p
  | fuel + 1, querySs, p =>
    if querySs.good then
      let (keyValue, querySs) := querySs.getline 38
      queryLoop fuel querySs
        (keyValueLoop (keyValue.length + 1) (StringStream.ofBuf keyValue) p)
    else p

/-- Every round of either loop consumes a separator or meets the end of the
text, so the length plus one bounds the rounds. -/
def parseQueryUrl (p : RequestParam) (queryUrl : Bytes) : Int × RequestParam :=
  (0, queryLoop (queryUrl.length + 1) (StringStream.ofBuf queryUrl) p)

end RequestParam

/-! ## `RequestLine` -/

structure RequestLine where
  param : RequestParam := {}
  method : Bytes := []
  requestUrl : Bytes := []
  httpVersion : Bytes := []
  deriving DecidableEq, Repr

namespace RequestLine

def setMethod (l : RequestLine) (m : Bytes) : RequestLine := { l with method := m }

def appendRequestUrl (l : RequestLine) (pUrl : Bytes) : RequestLine :=
  { l with requestUrl := l.requestUrl ++ pUrl }

def setHttpVersion (l : RequestLine) (v : Bytes) : RequestLine := { l with httpVersion := v }

def getRequestUri (l : RequestLine) : Bytes := ((StringStream.ofBuf l.requestUrl).getline 63).1

def parseRequestUrlParams (l : RequestLine) : Int × RequestLine :=
  let ss := ((StringStream.ofBuf l.requestUrl).getline 63).2
  if ss.good then
    let queryUrl := (ss.getline 63).1
    (0, { l with param := (l.param.parseQueryUrl queryUrl).2 })
  else (0, l)

end RequestLine

/-! ## `FileItem` -/

/-- `_parse_state` is a `bool` in the source, so every nonzero state is stored
as `true`. -/
structure FileItem where
  isFile : Bool := false
  parseState : Bool := PARSE_MULTI_DISPOSITION ≠ 0
  contentType : Bytes := []
  name : Bytes := []
  filename : Bytes := []
  data : Bytes := []
  deriving DecidableEq, Repr

namespace FileItem

/-- The `bool` promoted to `int`, as in a comparison with `PARSE_MULTI_*`. -/
def getParseState (i : FileItem) : Int := if i.parseState then 1 else 0

def setParseState (i : FileItem) (state : Int) : FileItem := { i with parseState := state ≠ 0 }

def setIsFile (i : FileItem) : FileItem := { i with isFile := true }

def setName (i : FileItem) (name : Bytes) : FileItem := { i with name }

def setFilename (i : FileItem) (filename : Bytes) : FileItem := { i with filename }

def appendData (i : FileItem) (c : Bytes) : FileItem := { i with data := i.data ++ c }

def setContentType (i : FileItem) (c : Bytes) : FileItem := { i with contentType := c }

end FileItem

/-! ## `RequestBody` -/

structure RequestBody where
  rawString : Bytes := []
  reqParams : RequestParam := {}
  fileItems : List FileItem := []
  deriving DecidableEq, Repr

namespace RequestBody

def getParam (b : RequestBody) (name : Bytes) : Bytes := b.reqParams.getParam name

def getParams (b : RequestBody) (name : Bytes) : List Bytes := b.reqParams.getParams name

def parseMultiParams (b : RequestBody) : Int × RequestBody :=
  (0, { b with reqParams :=
    b.fileItems.foldl (fun p item => p.addParamPair item.name item.data) b.reqParams })

end RequestBody

/-! ## `Request` -/

structure Request where
  lastWasValue : Bool := true
  headerFields : List Bytes := []
  headerValues : List Bytes := []
  parsePart : ParsePart := .line
  parseErr : Int := 0
  line : RequestLine := {}
  headers : StdMap Bytes Bytes := []
  totalReqSize : Nat := 0
  body : RequestBody := {}
  deriving DecidableEq, Repr

namespace Request

def getMethod (r : Request) : Bytes := r.line.method

/-- `add_header` lowers `name` in place, so the caller gets it back. -/
def addHeader (r : Request) (name value : Bytes) : Bytes × Request :=
  let name := ssStrTolower name
  (name, { r with headers := r.headers.insert bytesLt name value })

/-- `_headers[name]`: a missing entry is created empty. -/
def getHeader (r : Request) (name : Bytes) : Bytes × Request :=
  let name := ssStrTolower name
  match r.headers.find name with
  | some value => (value, r)
  | none => ([], { r with headers := r.headers.insert bytesLt name [] })

def getParam (r : Request) (name : Bytes) : Bytes :=
  if r.getMethod = bytes "GET" then r.line.param.getParam name
  else if r.getMethod = bytes "POST" then r.body.getParam name
  else []

/-- Both tests are made, in this order, and append to `params`. -/
def getParams (r : Request) (name : Bytes) : List Bytes :=
  (if r.getMethod = bytes "GET" then r.line.param.getParams name else []) ++
  (if r.getMethod = bytes "POST" then r.body.getParams name else [])

/-- What `get_header(name)` returns. -/
def header (r : Request) (name : Bytes) : Bytes := (r.getHeader name).1

theorem header_eq (r : Request) (name : Bytes) :
    r.header name = (r.headers.find (ssStrTolower name)).getD [] := by
  unfold header getHeader
  cases h : r.headers.find (ssStrTolower name) <;> simp [h]

/-- `get_header` touches the header map only. -/
theorem getHeader_frame (r : Request) (name : Bytes) :
    (r.getHeader name).2 = { r with headers := (r.getHeader name).2.headers } := by
  unfold getHeader
  cases h : r.headers.find (ssStrTolower name) <;> simp only [h]

/-- Reading a header does not change what any header reads as. -/
theorem header_getHeader (r : Request) (n m : Bytes) : (r.getHeader m).2.header n = r.header n := by
  rw [header_eq, header_eq]
  cases h : r.headers.find (ssStrTolower m) with
  | some v => simp only [getHeader, h]
  | none =>
    simp only [getHeader, h, StdMap.find_insert]
    by_cases e : ssStrTolower m = ssStrTolower n
    · rw [if_pos e, ← e, h]; rfl
    · rw [if_neg e]

/-- A header read once is there the second time. -/
theorem getHeader_getHeader (r : Request) (n : Bytes) :
    ((r.getHeader n).2.getHeader n).2 = (r.getHeader n).2 := by
  cases h : r.headers.find (ssStrTolower n) with
  | some v => simp only [getHeader, h]
  | none =>
    have e : StdMap.find (StdMap.insert bytesLt (ssStrTolower n) [] r.headers) (ssStrTolower n) =
        some ([] : Bytes) := by
      rw [StdMap.find_insert, if_pos rfl]
    simp only [getHeader, h, e]

end Request

end Ehttp
