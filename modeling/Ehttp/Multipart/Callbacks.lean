import Ehttp.Multipart.Parser
import Ehttp.Request

/-!
# The multipart callbacks of `sim_parser.cpp`

They reach the request only through `get_body()`, so they are functions of the
`RequestBody`.

* `parseMultipartBody_stopped`: a body the parser does not accept is refused;
* `parseMultipartBody_log`: otherwise the callbacks on the parser's log decide.
-/

namespace Ehttp

open Lib

/-- `CHECK_ERR` returns the condition, which is 1 for `items->empty()`. -/
def ssOnMultipartName (s : Bytes) (b : RequestBody) : Exit × RequestBody :=
  let items :=
    if s = bytes "Content-Disposition" then
      b.fileItems ++ [FileItem.setParseState {} PARSE_MULTI_DISPOSITION]
    else b.fileItems
  if s = bytes "Content-Type" then
    if items.isEmpty then (.ret 1, { b with fileItems := items })
    else (.ret 0, { b with
      fileItems := updateBack (fun item => item.setParseState PARSE_MULTI_CONTENT_TYPE) items })
  else (.ret 0, { b with fileItems := items })

/-- The return code and `output`.  34 is the double quote and 61 `'='`. -/
def ssParseDispositionValue (input : Bytes) : Exit × Bytes :=
  match ssSplitStr input 61 with
  | [_, output] =>
    if output = [34, 34] then (.ret 0, [])
    else
      match substr output 1 (sizeSub output.length 2) with -- remove ""
      | none => (.thrown, output)
      | some output => if output.isEmpty then (.ret (-1), output) else (.ret 0, output)
  | _ => (.ret (-1), [])

/-- `item` is written through a reference, also when the call fails later.
59 is `';'`. -/
def ssParseMultiDisposition (input : Bytes) (item : FileItem) : Exit × FileItem :=
  match ssSplitStr input 59 with
  | _ :: token :: posTokens =>
    let (ret, fieldname) := ssParseDispositionValue token
    if ret ≠ .ret 0 then (ret, item)
    else
      let item := item.setName fieldname
      match posTokens with
      | [] => (.ret 0, item)
      | token :: _ =>
        let item := item.setIsFile
        let (ret, filename) := ssParseDispositionValue token
        if ret ≠ .ret 0 then (ret, item) else (.ret 0, item.setFilename filename)
  | _ => (.ret (-1), item)

/-- The callback on the last item: the two tests are made one after the other. -/
def FileItem.onValue (s : Bytes) (item : FileItem) : Exit × FileItem :=
  let (ret, item) :=
    if item.getParseState = PARSE_MULTI_DISPOSITION then ssParseMultiDisposition s item
    else (.ret 0, item)
  if ret ≠ .ret 0 then (ret, item)
  else if item.getParseState = PARSE_MULTI_CONTENT_TYPE then (.ret 0, item.setContentType s)
  else (.ret 0, item)

def ssOnMultipartValue (s : Bytes) (b : RequestBody) : Exit × RequestBody :=
  match b.fileItems.getLast? with
  | none => (.ret (-1), b)
  | some item =>
    ((item.onValue s).1,
      { b with fileItems := updateBack (fun item => (item.onValue s).2) b.fileItems })

def ssOnMultipartData (s : Bytes) (b : RequestBody) : Exit × RequestBody :=
  if s.length = 0 then (.ret 0, b)
  else if b.fileItems.isEmpty then (.ret 1, b)
  else (.ret 0, { b with fileItems := updateBack (fun item => item.appendData s) b.fileItems })

def ssOnMultipartDataOver (b : RequestBody) : Exit × RequestBody :=
  if b.fileItems.isEmpty then (.ret 1, b)
  else (.ret 0, { b with
    fileItems := updateBack (fun item => item.setParseState PARSE_MULTI_OVER) b.fileItems })

def ssOnMultipartBodyEnd (b : RequestBody) : Exit × RequestBody :=
  (.ret b.parseMultiParams.1, b.parseMultiParams.2)

/-- `mp_settings`: the callbacks that are not set are `NULL` and not called. -/
def multipartCallback : MultipartEvent → RequestBody → Exit × RequestBody
  | .partDataBegin, b => (.ret 0, b)
  | .headerField s, b => ssOnMultipartName s b
  | .headerValue s, b => ssOnMultipartValue s b
  | .headersComplete, b => (.ret 0, b)
  | .partData s, b => ssOnMultipartData s b
  | .partDataEnd, b => ssOnMultipartDataOver b
  | .bodyEnd, b => ssOnMultipartBodyEnd b

/-- No callback reads the text of the body. -/
theorem multipartCallback_rawString (e : MultipartEvent) (b : RequestBody) (raw : Bytes) :
    multipartCallback e { b with rawString := raw } =
      ((multipartCallback e b).1, { (multipartCallback e b).2 with rawString := raw }) := by
  cases e with
  | partDataBegin => rfl
  | headersComplete => rfl
  | bodyEnd => rfl
  | headerField s =>
    simp only [multipartCallback, ssOnMultipartName]
    split <;> split <;> (try split) <;> rfl
  | headerValue s =>
    simp only [multipartCallback, ssOnMultipartValue]
    split <;> rfl
  | partData s =>
    simp only [multipartCallback, ssOnMultipartData]
    split
    · rfl
    · split <;> rfl
  | partDataEnd =>
    simp only [multipartCallback, ssOnMultipartDataOver]
    split <;> rfl

/-- `"--" + boundary_tokens[1]`, when the header has the shape
`…;…=…` that `ss_parse_multipart_data` takes apart. -/
def multipartBoundary (ct : Bytes) : Option Bytes :=
  match ssSplitStr ct 59 with
  | [_, token] =>
    match ssSplitStr token 61 with
    | [_, boundary] => some (bytes "--" ++ boundary)
    | _ => none
  | _ => none

/-- `ss_parse_multipart_data` once the Content-Type is read.  When no boundary is
found the source returns `ret`, which is 0 by then. -/
def parseMultipartBody (ct : Bytes) (b : RequestBody) : Exit × RequestBody :=
  match multipartBoundary ct with
  | none => (.ret 0, b)
  | some boundary =>
    let body := b.rawString
    match multipartParserExecute multipartCallback (multipartParserInit boundary) body 0 b with
    | (.thrown, b) => (.thrown, b)
    | (.ret parsed, b) => if parsed ≠ body.length then (.ret (-1), b) else (.ret 0, b)

def ssParseMultipartData (req : Request) : Exit × Request :=
  if req.body.rawString.isEmpty then (.ret 0, req)
  else
    let (ct, req) := req.getHeader (bytes "Content-Type")
    let (ret, body) := parseMultipartBody ct req.body
    (ret, { req with body })

/-! ## The return code, by way of the log -/

/-- What `ss_parse_multipart_data` returns, by where the callbacks of the log
stopped. -/
def parseRet : Option (MultipartEvent × Exit) → Exit
  | none => .ret 0
  | some (_, .ret _) => .ret (-1)
  | some (_, .thrown) => .thrown

theorem parseRet_zero (stop : Option (MultipartEvent × Exit)) :
    parseRet stop = .ret 0 ↔ stop = none := by
  rcases stop with _ | ⟨e, x⟩
  · simp [parseRet]
  · cases x <;> simp [parseRet]

/-- What the multipart parser makes of the body when it runs with `boundary`. -/
def parsePartsWith (boundary : Bytes) (b : RequestBody) : Exit × RequestBody :=
  let body := b.rawString
  match multipartParserExecute multipartCallback (multipartParserInit boundary) body 0 b with
  | (.thrown, b) => (.thrown, b)
  | (.ret parsed, b) => if parsed ≠ body.length then (.ret (-1), b) else (.ret 0, b)

theorem parseMultipartBody_eq (ct : Bytes) (b : RequestBody) :
    parseMultipartBody ct b =
      match multipartBoundary ct with
      | none => (.ret 0, b)
      | some boundary => parsePartsWith boundary b := rfl

section Spec

variable (ct boundary : Bytes) (b : RequestBody)

theorem parsePartsWith_stopped (hb : b.rawString ≠ [])
    (hlog : (multipartParserInit boundary).log b.rawString = none) :
    (parsePartsWith boundary b).1 ≠ .ret 0 := by
  obtain ⟨c, buf, hcons⟩ := List.exists_cons_of_ne_nil hb
  rw [hcons] at hlog
  have hstop := execute_stopped multipartCallback _ c buf 0 b hlog
  rw [← hcons, Nat.zero_add] at hstop
  simp only [parsePartsWith]
  cases hx : multipartParserExecute multipartCallback (multipartParserInit boundary)
      b.rawString 0 b with
  | mk x b' =>
    rw [hx] at hstop
    cases x with
    | thrown => simp
    | ret parsed =>
      have hp : parsed ≠ b.rawString.length := fun e => hstop (by rw [e])
      simp [hp]

theorem parsePartsWith_log (hb : b.rawString ≠ []) (es : List MultipartEvent)
    (p : MultipartParser) (hlog : (multipartParserInit boundary).log b.rawString = some (es, p)) :
    parsePartsWith boundary b =
      (parseRet (runAll multipartCallback es b).1, (runAll multipartCallback es b).2) := by
  obtain ⟨c, buf, hcons⟩ := List.exists_cons_of_ne_nil hb
  rw [hcons] at hlog
  obtain ⟨hbody, hret⟩ := execute_log multipartCallback _ c buf 0 b es p hlog
  rw [← hcons, Nat.zero_add] at hret
  rw [← hcons] at hbody
  simp only [parsePartsWith]
  cases hx : multipartParserExecute multipartCallback (multipartParserInit boundary)
      b.rawString 0 b with
  | mk x b' =>
    rw [hx] at hret hbody
    rw [← hbody]
    cases hs : (runAll multipartCallback es b).1 with
    | none =>
      rw [hs] at hret
      simp only [Consumes] at hret
      simp [hret, parseRet]
    | some r =>
      obtain ⟨e, y⟩ := r
      rw [hs] at hret
      cases y with
      | thrown =>
        simp only [Consumes] at hret
        simp [hret, parseRet]
      | ret code =>
        obtain ⟨j, hj, hret⟩ := hret
        have hp : (j : Int) ≠ b.rawString.length := by omega
        simp only at hret
        simp [hret, parseRet, hp]

/-- A body at which the parser stops is refused. -/
theorem parseMultipartBody_stopped (hb : b.rawString ≠ [])
    (h : multipartBoundary ct = some boundary)
    (hlog : (multipartParserInit boundary).log b.rawString = none) :
    (parseMultipartBody ct b).1 ≠ .ret 0 := by
  rw [parseMultipartBody_eq, h]
  exact parsePartsWith_stopped boundary b hb hlog

/-- Otherwise the callbacks of the log decide. -/
theorem parseMultipartBody_log (hb : b.rawString ≠ [])
    (h : multipartBoundary ct = some boundary) (es : List MultipartEvent) (p : MultipartParser)
    (hlog : (multipartParserInit boundary).log b.rawString = some (es, p)) :
    parseMultipartBody ct b =
      (parseRet (runAll multipartCallback es b).1, (runAll multipartCallback es b).2) := by
  rw [parseMultipartBody_eq, h]
  exact parsePartsWith_log boundary b hb es p hlog

end Spec

end Ehttp
