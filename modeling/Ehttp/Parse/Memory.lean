import Ehttp.Lib.Slices
import Ehttp.Parse.Outcome

/-!
# The memory of a request

* `stored_httpCall`: no callback stores more than the data it is given;
* `Fed.counted`, `Fed.stored_le`: what the requests of a connection hold, call
  after call;
* `memory_bounded`: the counter is the number of bytes fed, the guard refuses
  exactly past `MAX_REQ_SIZE`, and the bytes fed bound what is stored.
-/

namespace Ehttp

open Lib

/-- The buffer of `on_readable`. -/
def SS_READ_BUFFER_SIZE : Nat := 4096

/-! ## The returns of `parse_request` -/

/-- One exit for each `return`, and the exception. -/
inductive ParseExit
  | tooBig | thrown | notParsed | refused (parseErr : Int) | needMore | done
  deriving DecidableEq, Repr

def ParseExit.ret : ParseExit → Exit
  | .tooBig => .ret (-1)
  | .thrown => .thrown
  | .notParsed => .ret (-1)
  | .refused parseErr => .ret parseErr
  | .needMore => .ret NEED_MORE_STATUS
  | .done => .ret 0

/-- `parse_request` with the `return` it takes. -/
def parseRequestExit (seg : Segment) (req : Request) : ParseExit × Request :=
  let req := { req with totalReqSize := req.totalReqSize + seg.readSize }
  if req.totalReqSize > MAX_REQ_SIZE then (.tooBig, req)
  else
    match httpParserExecute seg req with
    | (.thrown, req) => (.thrown, req)
    | (.ret nparsed, req) =>
      if nparsed ≠ seg.readSize then (.notParsed, req)
      else if req.parseErr ≠ 0 then (.refused req.parseErr, req)
      else if req.parsePart ≠ .over then (.needMore, req)
      else (.done, req)

/-- The `return` behind the size guard, by what `http_parser_execute` returns. -/
def parsedExit (readSize : Nat) (x : Exit) (r : Request) : ParseExit :=
  if x = .thrown then .thrown
  else if x ≠ .ret readSize then .notParsed
  else if r.parseErr ≠ 0 then .refused r.parseErr
  else if r.parsePart ≠ .over then .needMore else .done

theorem parsedExit_ne (readSize : Nat) (x : Exit) (r : Request) :
    parsedExit readSize x r ≠ .tooBig := by
  unfold parsedExit
  split
  · simp
  · split
    · simp
    · split
      · simp
      · split <;> simp

theorem parseRequestExit_eq (seg : Segment) (r : Request) (x : Exit) (r' : Request)
    (hsize : r.totalReqSize + seg.readSize ≤ MAX_REQ_SIZE)
    (h : httpParserExecute seg (r.withSize (r.totalReqSize + seg.readSize)) = (x, r')) :
    parseRequestExit seg r = (parsedExit seg.readSize x r', r') := by
  have hnot : ¬ MAX_REQ_SIZE < r.totalReqSize + seg.readSize := by omega
  simp only [Request.withSize] at h
  simp only [parseRequestExit, gt_iff_lt, hnot, ↓reduceIte, h]
  cases x with
  | thrown => rfl
  | ret nparsed =>
    simp only [parsedExit, reduceCtorEq, ↓reduceIte, ne_eq, Exit.ret.injEq]
    split
    · rfl
    · split
      · rfl
      · split <;> rfl

theorem parseRequest_eq_exit (seg : Segment) (r : Request) :
    parseRequest seg r = ((parseRequestExit seg r).1.ret, (parseRequestExit seg r).2) := by
  rcases Nat.lt_or_ge MAX_REQ_SIZE (r.totalReqSize + seg.readSize) with hbig | hsize
  · simp only [parseRequest, parseRequestExit, gt_iff_lt, hbig, ↓reduceIte, ParseExit.ret]
  · obtain ⟨x, r', h⟩ : ∃ x r', httpParserExecute seg
        (r.withSize (r.totalReqSize + seg.readSize)) = (x, r') := ⟨_, _, rfl⟩
    have hnot : ¬ MAX_REQ_SIZE < r.totalReqSize + seg.readSize := by omega
    rw [parseRequestExit_eq seg r x r' hsize h]
    simp only [Request.withSize] at h
    simp only [parseRequest, gt_iff_lt, hnot, ↓reduceIte, h]
    cases x with
    | thrown => rfl
    | ret nparsed =>
      simp only [parsedExit, reduceCtorEq, ↓reduceIte, ne_eq, Exit.ret.injEq]
      split
      · rfl
      · split
        · rfl
        · split <;> rfl

/-- Only the guard takes the first `return`. -/
theorem tooBig_iff (seg : Segment) (r : Request) :
    (parseRequestExit seg r).1 = .tooBig ↔ MAX_REQ_SIZE < r.totalReqSize + seg.readSize := by
  rcases Nat.lt_or_ge MAX_REQ_SIZE (r.totalReqSize + seg.readSize) with hbig | hsize
  · simp only [parseRequestExit, gt_iff_lt, hbig, ↓reduceIte]
  · rw [parseRequestExit_eq seg r _ _ hsize rfl]
    exact iff_of_false (parsedExit_ne _ _ _) (by omega)

theorem httpParserExecute_request (seg : Segment) (r : Request) :
    (httpParserExecute seg r).2 = (runAll httpCall seg.calls r).2 := by
  unfold httpParserExecute
  split <;> simp_all

/-- The request behind the call: its callbacks have run, unless the guard
refused it. -/
theorem parseRequestExit_request (seg : Segment) (r : Request) :
    (parseRequestExit seg r).2 =
      if MAX_REQ_SIZE < r.totalReqSize + seg.readSize then
        r.withSize (r.totalReqSize + seg.readSize)
      else (runAll httpCall seg.calls r).2.withSize (r.totalReqSize + seg.readSize) := by
  rcases Nat.lt_or_ge MAX_REQ_SIZE (r.totalReqSize + seg.readSize) with hbig | hsize
  · simp only [parseRequestExit, gt_iff_lt, hbig, ↓reduceIte]
    rfl
  · have hnot : ¬ MAX_REQ_SIZE < r.totalReqSize + seg.readSize := by omega
    have hreq := httpParserExecute_request seg (r.withSize (r.totalReqSize + seg.readSize))
    obtain ⟨x, r', h⟩ : ∃ x r', httpParserExecute seg
        (r.withSize (r.totalReqSize + seg.readSize)) = (x, r') := ⟨_, _, rfl⟩
    rw [h, runAll_withSize] at hreq
    rw [parseRequestExit_eq seg r x r' hsize h, if_neg hnot]
    exact hreq

/-! ## What a request stores -/

/-- The data a callback is given. -/
def HttpEvent.data? : HttpEvent → Option Bytes
  | .url s => some s
  | .headerField s => some s
  | .headerValue s => some s
  | .headersComplete => none
  | .body s => some s
  | .messageComplete => none

/-- The bytes given to the data callbacks. -/
def dataSize (calls : List HttpCall) : Nat :=
  ((calls.filterMap fun c => c.event.data?).flatten).length

theorem dataSize_cons (c : HttpCall) (calls : List HttpCall) :
    dataSize (c :: calls) = (c.event.data?.getD []).length + dataSize calls := by
  cases h : c.event.data? <;> simp [dataSize, h]

/-- URL, header names, header values and raw body. -/
def Request.stored (r : Request) : Nat :=
  r.line.requestUrl.length + r.headerFields.flatten.length + r.headerValues.flatten.length +
    r.body.rawString.length

@[simp] theorem stored_withSize (n : Nat) (r : Request) : (r.withSize n).stored = r.stored := rfl

theorem stored_getHeader (r : Request) (name : Bytes) : (r.getHeader name).2.stored = r.stored := by
  rw [Request.getHeader_frame]
  rfl

theorem length_flatten_updateBack (s : Bytes) (l : List Bytes) :
    ((updateBack (fun x => x ++ s) l).flatten).length ≤ l.flatten.length + s.length := by
  cases List.eq_nil_or_concat l with
  | inl h => simp [h, updateBack]
  | inr h =>
    obtain ⟨front, x, rfl⟩ := h
    rw [List.concat_eq_append, updateBack_snoc]
    simp [Nat.add_assoc]

theorem stored_pushHeaderField (s : Bytes) (r : Request) :
    (pushHeaderField s r).stored ≤ r.stored + s.length := by
  have hback := length_flatten_updateBack s r.headerFields
  cases h : r.lastWasValue <;>
    simp only [pushHeaderField, h, Request.stored, Bool.false_eq_true, ↓reduceIte,
      List.flatten_append, List.length_append, List.flatten_cons, List.flatten_nil, List.length_nil]
  · omega
  · omega

theorem requestUrl_recorded (p : HttpParser) (l : RequestLine) :
    (l.recorded p).requestUrl = l.requestUrl := by
  have hparams : ((l.setMethod (httpMethodStr p.method)).parseRequestUrlParams).2.requestUrl =
      l.requestUrl := by
    simp only [RequestLine.parseRequestUrlParams]
    split <;> rfl
  rw [← hparams]
  simp only [RequestLine.recorded]
  split <;> split <;> rfl

theorem stored_inHead (p : HttpParser) (r : Request) : (r.inHead p).stored = r.stored := by
  unfold Request.inHead
  split
  · simp only [Request.stored, requestUrl_recorded]
  · rfl

theorem stored_headerValue (s : Bytes) (r : Request) :
    (ssOnHeaderValue s r).2.stored ≤ r.stored + s.length := by
  have hback := length_flatten_updateBack s r.headerValues
  cases h : r.lastWasValue <;>
    simp only [ssOnHeaderValue, h, Request.stored, Bool.not_true, Bool.not_false,
      Bool.false_eq_true, ↓reduceIte, List.flatten_append, List.length_append, List.flatten_cons,
      List.flatten_nil, List.length_nil]
  · omega
  · omega

/-- Names are lowered in place. -/
theorem stored_headOver (r : Request) : r.headOver.stored = r.stored := by
  have hnames : (r.headerFields.map ssStrTolower).flatten.length = r.headerFields.flatten.length := by
    rw [List.length_flatten, List.length_flatten, List.map_map]
    exact congrArg List.sum (List.map_congr_left fun name _ => by simp [ssStrTolower])
  rw [Request.headOver, addHeaders_eq]
  simp only [Request.stored, hnames]

theorem stored_headersComplete (r : Request) : (ssOnHeadersComplete r).2.stored = r.stored := by
  by_cases hlen : r.headerFields.length = r.headerValues.length
  · have hget := stored_getHeader r.headOver (bytes "Content-Length")
    rw [stored_headOver] at hget
    rw [ssOnHeadersComplete_eq r hlen]
    split
    · simp only
      split
      · exact hget
      · exact hget
    · exact stored_headOver r
  · simp [ssOnHeadersComplete, hlen]

theorem rawString_parseFormBody (ct : Bytes) (b : RequestBody) :
    (parseFormBody ct b).rawString = b.rawString := by
  unfold parseFormBody
  split
  · split <;> rfl
  · rfl

/-- The callbacks on the parts write the items and the parameters only. -/
theorem rawString_multipartCallback (e : MultipartEvent) (b : RequestBody) :
    (multipartCallback e b).2.rawString = b.rawString :=
  congrArg (fun out => out.2.rawString) (multipartCallback_rawString e b b.rawString)

theorem rawString_parseMultipartBody (ct : Bytes) (b : RequestBody) :
    (parseMultipartBody ct b).2.rawString = b.rawString := by
  cases hb : multipartBoundary ct with
  | none => simp only [parseMultipartBody, hb]
  | some boundary =>
    have hrun := execute_frame multipartCallback (fun s => s.rawString = b.rawString)
      (fun e s h => (rawString_multipartCallback e s).trans h) (multipartParserInit boundary)
      b.rawString 0 b rfl
    simp only [parseMultipartBody, hb]
    split
    · rename_i h
      rwa [h] at hrun
    · rename_i h
      rw [h] at hrun
      split <;> exact hrun

theorem stored_messageComplete (r : Request) : (ssOnMessageComplete r).2.stored = r.stored := by
  have hbody : ∀ ct, (messageBody ct r.body).2.rawString = r.body.rawString := by
    intro ct
    simp only [messageBody]
    split
    · rw [rawString_parseMultipartBody, rawString_parseFormBody]
    · exact rawString_parseFormBody ct r.body
  have hlook : r.afterLookup.line = r.line ∧ r.afterLookup.headerFields = r.headerFields ∧
      r.afterLookup.headerValues = r.headerValues := by
    rw [Request.afterLookup, Request.getHeader_frame]
    exact ⟨rfl, rfl, rfl⟩
  rw [ssOnMessageComplete_eq]
  simp only [Request.stored, hbody, hlook]

/-- **No callback stores more than its data.** -/
theorem stored_httpCall (c : HttpCall) (r : Request) :
    (httpCall c r).2.stored ≤ r.stored + (c.event.data?.getD []).length := by
  unfold httpCall
  cases c.event with
  | url s =>
    simp only [httpCallback, ssOnUrl, RequestLine.appendRequestUrl, Request.stored,
      HttpEvent.data?, Option.getD_some, List.length_append]
    omega
  | headerField s =>
    have hpush := stored_pushHeaderField s (r.inHead c.parser)
    rw [stored_inHead] at hpush
    rwa [httpCallback, ssOnHeaderField_eq]
  | headerValue s => exact stored_headerValue s r
  | headersComplete => exact Nat.le_of_eq (stored_headersComplete r)
  | body s =>
    simp only [httpCallback, ssOnBody, Request.stored, HttpEvent.data?, Option.getD_some,
      List.length_append]
    omega
  | messageComplete => exact Nat.le_of_eq (stored_messageComplete r)

theorem stored_runAll (calls : List HttpCall) (r : Request) :
    (runAll httpCall calls r).2.stored ≤ r.stored + dataSize calls := by
  induction calls generalizing r with
  | nil => exact Nat.le_add_right _ _
  | cons c calls ih =>
    have hc := stored_httpCall c r
    rw [dataSize_cons]
    by_cases h : (httpCall c r).1 = .ret 0
    · rw [RunAll.runAll_cons_ok httpCall c calls r h]
      have hrest := ih (httpCall c r).2
      omega
    · rw [RunAll.runAll_cons_fail httpCall c calls r h]
      simp only
      omega

/-! ## What `on_readable` feeds -/

/-- The promise of `http_parser`: its data callbacks are given disjoint slices
of the bytes read. -/
def Segment.Sliced (seg : Segment) : Prop :=
  ∃ (buf : Bytes) (slices : List Slice), buf.length = seg.readSize ∧
    Slice.Apart buf.length slices ∧
    (seg.calls.filterMap fun c => c.event.data?) = slices.map fun s => s.cut buf

/-- A `recv` of `on_readable` that is neither an error nor the end. -/
structure Segment.Received (seg : Segment) : Prop where
  nonempty : 1 ≤ seg.readSize
  fits : seg.readSize ≤ SS_READ_BUFFER_SIZE
  sliced : seg.Sliced

theorem Segment.Received.dataSize_le {seg : Segment} (h : seg.Received) :
    dataSize seg.calls ≤ seg.readSize := by
  obtain ⟨buf, slices, hlen, hapart, hdata⟩ := h.sliced
  rw [dataSize, hdata, ← hlen]
  exact Slice.length_flatten_cut buf slices hapart

theorem dataSize_prefix {as calls : List HttpCall} (h : as <+: calls) :
    dataSize as ≤ dataSize calls := by
  obtain ⟨bs, rfl⟩ := h
  simp [dataSize]

/-- The requests of a connection and the `recv`s that made them: the next one is
parsed as long as `parse_request` returned no negative code.  Between two,
`handle_request` may read headers. -/
inductive Fed : List Segment → Request → Prop
  | start : Fed [] {}
  | header {segs : List Segment} {r : Request} (name : Bytes) :
    Fed segs r → Fed segs (r.getHeader name).2
  | recv {segs : List Segment} {r r' : Request} {seg : Segment} {code : Int} :
    Fed segs r → seg.Received → parseRequest seg r = (.ret code, r') → 0 ≤ code →
    Fed (segs ++ [seg]) r'

theorem totalSize_append (segs : List Segment) (seg : Segment) :
    totalSize (segs ++ [seg]) = totalSize segs + seg.readSize := by
  simp [totalSize]

/-- What one call adds, to the counter and to what is stored. -/
theorem parseRequestExit_adds (seg : Segment) (r : Request) (h : seg.Received) :
    (parseRequestExit seg r).2.totalReqSize = r.totalReqSize + seg.readSize ∧
      (parseRequestExit seg r).2.stored ≤ r.stored + seg.readSize := by
  have hrun := stored_runAll seg.calls r
  have hdata := h.dataSize_le
  rw [parseRequestExit_request]
  split
  · exact ⟨rfl, Nat.le_add_right _ _⟩
  · refine ⟨rfl, ?_⟩
    rw [stored_withSize]
    omega

namespace Fed

variable {segs : List Segment} {r : Request}

/-- **The counter** is the number of bytes fed, and a request that may go on is
not too big. -/
theorem counted (h : Fed segs r) : r.totalReqSize = totalSize segs ∧ totalSize segs ≤ MAX_REQ_SIZE := by
  induction h with
  | start => exact ⟨rfl, Nat.zero_le _⟩
  | header name _ ih =>
    rw [Request.getHeader_frame]
    exact ih
  | @recv segs r r' seg code _ hseg hparse hcode ih =>
    have hexit := parseRequest_eq_exit seg r
    rw [hparse, Prod.mk.injEq] at hexit
    obtain ⟨hret, rfl⟩ := hexit
    have hadds := (parseRequestExit_adds seg r hseg).1
    have hsmall : ¬ MAX_REQ_SIZE < r.totalReqSize + seg.readSize := by
      intro hbig
      rw [(tooBig_iff seg r).mpr hbig, ParseExit.ret, Exit.ret.injEq] at hret
      omega
    rw [totalSize_append, ← ih.1]
    exact ⟨hadds, by omega⟩

theorem stored_le (h : Fed segs r) : r.stored ≤ totalSize segs := by
  induction h with
  | start => exact Nat.zero_le _
  | header name _ ih => rwa [stored_getHeader]
  | @recv segs r r' seg code _ hseg hparse hcode ih =>
    have hexit := parseRequest_eq_exit seg r
    rw [hparse, Prod.mk.injEq] at hexit
    have hadds := (parseRequestExit_adds seg r hseg).2
    rw [totalSize_append, hexit.2]
    omega

end Fed

/-- **Request memory is bounded.**  Whatever was fed to a request before, the
next `recv` brings the counter to the bytes fed, which fit an `int`; the guard
refuses exactly past `MAX_REQ_SIZE`; and the bytes fed bound what is stored
before the call, behind each of its callbacks, and after it. -/
theorem memory_bounded (segs : List Segment) (r : Request) (seg : Segment) (h : Fed segs r)
    (hseg : seg.Received) :
    let fed := totalSize (segs ++ [seg])
    let out := parseRequestExit seg r
    r.totalReqSize = totalSize segs ∧ r.stored ≤ totalSize segs ∧
    parseRequest seg r = (out.1.ret, out.2) ∧
    out.2.totalReqSize = fed ∧ fed ≤ MAX_REQ_SIZE + SS_READ_BUFFER_SIZE ∧ toInt32 fed = fed ∧
    (out.1 = .tooBig ↔ MAX_REQ_SIZE < fed) ∧
    out.2.stored ≤ fed ∧
    ∀ calls, calls <+: seg.calls → (runAll httpCall calls (r.withSize fed)).2.stored ≤ fed := by
  intro fed out
  obtain ⟨hcount, hsmall⟩ := h.counted
  obtain ⟨htotal, hstored⟩ := parseRequestExit_adds seg r hseg
  have hfed : fed = totalSize segs + seg.readSize := totalSize_append segs seg
  have hkept := h.stored_le
  have hbound : fed ≤ MAX_REQ_SIZE + SS_READ_BUFFER_SIZE := by
    have := hseg.fits
    omega
  have hint : toInt32 fed = fed := by
    have hmax : MAX_REQ_SIZE + SS_READ_BUFFER_SIZE < 2 ^ 31 := by decide
    exact Response.toInt32_of_lt _ (by omega) (by omega)
  refine ⟨hcount, hkept, parseRequest_eq_exit seg r, ?_, hbound, hint, ?_, ?_, ?_⟩
  · rw [hfed, ← hcount]
    exact htotal
  · rw [hfed, ← hcount]
    exact tooBig_iff seg r
  · exact Nat.le_trans hstored (by omega)
  · intro calls hpre
    have hrun := stored_runAll calls (r.withSize fed)
    have hdata := dataSize_prefix hpre
    have hall := hseg.dataSize_le
    rw [stored_withSize] at hrun
    omega

/-- The request line of `GET /ab HTTP/1.1`, read up to the `a`. -/
def firstRecv : Segment := ⟨6, [⟨⟨.get, 0, 0⟩, .url (bytes "/a"), 6⟩]⟩

/-- The rest of it, and a header line. -/
def secondRecv : Segment :=
  ⟨23, [⟨⟨.get, 1, 1⟩, .url (bytes "b"), 1⟩, ⟨⟨.get, 1, 1⟩, .headerField (bytes "Host"), 17⟩,
    ⟨⟨.get, 1, 1⟩, .headerValue (bytes "x"), 20⟩, ⟨⟨.get, 1, 1⟩, .headersComplete, 22⟩]⟩

theorem memory_bounded_split :
    firstRecv.Received ∧ secondRecv.Received ∧
      ∃ r, Fed [firstRecv] r ∧ r.stored = 2 ∧ (parseRequestExit secondRecv r).1 = .needMore ∧
        (parseRequestExit secondRecv r).2.totalReqSize = 29 ∧
        (parseRequestExit secondRecv r).2.stored ≤ 29 := by
  have hfirst : firstRecv.Received :=
    { nonempty := by decide
      fits := by decide
      sliced := ⟨bytes "GET /a", [⟨4, 2⟩], rfl, ⟨by decide, List.pairwise_singleton _ _⟩, rfl⟩ }
  have hsecond : secondRecv.Received :=
    { nonempty := by decide
      fits := by decide
      sliced := ⟨bytes "b HTTP/1.1\r\nHost: x\r\n\r\n", [⟨0, 1⟩, ⟨12, 4⟩, ⟨18, 1⟩], rfl,
        ⟨by decide, by decide⟩, rfl⟩ }
  have hfed : Fed [firstRecv] (parseRequestExit firstRecv {}).2 :=
    Fed.start.recv hfirst (by rfl) (show (0 : Int) ≤ 1 by decide)
  have hall := memory_bounded [firstRecv] _ secondRecv hfed hsecond
  exact ⟨hfirst, hsecond, _, hfed, by rfl, by rfl, hall.2.2.2.1, hall.2.2.2.2.2.2.2.1⟩

end Ehttp
