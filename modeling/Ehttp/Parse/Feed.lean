import Ehttp.Parse.Driver

/-!
# `parse_request`, call after call

* `httpCall_withSize`: no callback sees the byte counter, so a run of
  `parse_request` calls is the run of all their callbacks;
* `parseRequest_open`, `parseRequest_stopped`, `parseRequest_last`: what one
  call returns, by what its callbacks do;
* `feed_front`: the calls before the one that decides.
-/

namespace Ehttp

open Lib

/-! ## The byte counter -/

def Request.withSize (n : Nat) (r : Request) : Request := { r with totalReqSize := n }

@[simp] theorem withSize_withSize (n k : Nat) (r : Request) :
    (r.withSize k).withSize n = r.withSize n := rfl

@[simp] theorem totalReqSize_withSize (n : Nat) (r : Request) :
    (r.withSize n).totalReqSize = n := rfl

theorem getHeader_withSize (n : Nat) (r : Request) (name : Bytes) :
    (r.withSize n).getHeader name = ((r.getHeader name).1, (r.getHeader name).2.withSize n) := by
  cases hf : r.headers.find (ssStrTolower name) <;>
    simp only [Request.getHeader, Request.withSize, hf]

theorem ssOnHeaderField_withSize (p : HttpParser) (s : Bytes) (n : Nat) (r : Request) :
    ssOnHeaderField p s (r.withSize n) =
      ((ssOnHeaderField p s r).1, (ssOnHeaderField p s r).2.withSize n) := by
  have hhead : (r.withSize n).inHead p = (r.inHead p).withSize n := by
    cases h : r.parsePart <;> simp [Request.inHead, Request.withSize, h]
  have hpush : ∀ r : Request,
      pushHeaderField s (r.withSize n) = (pushHeaderField s r).withSize n := by
    intro r
    cases h : r.lastWasValue <;> simp [pushHeaderField, Request.withSize, h]
  rw [ssOnHeaderField_eq, ssOnHeaderField_eq, hhead, hpush]

theorem ssOnHeadersComplete_withSize (n : Nat) (r : Request) :
    ssOnHeadersComplete (r.withSize n) =
      ((ssOnHeadersComplete r).1, (ssOnHeadersComplete r).2.withSize n) := by
  by_cases h : r.headerFields.length = r.headerValues.length
  · have hover : (r.withSize n).headOver = r.headOver.withSize n := by
      rw [Request.headOver, addHeaders_eq, Request.headOver, addHeaders_eq]; rfl
    have hmethod : (r.headOver.withSize n).getMethod = r.headOver.getMethod := rfl
    rw [ssOnHeadersComplete_eq r h, ssOnHeadersComplete_eq (r.withSize n) h, hover, hmethod]
    simp only [getHeader_withSize]
    by_cases hp : r.headOver.getMethod = bytes "POST"
    · by_cases hv : (r.headOver.getHeader (bytes "Content-Length")).1 = []
      · simp only [hp, hv, ↓reduceIte]; rfl
      · simp only [hp, hv, ↓reduceIte]
    · simp only [hp, ↓reduceIte]
  · simp [ssOnHeadersComplete, Request.withSize, h]

theorem ssParseMultipartData_withSize (n : Nat) (r : Request) :
    ssParseMultipartData (r.withSize n) =
      ((ssParseMultipartData r).1, (ssParseMultipartData r).2.withSize n) := by
  have hbody : (r.withSize n).body = r.body := rfl
  unfold ssParseMultipartData
  rw [getHeader_withSize, hbody]
  cases r.body.rawString.isEmpty <;> rfl

theorem ssOnMessageComplete_withSize (n : Nat) (r : Request) :
    ssOnMessageComplete (r.withSize n) =
      ((ssOnMessageComplete r).1, (ssOnMessageComplete r).2.withSize n) := by
  obtain ⟨ct, r', hr⟩ : ∃ ct r', r.getHeader (bytes "Content-Type") = (ct, r') := ⟨_, _, rfl⟩
  have hform : { r'.withSize n with body := parseFormBody ct (r'.withSize n).body } =
      Request.withSize n { r' with body := parseFormBody ct r'.body } := rfl
  simp only [ssOnMessageComplete, getHeader_withSize, hr, hform, ssParseMultipartData_withSize]
  cases contains (bytes "multipart/form-data") ct with
  | false => rfl
  | true =>
    simp only [↓reduceIte]
    cases ssParseMultipartData { r' with body := parseFormBody ct r'.body } with
    | mk x r'' =>
      cases x with
      | thrown => rfl
      | ret code =>
        by_cases h : code = 0
        · simp [h, Request.withSize]
        · simp [h, Request.withSize]

/-- **No callback sees the counter.** -/
theorem httpCall_withSize (n : Nat) (c : HttpCall) (r : Request) :
    httpCall c (r.withSize n) = ((httpCall c r).1, (httpCall c r).2.withSize n) := by
  unfold httpCall
  cases c.event with
  | url s => rfl
  | headerField s => exact ssOnHeaderField_withSize c.parser s n r
  | headerValue s => rfl
  | headersComplete => exact ssOnHeadersComplete_withSize n r
  | body s => rfl
  | messageComplete => exact ssOnMessageComplete_withSize n r

theorem runAll_withSize (n : Nat) (cs : List HttpCall) (r : Request) :
    runAll httpCall cs (r.withSize n) =
      ((runAll httpCall cs r).1, (runAll httpCall cs r).2.withSize n) :=
  RunAll.runAll_simulation httpCall httpCall (Request.withSize n) cs r (httpCall_withSize n)

/-! ## One call -/

/-- No error and not over: what `parse_request` answers with `NEED_MORE_STATUS`. -/
structure Request.Open (r : Request) : Prop where
  noErr : r.parseErr = 0
  notOver : r.parsePart ≠ .over

theorem Request.Open.withSize {r : Request} (h : r.Open) (n : Nat) : (r.withSize n).Open :=
  ⟨h.noErr, h.notOver⟩

/-- Only the end of the message or a failing callback ends the open state. -/
theorem httpCall_open (c : HttpCall) (r : Request) (hc : c.event ≠ .messageComplete) (hr : r.Open)
    (h : (httpCall c r).1 = .ret 0) : (httpCall c r).2.Open := by
  unfold httpCall at h ⊢
  cases he : c.event with
  | url s => exact ⟨hr.noErr, hr.notOver⟩
  | headerField s =>
    simp only [httpCallback, ssOnHeaderField_eq]
    have hhead : (r.inHead c.parser).Open := by
      unfold Request.inHead
      split
      · exact ⟨hr.noErr, by simp⟩
      · exact hr
    unfold pushHeaderField
    split <;> exact ⟨hhead.noErr, hhead.notOver⟩
  | headerValue s => exact ⟨hr.noErr, hr.notOver⟩
  | headersComplete =>
    rw [he] at h
    simp only [httpCallback] at h ⊢
    by_cases hlen : r.headerFields.length = r.headerValues.length
    · have hover : r.headOver.Open := by
        rw [Request.headOver, addHeaders_eq]
        exact ⟨hr.noErr, by simp⟩
      have hget : ((r.headOver.getHeader (bytes "Content-Length")).2).Open := by
        rw [Request.getHeader_frame]
        exact ⟨hover.noErr, hover.notOver⟩
      rw [ssOnHeadersComplete_eq r hlen] at h ⊢
      split
      · rename_i hpost
        simp only [hpost, ↓reduceIte] at h ⊢
        split
        · rename_i hempty
          simp [hempty] at h
        · exact hget
      · exact hover
    · simp [ssOnHeadersComplete, hlen] at h
  | body s => exact ⟨hr.noErr, by simp [httpCallback, ssOnBody]⟩
  | messageComplete => exact absurd he hc

theorem runAll_open (cs : List HttpCall) (r : Request) (hr : r.Open)
    (hcs : ∀ c ∈ cs, c.event ≠ .messageComplete) (hrun : (runAll httpCall cs r).1 = none) :
    (runAll httpCall cs r).2.Open :=
  RunAll.runAll_invariant httpCall Request.Open cs
    (fun c hc r hr h => httpCall_open c r (hcs c hc) hr h) r hr hrun

section OneCall

variable (seg : Segment) (r : Request)

theorem parseRequest_tooBig (h : MAX_REQ_SIZE < r.totalReqSize + seg.readSize) :
    parseRequest seg r = (.ret (-1), r.withSize (r.totalReqSize + seg.readSize)) := by
  simp only [parseRequest, gt_iff_lt, h, ↓reduceIte]
  rfl

/-- A call whose callbacks neither fail nor see the end of the message. -/
theorem parseRequest_open (hr : r.Open) (hcs : ∀ c ∈ seg.calls, c.event ≠ .messageComplete)
    (hrun : (runAll httpCall seg.calls r).1 = none)
    (hsize : r.totalReqSize + seg.readSize ≤ MAX_REQ_SIZE) :
    parseRequest seg r = (.ret NEED_MORE_STATUS,
      (runAll httpCall seg.calls r).2.withSize (r.totalReqSize + seg.readSize)) := by
  have hopen := runAll_open seg.calls r hr hcs hrun
  have hall := runAll_withSize (r.totalReqSize + seg.readSize) seg.calls r
  rw [hrun] at hall
  have hexec : httpParserExecute seg (r.withSize (r.totalReqSize + seg.readSize)) =
      (.ret seg.readSize,
        (runAll httpCall seg.calls r).2.withSize (r.totalReqSize + seg.readSize)) := by
    simp only [httpParserExecute, hall]
  have hnot : ¬ MAX_REQ_SIZE < r.totalReqSize + seg.readSize := by omega
  simp only [Request.withSize] at hexec
  simp [parseRequest, hnot, hexec, Request.withSize, hopen.noErr, hopen.notOver]

/-- A call stopped by a callback that returns a nonzero code before the last byte. -/
theorem parseRequest_stopped (as bs : List HttpCall) (c : HttpCall) (code : Int)
    (hcalls : seg.calls = as ++ c :: bs) (hrun : (runAll httpCall as r).1 = none)
    (hfail : (httpCall c (runAll httpCall as r).2).1 = .ret code) (hcode : code ≠ 0)
    (hcons : c.consumed < seg.readSize)
    (hsize : r.totalReqSize + seg.readSize ≤ MAX_REQ_SIZE) :
    parseRequest seg r = (.ret (-1),
      (httpCall c (runAll httpCall as r).2).2.withSize (r.totalReqSize + seg.readSize)) := by
  have hone : runAll httpCall seg.calls r = (some (c, .ret code),
      (httpCall c (runAll httpCall as r).2).2) := by
    rw [hcalls, RunAll.runAll_append_ok httpCall as _ r hrun,
      RunAll.runAll_cons_fail httpCall c bs _ (by rw [hfail]; simpa using hcode), hfail]
  have hall := runAll_withSize (r.totalReqSize + seg.readSize) seg.calls r
  rw [hone] at hall
  have hnot : ¬ MAX_REQ_SIZE < r.totalReqSize + seg.readSize := by omega
  have hne : (c.consumed : Int) ≠ seg.readSize := by omega
  simp only [Request.withSize] at hall
  simp [parseRequest, hnot, httpParserExecute, hall, hne, Request.withSize]

/-- What `parse_request` makes of the end of the message. -/
def overRet (x : Exit) (r : Request) : Exit :=
  match x with
  | .thrown => .thrown
  | .ret _ =>
    if r.parseErr ≠ 0 then .ret r.parseErr
    else if r.parsePart ≠ .over then .ret NEED_MORE_STATUS else .ret 0

/-- The call whose last callback comes with the last byte. -/
theorem parseRequest_last (as : List HttpCall) (c : HttpCall) (hcalls : seg.calls = as ++ [c])
    (hrun : (runAll httpCall as r).1 = none) (hcons : c.consumed = seg.readSize)
    (hsize : r.totalReqSize + seg.readSize ≤ MAX_REQ_SIZE) :
    parseRequest seg r =
      (overRet (httpCall c (runAll httpCall as r).2).1 (httpCall c (runAll httpCall as r).2).2,
        (httpCall c (runAll httpCall as r).2).2.withSize (r.totalReqSize + seg.readSize)) := by
  have hall := runAll_withSize (r.totalReqSize + seg.readSize) seg.calls r
  have hone : runAll httpCall seg.calls r = runAll httpCall [c] (runAll httpCall as r).2 := by
    rw [hcalls, RunAll.runAll_append_ok httpCall as _ r hrun]
  have hnot : ¬ MAX_REQ_SIZE < r.totalReqSize + seg.readSize := by omega
  cases hx : httpCall c (runAll httpCall as r).2 with
  | mk x r' =>
    rw [hone] at hall
    cases x with
    | thrown =>
      rw [RunAll.runAll_cons_fail httpCall c [] _ (by simp [hx]), hx] at hall
      simp only [Request.withSize] at hall
      simp [parseRequest, hnot, httpParserExecute, hall, overRet, Request.withSize]
    | ret code =>
      have hexec : httpParserExecute seg (r.withSize (r.totalReqSize + seg.readSize)) =
          (.ret seg.readSize, r'.withSize (r.totalReqSize + seg.readSize)) := by
        by_cases h0 : code = 0
        · rw [RunAll.runAll_cons_ok httpCall c [] _ (by simp [hx, h0]), hx, RunAll.runAll_nil]
            at hall
          simp only [httpParserExecute, hall]
        · rw [RunAll.runAll_cons_fail httpCall c [] _ (by simp [hx, h0]), hx] at hall
          simp only [httpParserExecute, hall, hcons]
      simp only [Request.withSize] at hexec
      simp only [parseRequest, gt_iff_lt, hnot, ↓reduceIte, hexec, overRet, Request.withSize]
      split
      · simp_all
      · split
        · simp_all
        · split <;> simp_all

end OneCall

/-! ## Call after call -/

def totalSize (segs : List Segment) : Nat := (segs.map Segment.readSize).sum

theorem feed_cons_more (seg : Segment) (segs : List Segment) (r r' : Request)
    (h : parseRequest seg r = (.ret NEED_MORE_STATUS, r')) :
    feed r (seg :: segs) = (.ret NEED_MORE_STATUS :: (feed r' segs).1, (feed r' segs).2) := by
  simp [feed, h]

theorem feed_cons_last (seg : Segment) (segs : List Segment) (r r' : Request) (x : Exit)
    (h : parseRequest seg r = (x, r')) (hx : x ≠ .ret NEED_MORE_STATUS) :
    feed r (seg :: segs) = ([x], r') := by
  simp [feed, h, hx]

/-- The request after `front`, if the callbacks of `front` let it pass. -/
def afterFront (front : List Segment) (r : Request) : Request :=
  (runAll httpCall (front.flatMap Segment.calls) r).2.withSize (r.totalReqSize + totalSize front)

/-- Callbacks behind those of `front`. -/
theorem runAll_afterFront (front : List Segment) (r : Request) (cs : List HttpCall) :
    runAll httpCall cs (afterFront front r) =
      ((runAll httpCall cs (runAll httpCall (front.flatMap Segment.calls) r).2).1,
        (runAll httpCall cs (runAll httpCall (front.flatMap Segment.calls) r).2).2.withSize
          (r.totalReqSize + totalSize front)) :=
  runAll_withSize _ cs _

/-- **The calls before the one that decides** ask for more, unless the request
grows too big on the way. -/
theorem feed_front (front back : List Segment) (r : Request) (hr : r.Open)
    (hcs : ∀ c ∈ front.flatMap Segment.calls, c.event ≠ .messageComplete)
    (hrun : (runAll httpCall (front.flatMap Segment.calls) r).1 = none) :
    (r.totalReqSize + totalSize front ≤ MAX_REQ_SIZE →
      feed r (front ++ back) =
        (List.replicate front.length (.ret NEED_MORE_STATUS) ++ (feed (afterFront front r) back).1,
          (feed (afterFront front r) back).2)) ∧
    (r.totalReqSize ≤ MAX_REQ_SIZE → MAX_REQ_SIZE < r.totalReqSize + totalSize front →
      ∃ k r', feed r (front ++ back) =
        (List.replicate k (.ret NEED_MORE_STATUS) ++ [.ret (-1)], r')) := by
  induction front generalizing r with
  | nil =>
    refine ⟨fun _ => rfl, ?_⟩
    intro h1 h2
    simp only [totalSize, List.map_nil, List.sum_nil] at h2
    omega
  | cons seg front ih =>
    rw [List.flatMap_cons] at hcs hrun
    have htotal : totalSize (seg :: front) = seg.readSize + totalSize front := by
      simp [totalSize]
    have hrun1 := RunAll.runAll_append_none httpCall _ _ r hrun
    have hcs1 : ∀ c ∈ seg.calls, c.event ≠ .messageComplete :=
      fun c hc => hcs c (List.mem_append_left _ hc)
    rw [RunAll.runAll_append_ok httpCall _ _ r hrun1] at hrun
    rw [htotal]
    rcases Nat.lt_or_ge MAX_REQ_SIZE (r.totalReqSize + seg.readSize) with hbig | hsize
    · refine ⟨fun h => by omega, fun _ _ => ⟨0, r.withSize (r.totalReqSize + seg.readSize), ?_⟩⟩
      exact feed_cons_last seg (front ++ back) r _ _ (parseRequest_tooBig seg r hbig) (by decide)
    · have hone := parseRequest_open seg r hr hcs1 hrun1 hsize
      have hopen := (runAll_open seg.calls r hr hcs1 hrun1).withSize (r.totalReqSize + seg.readSize)
      have hrest := runAll_withSize (r.totalReqSize + seg.readSize)
        (front.flatMap Segment.calls) (runAll httpCall seg.calls r).2
      obtain ⟨hfit, hbig⟩ := ih _ hopen (fun c hc => hcs c (List.mem_append_right _ hc))
        (by rw [hrest]; exact hrun)
      rw [totalReqSize_withSize] at hfit hbig
      rw [List.cons_append, feed_cons_more seg (front ++ back) r _ hone]
      refine ⟨?_, ?_⟩
      · intro h
        have hafter : afterFront front ((runAll httpCall seg.calls r).2.withSize
            (r.totalReqSize + seg.readSize)) = afterFront (seg :: front) r := by
          simp only [afterFront, hrest, totalReqSize_withSize, withSize_withSize, List.flatMap_cons,
            RunAll.runAll_append_ok httpCall _ _ r hrun1, htotal, Nat.add_assoc]
        rw [hfit (by omega), hafter]
        rfl
      · intro _ h
        obtain ⟨k, r', hfeed⟩ := hbig hsize (by omega)
        exact ⟨k + 1, r', by rw [hfeed]; rfl⟩

/-- Where in a list of segments a call is made. -/
theorem calls_split (segs : List Segment) (as bs : List HttpCall) (c : HttpCall)
    (h : segs.flatMap Segment.calls = as ++ c :: bs) :
    ∃ front seg back as' bs', segs = front ++ seg :: back ∧ seg.calls = as' ++ c :: bs' ∧
      as = front.flatMap Segment.calls ++ as' ∧ bs = bs' ++ back.flatMap Segment.calls := by
  induction segs generalizing as with
  | nil => simp at h
  | cons seg segs ih =>
    rw [List.flatMap_cons] at h
    rcases List.append_eq_append_iff.mp h with ⟨as', rfl, hrest⟩ | ⟨bs', hcalls, hrest⟩
    · obtain ⟨front, seg', back, as'', bs', rfl, hseg, rfl, rfl⟩ := ih as' hrest
      exact ⟨seg :: front, seg', back, as'', bs', rfl, hseg, by simp, rfl⟩
    · cases bs' with
      | nil =>
        obtain ⟨front, seg', back, as'', bs'', rfl, hseg, hnil, rfl⟩ := ih [] (by simpa using hrest.symm)
        refine ⟨seg :: front, seg', back, as'', bs'', rfl, hseg, ?_, rfl⟩
        rw [List.flatMap_cons, List.append_assoc, ← hnil, hcalls]
        simp
      | cons d bs' =>
        simp only [List.cons_append, List.cons.injEq] at hrest
        obtain ⟨rfl, rfl⟩ := hrest
        exact ⟨[], seg, segs, as, bs', rfl, hcalls, rfl, rfl⟩

/-- The content of a request, as handlers read it. -/
structure Request.Same (r r' : Request) : Prop where
  line : r.line = r'.line
  headers : r.headers = r'.headers
  body : r.body = r'.body

theorem fresh_open : Request.Open {} := ⟨rfl, by decide⟩

section Runs

variable (segs : List Segment) (as bs : List HttpCall) (c : HttpCall)

/-- A run in which `c` returns a nonzero code before the last byte of its segment. -/
theorem feed_stopped (code : Int) (hcalls : segs.flatMap Segment.calls = as ++ c :: bs)
    (has : ∀ c ∈ as, c.event ≠ .messageComplete) (hrun : (runAll httpCall as {}).1 = none)
    (hfail : (httpCall c (runAll httpCall as {}).2).1 = .ret code) (hcode : code ≠ 0)
    (hcons : ∀ front seg back, segs = front ++ seg :: back → c ∈ seg.calls →
      c.consumed < seg.readSize) :
    ∃ k r, feed {} segs = (List.replicate k (.ret NEED_MORE_STATUS) ++ [.ret (-1)], r) ∧
      (totalSize segs ≤ MAX_REQ_SIZE → r.Same (httpCall c (runAll httpCall as {}).2).2) := by
  obtain ⟨front, seg, back, as', bs', rfl, hseg, rfl, rfl⟩ := calls_split segs as bs c hcalls
  have hconsumed := hcons front seg back rfl (by rw [hseg]; simp)
  have hrun1 := RunAll.runAll_append_none httpCall _ _ _ hrun
  obtain ⟨hfit, hbig⟩ := feed_front front (seg :: back) {} fresh_open
    (fun c hc => has c (List.mem_append_left _ hc)) hrun1
  rw [RunAll.runAll_append_ok httpCall _ _ _ hrun1] at hrun hfail ⊢
  have htotal : totalSize (front ++ seg :: back) =
      totalSize front + (seg.readSize + totalSize back) := by
    simp [totalSize]
  rcases Nat.lt_or_ge MAX_REQ_SIZE (0 + totalSize front) with h | h
  · obtain ⟨k, r', hfeed⟩ := hbig (Nat.zero_le _) h
    exact ⟨k, r', hfeed, fun hle => by omega⟩
  · have hsize : (afterFront front {}).totalReqSize = 0 + totalSize front := rfl
    rw [hfit h]
    rcases Nat.lt_or_ge MAX_REQ_SIZE ((afterFront front {}).totalReqSize + seg.readSize) with h' | h'
    · rw [feed_cons_last seg back _ _ _ (parseRequest_tooBig seg _ h') (by decide)]
      exact ⟨_, _, rfl, fun hle => by omega⟩
    · have hstop := parseRequest_stopped seg (afterFront front {}) as' bs' c code hseg
        (by rw [runAll_afterFront]; exact hrun)
        (by rw [runAll_afterFront, httpCall_withSize]; exact hfail) hcode hconsumed h'
      rw [runAll_afterFront, httpCall_withSize] at hstop
      rw [feed_cons_last seg back _ _ _ hstop (by decide)]
      exact ⟨_, _, rfl, fun _ => ⟨rfl, rfl, rfl⟩⟩

/-- A run whose last callback is `c`, with the last byte. -/
theorem feed_last (hcalls : segs.flatMap Segment.calls = as ++ [c])
    (has : ∀ c ∈ as, c.event ≠ .messageComplete) (hrun : (runAll httpCall as {}).1 = none)
    (hmore : overRet (httpCall c (runAll httpCall as {}).2).1
      (httpCall c (runAll httpCall as {}).2).2 ≠ .ret NEED_MORE_STATUS)
    (hcons : ∀ front seg back, segs = front ++ seg :: back → c ∈ seg.calls →
      c.consumed = seg.readSize ∧ back = []) :
    ∃ k r, feed {} segs = (List.replicate k (.ret NEED_MORE_STATUS) ++
      [if MAX_REQ_SIZE < totalSize segs then .ret (-1)
        else overRet (httpCall c (runAll httpCall as {}).2).1
          (httpCall c (runAll httpCall as {}).2).2], r) ∧
      (totalSize segs ≤ MAX_REQ_SIZE →
        r.Same (httpCall c (runAll httpCall as {}).2).2 ∧ segs.length = k + 1) := by
  obtain ⟨front, seg, back, as', bs', rfl, hseg, rfl, hbs⟩ := calls_split segs as [] c hcalls
  obtain ⟨hconsumed, rfl⟩ := hcons front seg back rfl (by rw [hseg]; simp)
  obtain rfl : bs' = [] := (List.append_eq_nil_iff.mp hbs.symm).1
  have hrun1 := RunAll.runAll_append_none httpCall _ _ _ hrun
  obtain ⟨hfit, hbig⟩ := feed_front front [seg] {} fresh_open
    (fun c hc => has c (List.mem_append_left _ hc)) hrun1
  rw [RunAll.runAll_append_ok httpCall _ _ _ hrun1] at hrun hmore ⊢
  have htotal : totalSize (front ++ [seg]) = totalSize front + seg.readSize := by
    simp [totalSize]
  rcases Nat.lt_or_ge MAX_REQ_SIZE (0 + totalSize front) with h | h
  · obtain ⟨k, r', hfeed⟩ := hbig (Nat.zero_le _) h
    refine ⟨k, r', ?_, fun hle => by omega⟩
    rw [hfeed, if_pos (by omega)]
  · have hsize : (afterFront front {}).totalReqSize = 0 + totalSize front := rfl
    rw [hfit h]
    rcases Nat.lt_or_ge MAX_REQ_SIZE ((afterFront front {}).totalReqSize + seg.readSize) with h' | h'
    · rw [feed_cons_last seg [] _ _ _ (parseRequest_tooBig seg _ h') (by decide),
        if_pos (by omega)]
      exact ⟨_, _, rfl, fun hle => by omega⟩
    · have hlast := parseRequest_last seg (afterFront front {}) as' c hseg
        (by rw [runAll_afterFront]; exact hrun) hconsumed h'
      rw [runAll_afterFront, httpCall_withSize] at hlast
      rw [feed_cons_last seg [] _ _ _ hlast hmore, if_neg (by omega)]
      exact ⟨_, _, rfl, fun _ => ⟨⟨rfl, rfl, rfl⟩, by simp⟩⟩

end Runs

theorem afterParse_ne (handleRequest : Request → Response → Request × Response) (x : Exit)
    (hc : HttpContext) (hx : x ≠ .ret NEED_MORE_STATUS) :
    (afterParse handleRequest x hc).1 ≠ .readContinue := by
  cases x with
  | thrown => simp [afterParse]
  | ret code =>
    have hcode : code ≠ NEED_MORE_STATUS := fun e => hx (by rw [e])
    simp only [afterParse, hcode, ↓reduceIte]
    split
    · simp
    · split <;> simp

/-- The loop of `on_readable` follows that of `parse_request`. -/
theorem readLoop_feed (handleRequest : Request → Response → Request × Response)
    (segs : List Segment) (req r : Request) (res : Response) (k : Nat) (x : Exit)
    (h : feed req segs = (List.replicate k (.ret NEED_MORE_STATUS) ++ [x], r))
    (hx : x ≠ .ret NEED_MORE_STATUS) :
    readLoop handleRequest { req, res } segs = afterParse handleRequest x { req := r, res } := by
  induction segs generalizing req k with
  | nil => simp [feed] at h
  | cons seg segs ih =>
    obtain ⟨y, r', hone⟩ : ∃ y r', parseRequest seg req = (y, r') := ⟨_, _, rfl⟩
    have hout : onReadable handleRequest (.data seg) { req, res } =
        afterParse handleRequest y { req := r', res } := by
      simp only [onReadable, hone]
    simp only [readLoop, hout]
    by_cases hy : y = .ret NEED_MORE_STATUS
    · subst hy
      rw [feed_cons_more seg segs req r' hone] at h
      cases k with
      | zero =>
        simp only [List.replicate_zero, List.nil_append, Prod.mk.injEq, List.cons.injEq] at h
        exact absurd h.1.1.symm hx
      | succ k =>
        simp only [List.replicate_succ, List.cons_append, Prod.mk.injEq, List.cons.injEq,
          true_and] at h
        have hmore : afterParse handleRequest (.ret NEED_MORE_STATUS) { req := r', res } =
            (.readContinue, { req := r', res }, none) := rfl
        rw [hmore, if_pos rfl]
        exact ih r' k (by rw [← h.1, ← h.2])
    · rw [feed_cons_last seg segs req r' y hone hy] at h
      cases k with
      | zero =>
        simp only [List.replicate_zero, List.nil_append, Prod.mk.injEq, List.cons.injEq,
          and_true] at h
        obtain ⟨rfl, rfl⟩ := h
        rw [if_neg (afterParse_ne handleRequest y _ hy)]
      | succ k =>
        simp only [List.replicate_succ, List.cons_append, Prod.mk.injEq, List.cons.injEq] at h
        exact absurd h.1.1 hy

end Ehttp
