import Ehttp.Parse.Trace

/-!
# What a message parses to

* `feed_trace`: the returns of `parse_request` on any trace of a message end
  with its verdict, and the request has its content;
* `segmentation_irrelevant`: two traces of a message cannot be told apart;
* `ssOnMessageComplete_eq`: the end of the message in terms of the
  Content-Type and the body.
-/

namespace Ehttp

open Lib

/-! ## The end of the message -/

/-- The body as `on_message_complete` leaves it, with its return. -/
def messageBody (ct : Bytes) (b : RequestBody) : Exit × RequestBody :=
  let b := parseFormBody ct b
  if contains (bytes "multipart/form-data") ct ∧ b.rawString ≠ [] then parseMultipartBody ct b
  else (.ret 0, b)

theorem getHeader_body (r : Request) (b : RequestBody) (name : Bytes) :
    ({ r with body := b } : Request).getHeader name =
      ((r.getHeader name).1, { (r.getHeader name).2 with body := b }) := by
  cases hf : r.headers.find (ssStrTolower name) <;> simp only [Request.getHeader, hf]

/-- The request once the Content-Type has been looked up. -/
def Request.afterLookup (req : Request) : Request := (req.getHeader (bytes "Content-Type")).2

theorem ssParseMultipartData_eq (r : Request) (b : RequestBody) :
    ssParseMultipartData { r.afterLookup with body := b } =
      if b.rawString = [] then (.ret 0, { r.afterLookup with body := b })
      else ((parseMultipartBody (r.header (bytes "Content-Type")) b).1,
        { r.afterLookup with body := (parseMultipartBody (r.header (bytes "Content-Type")) b).2 }) := by
  have hval : (r.afterLookup.getHeader (bytes "Content-Type")).1 = r.header (bytes "Content-Type") :=
    Request.header_getHeader r (bytes "Content-Type") (bytes "Content-Type")
  have hreq : (r.afterLookup.getHeader (bytes "Content-Type")).2 = r.afterLookup :=
    Request.getHeader_getHeader r (bytes "Content-Type")
  simp only [ssParseMultipartData, getHeader_body, hval, hreq, List.isEmpty_iff]

/-- **Message complete.**  Nothing but the Content-Type and the body decides. -/
theorem ssOnMessageComplete_eq (r : Request) :
    ssOnMessageComplete r =
      let out := messageBody (r.header (bytes "Content-Type")) r.body
      (out.1, { r.afterLookup with
        body := out.2
        parseErr := if out.1 = .ret 0 ∨ out.1 = .thrown then r.parseErr else PARSE_MULTIPART_ERR
        parsePart := if out.1 = .thrown then r.parsePart else .over }) := by
  have hlook : r.afterLookup.parseErr = r.parseErr ∧ r.afterLookup.parsePart = r.parsePart ∧
      r.afterLookup.body = r.body := by
    rw [Request.afterLookup, Request.getHeader_frame]
    exact ⟨rfl, rfl, rfl⟩
  obtain ⟨herr, hpart, hbody⟩ := hlook
  have hget : r.getHeader (bytes "Content-Type") = (r.header (bytes "Content-Type"), r.afterLookup) :=
    rfl
  simp only [ssOnMessageComplete, hget, hbody, messageBody, ssParseMultipartData_eq]
  obtain ⟨b, hb⟩ : ∃ b, parseFormBody (r.header (bytes "Content-Type")) r.body = b := ⟨_, rfl⟩
  obtain ⟨ct, hct⟩ : ∃ ct, r.header (bytes "Content-Type") = ct := ⟨_, rfl⟩
  simp only [hct] at hb ⊢
  simp only [hb]
  by_cases hc : contains (bytes "multipart/form-data") ct = true
  · by_cases hempty : b.rawString = []
    · simp [hc, hempty, herr]
    · cases hx : (parseMultipartBody ct b).1 with
      | thrown => simp [hc, hempty, hx, herr, hpart]
      | ret code =>
        by_cases h0 : code = 0
        · simp [hc, hempty, hx, h0, herr]
        · simp [hc, hempty, hx, h0]
  · simp [hc, herr]

/-! ## Traces -/

theorem httpCall_eq {m : Message} {c : HttpCall} (h : SeesParser m c) (r : Request) :
    httpCall c r = httpCallback m.parser c.event r := by
  rcases h with ⟨s, hs⟩ | hp
  · simp only [httpCall, hs]
    rfl
  · rw [httpCall, hp]

/-- The calls of a trace are run as their events. -/
theorem runAll_calls (m : Message) (cs : List HttpCall) (h : ∀ c ∈ cs, SeesParser m c)
    (r r' : Request) (hrun : runAll (httpCallback m.parser) (cs.map HttpCall.event) r = (none, r')) :
    runAll httpCall cs r = (none, r') := by
  induction cs generalizing r with
  | nil =>
    rw [List.map_nil, RunAll.runAll_nil, Prod.mk.injEq] at hrun
    rw [RunAll.runAll_nil, hrun.2]
  | cons c cs ih =>
    have hc := httpCall_eq (h c (List.mem_cons_self ..)) r
    rw [List.map_cons] at hrun
    by_cases h0 : (httpCall c r).1 = .ret 0
    · rw [RunAll.runAll_cons_ok httpCall c cs r h0]
      rw [hc] at h0 ⊢
      rw [RunAll.runAll_cons_ok _ _ _ r h0] at hrun
      exact ih (fun d hd => h d (List.mem_cons_of_mem _ hd)) _ hrun
    · rw [hc] at h0
      rw [RunAll.runAll_cons_fail _ _ _ r h0] at hrun
      simp at hrun

theorem no_messageComplete_headers {hs : List (Bytes × Bytes)} {es : List HttpEvent}
    (h : HeaderFragments hs es) : .messageComplete ∉ es := by
  induction h with
  | nil => simp
  | cons names values headers es _ _ _ ih => simp [ih]

theorem no_messageComplete_head {m : Message} {es : List HttpEvent} (h : HeadEvents m es) :
    .messageComplete ∉ es := by
  obtain ⟨urls, hs, -, -, hhs, rfl⟩ := h
  simp [no_messageComplete_headers hhs]

theorem no_messageComplete_tail {m : Message} {es : List HttpEvent} (h : TailEvents m es) :
    .messageComplete ∉ es := by
  obtain ⟨bodies, ts, -, hts, rfl⟩ := h
  simp [no_messageComplete_headers hts]

theorem ne_messageComplete (cs : List HttpCall)
    (h : .messageComplete ∉ cs.map HttpCall.event) : ∀ c ∈ cs, c.event ≠ .messageComplete :=
  fun _ hc he => h (List.mem_map.mpr ⟨_, hc, he⟩)

/-- Where the end of the message is, there is nothing behind. -/
theorem Trace.ends {m : Message} {segs front back : List Segment} {seg : Segment} {c : HttpCall}
    (h : Trace m segs) (hsegs : segs = front ++ seg :: back) (hc : c ∈ seg.calls)
    (he : c.event = .messageComplete) : c.consumed = seg.readSize ∧ back = [] := by
  have hplaced := h.placed
  rw [hsegs] at hplaced
  obtain ⟨hat, hle⟩ := (hplaced.split c hc).2 he
  have hsize := h.size
  have htotal : totalSize segs = totalSize front + (seg.readSize + totalSize back) := by
    rw [hsegs]; simp [totalSize]
  refine ⟨by omega, ?_⟩
  cases back with
  | nil => rfl
  | cons next back =>
    have hpos := h.nonempty next (by rw [hsegs]; simp)
    have hnext : totalSize (next :: back) = next.readSize + totalSize back := by simp [totalSize]
    omega

/-- `on_headers_complete` returns 0 or -1. -/
theorem headersComplete_ret (r : Request) :
    (ssOnHeadersComplete r).1 = .ret 0 ∨ (ssOnHeadersComplete r).1 = .ret (-1) := by
  by_cases h : r.headerFields.length = r.headerValues.length
  · rw [ssOnHeadersComplete_eq r h]
    split
    · simp only
      split
      · exact Or.inr rfl
      · exact Or.inl rfl
    · exact Or.inl rfl
  · exact Or.inr (by simp [ssOnHeadersComplete, h])

/-- What the return for the body becomes. -/
def bodyVerdict : Exit → Exit
  | .thrown => .thrown
  | .ret code => if code = 0 then .ret 0 else .ret PARSE_MULTIPART_ERR

theorem bodyVerdict_ne (x : Exit) : bodyVerdict x ≠ .ret NEED_MORE_STATUS := by
  cases x with
  | thrown => simp [bodyVerdict]
  | ret code =>
    simp only [bodyVerdict]
    split <;> decide

/-- The end of a message ends the request, one way or the other. -/
theorem overRet_messageComplete (r : Request) (h : r.parseErr = 0) :
    overRet (ssOnMessageComplete r).1 (ssOnMessageComplete r).2 =
      bodyVerdict (messageBody (r.header (bytes "Content-Type")) r.body).1 := by
  rw [ssOnMessageComplete_eq]
  cases hx : (messageBody (r.header (bytes "Content-Type")) r.body).1 with
  | thrown => simp [overRet, bodyVerdict]
  | ret code =>
    by_cases h0 : code = 0
    · simp [overRet, bodyVerdict, hx, h0, h]
    · have hcode : PARSE_MULTIPART_ERR ≠ 0 := by decide
      simp [overRet, bodyVerdict, hx, h0, hcode]

/-- Whether a body callback was made does not show in the end. -/
theorem messageComplete_parsePart (r : Request) (part : ParsePart) :
    (ssOnMessageComplete { r with parsePart := part }).2.Same (ssOnMessageComplete r).2 := by
  have hget : ({ r with parsePart := part } : Request).getHeader (bytes "Content-Type") =
      ((r.getHeader (bytes "Content-Type")).1,
        { (r.getHeader (bytes "Content-Type")).2 with parsePart := part }) := by
    cases hf : r.headers.find (ssStrTolower (bytes "Content-Type")) <;>
      simp only [Request.getHeader, hf]
  rw [ssOnMessageComplete_eq, ssOnMessageComplete_eq]
  simp only [Request.header, Request.afterLookup, hget]
  exact ⟨rfl, rfl, rfl⟩

theorem parseErr_headersComplete (r : Request) (h : (ssOnHeadersComplete r).1 = .ret 0) :
    (ssOnHeadersComplete r).2.parseErr = r.parseErr := by
  by_cases hlen : r.headerFields.length = r.headerValues.length
  · have hover : r.headOver.parseErr = r.parseErr := by rw [Request.headOver, addHeaders_eq]
    rw [ssOnHeadersComplete_eq r hlen] at h ⊢
    split
    · rename_i hpost
      simp only [hpost, ↓reduceIte] at h ⊢
      split
      · rename_i hempty
        simp [hempty] at h
      · rw [Request.getHeader_frame]
        exact hover
    · exact hover
  · simp [ssOnHeadersComplete, hlen] at h

theorem parseErr_bodyState (m : Message) (h : m.headOut.1 = .ret 0) : m.bodyState.parseErr = 0 := by
  have hhead : m.headState.parseErr = 0 := by
    rw [Message.headState, Request.withHeaders]
    split <;> rfl
  exact (parseErr_headersComplete m.headState h).trans hhead

/-- The calls of a trace: those of the head, the two that can fail, and those
between them. -/
structure Trace.Calls (m : Message) (segs : List Segment) (as : List HttpCall) (hc : HttpCall)
    (bs : List HttpCall) (mc : HttpCall) : Prop where
  calls : segs.flatMap Segment.calls = as ++ hc :: (bs ++ [mc])
  head : HeadEvents m (as.map (·.event))
  headersComplete : hc.event = .headersComplete
  tail : TailEvents m (bs.map (·.event))
  messageComplete : mc.event = .messageComplete
  sees : ∀ c ∈ as ++ hc :: (bs ++ [mc]), SeesParser m c

theorem Trace.exists_calls {m : Message} {segs : List Segment} (h : Trace m segs) :
    ∃ as hc bs mc, Trace.Calls m segs as hc bs mc := by
  obtain ⟨head, tail, hhead, htail, hevents⟩ := h.events
  obtain ⟨as, rest, hcalls, has, hrest⟩ := List.map_eq_append_iff.mp hevents
  obtain ⟨hc, rest', rfl, hce, hrest'⟩ := List.map_eq_cons_iff.mp hrest
  obtain ⟨bs, last, rfl, hbs, hlast⟩ := List.map_eq_append_iff.mp hrest'
  obtain ⟨mc, behind, rfl, hme, hnil⟩ := List.map_eq_cons_iff.mp hlast
  obtain rfl := List.map_eq_nil_iff.mp hnil
  refine ⟨as, hc, bs, mc, hcalls, by rwa [has], hce, by rwa [hbs], hme, ?_⟩
  rw [← hcalls]
  exact h.parser

namespace Trace.Calls

variable {m : Message} {segs : List Segment} {as bs : List HttpCall} {hc mc : HttpCall}

theorem run_head (c : Trace.Calls m segs as hc bs mc) :
    runAll httpCall as {} = (none, m.headState) := by
  refine runAll_calls m as (fun d hd => c.sees d (by simp [hd])) {} m.headState ?_
  exact Ehttp.run_head m _ c.head

theorem headOut (c : Trace.Calls m segs as hc bs mc) : httpCall hc m.headState = m.headOut := by
  rw [httpCall_eq (c.sees hc (by simp)), c.headersComplete]
  rfl

/-- Up to the end of the message no callback fails, if the headers are accepted. -/
theorem run_tail (c : Trace.Calls m segs as hc bs mc) (hok : m.headOut.1 = .ret 0) :
    ∃ part, runAll httpCall (as ++ hc :: bs) {} =
      (none, { m.bodyState with parsePart := part }) := by
  obtain ⟨part, -, htailrun⟩ := Ehttp.run_tail m _ c.tail hok
  refine ⟨part, ?_⟩
  rw [RunAll.runAll_append_ok _ _ _ _ (by rw [c.run_head]), c.run_head,
    RunAll.runAll_cons_ok _ _ _ _ (by rw [c.headOut]; exact hok), c.headOut]
  exact runAll_calls m bs (fun d hd => c.sees d (by simp [hd])) _ _ htailrun

/-- The headers are refused: the segment that holds their end is the last one. -/
theorem feed_refused (c : Trace.Calls m segs as hc bs mc) (h : Trace m segs)
    (hfail : m.headOut.1 ≠ .ret 0) :
    ∃ k r, feed {} segs = (List.replicate k (.ret NEED_MORE_STATUS) ++ [m.verdict], r) ∧
      (m.size ≤ MAX_REQ_SIZE → r.Same m.request) ∧
      (m.verdict = .ret 0 → segs.length = k + 1) := by
  have hcode : m.headOut.1 = .ret (-1) := (headersComplete_ret _).resolve_left hfail
  have hstop := feed_stopped segs as (bs ++ [mc]) hc (-1) c.calls
    (ne_messageComplete as (no_messageComplete_head c.head)) (by rw [c.run_head])
    (by rw [c.run_head, c.headOut, hcode]) (by decide)
    (fun front seg back hsegs hmem => by
      have hplaced := h.placed
      rw [hsegs] at hplaced
      exact ((hplaced.split hc hmem).1 c.headersComplete).2)
  rw [c.run_head, c.headOut, h.size] at hstop
  obtain ⟨k, r, hfeed, hsame⟩ := hstop
  have hv : m.verdict = .ret (-1) := by simp [Message.verdict, hfail]
  refine ⟨k, r, by rw [hfeed, hv], ?_, ?_⟩
  · intro hle
    rw [Message.request, if_pos hfail]
    exact hsame hle
  · intro h0
    rw [hv] at h0
    exact absurd h0 (by decide)

/-- The headers are accepted: the end of the message decides. -/
theorem feed_over (c : Trace.Calls m segs as hc bs mc) (h : Trace m segs)
    (hok : m.headOut.1 = .ret 0) :
    ∃ k r, feed {} segs = (List.replicate k (.ret NEED_MORE_STATUS) ++ [m.verdict], r) ∧
      (m.size ≤ MAX_REQ_SIZE → r.Same m.request) ∧
      (m.verdict = .ret 0 → segs.length = k + 1) := by
  obtain ⟨part, hrunAll⟩ := c.run_tail hok
  have herr := parseErr_bodyState m hok
  have hover : httpCall mc { m.bodyState with parsePart := part } =
      ssOnMessageComplete { m.bodyState with parsePart := part } := by
    rw [httpCall_eq (c.sees mc (by simp)), c.messageComplete]
    rfl
  have hmc : overRet (ssOnMessageComplete { m.bodyState with parsePart := part }).1
      (ssOnMessageComplete { m.bodyState with parsePart := part }).2 =
        overRet m.overOut.1 m.overOut.2 := by
    rw [Message.overOut, overRet_messageComplete _ herr,
      overRet_messageComplete { m.bodyState with parsePart := part } herr,
      Request.header_eq, Request.header_eq]
  have hdone := feed_last segs (as ++ hc :: bs) mc (by rw [c.calls]; simp)
    (ne_messageComplete (as ++ hc :: bs) (by
      rw [List.map_append, List.map_cons, c.headersComplete]
      simp [no_messageComplete_head c.head, no_messageComplete_tail c.tail]))
    (by rw [hrunAll])
    (by
      rw [hrunAll, hover, hmc, Message.overOut, overRet_messageComplete _ herr]
      exact bodyVerdict_ne _)
    (fun front seg back hsegs hmem => h.ends hsegs hmem c.messageComplete)
  rw [hrunAll, hover, hmc, h.size] at hdone
  obtain ⟨k, r, hfeed, hsame⟩ := hdone
  refine ⟨k, r, ?_, ?_, ?_⟩
  · rw [hfeed, Message.verdict]
    simp [hok]
  · intro hle
    rw [Message.request, if_neg (by simp [hok])]
    have hpart := messageComplete_parsePart m.bodyState part
    obtain ⟨hs, -⟩ := hsame hle
    exact ⟨hs.line.trans hpart.line, hs.headers.trans hpart.headers, hs.body.trans hpart.body⟩
  · intro h0
    rcases Nat.lt_or_ge MAX_REQ_SIZE m.size with hbig | hle
    · rw [Message.verdict, if_pos (Or.inr hbig)] at h0
      exact absurd h0 (by decide)
    · exact (hsame hle).2

end Trace.Calls

/-- **Traces.**  The returns end with the verdict of the message, and the
content of the request is that of the message.  A request that is accepted
takes all the segments. -/
theorem feed_trace (m : Message) (segs : List Segment) (h : Trace m segs) :
    ∃ k r, feed {} segs = (List.replicate k (.ret NEED_MORE_STATUS) ++ [m.verdict], r) ∧
      (m.size ≤ MAX_REQ_SIZE → r.Same m.request) ∧
      (m.verdict = .ret 0 → segs.length = k + 1) := by
  obtain ⟨as, hc, bs, mc, c⟩ := h.exists_calls
  by_cases hok : m.headOut.1 = .ret 0
  · exact c.feed_over h hok
  · exact c.feed_refused h hok

end Ehttp
