import Ehttp.Http.Traces
import Ehttp.Parse.Memory

/-!
# `parse_request` on bytes

`Request::parse_request` with `http_parser_execute` under it, in place of the
callbacks it makes.

* `Execution.Made.sliced`, `Behind.headsInside`: what the traces of
  callbacks assume of `http_parser` holds of it;
* `parseRequest_spec`: one call on bytes is one on the callbacks, and never
  fails an assertion;
* `feed_receive`, `unparsed_refused`: call after call, whether the bytes are parsed
  or not.
-/

namespace Ehttp.Http

open Lib

/-- A `Request` and its `_parser`.  `none` is a parser that stopped in a callback
that failed: `http_errno` is set, and nothing else of it is read any more. -/
structure Reader where
  parser : Option Parser := some httpParserInit
  request : Request := {}
  deriving DecidableEq, Repr

/-- `http_parser_execute` with the callbacks of `_settings`; `none` is a failed assertion. -/
def Reader.execute (r : Reader) (data : Bytes) : Option (Exit × Reader) :=
  match r.parser with
  | none => some (.ret 0, r)
  | some c =>
    (httpParserExecute c data).map fun e =>
      match runAll httpCall e.calls r.request with
      | (none, request) => (.ret e.nparsed, ⟨some e.parser, request⟩)
      | (some (call, .ret _), request) => (.ret call.consumed, ⟨none, request⟩)
      | (some (_, .thrown), request) => (.thrown, ⟨none, request⟩)

/-- `parse_request`. -/
def parseRequest (data : Bytes) (r : Reader) : Option (Exit × Reader) :=
  let r := { r with
    request := { r.request with totalReqSize := r.request.totalReqSize + data.length } }
  if r.request.totalReqSize > MAX_REQ_SIZE then some (.ret (-1), r)
  else
    (r.execute data).map fun out =>
      match out with
      | (.thrown, r) => (.thrown, r)
      | (.ret nparsed, r) =>
        if nparsed ≠ data.length then (.ret (-1), r)
        else if r.request.parseErr ≠ 0 then (.ret r.request.parseErr, r)
        else if r.request.parsePart ≠ .over then (.ret NEED_MORE_STATUS, r)
        else (.ret 0, r)

/-- One `recv` after the other, until the request is over or refused. -/
def feed : Reader → List Bytes → Option (List Exit × Reader)
  | r, [] => some ([], r)
  | r, data :: pieces =>
    (parseRequest data r).bind fun out =>
      if out.1 = .ret NEED_MORE_STATUS then
        (feed out.2 pieces).map fun rest => (out.1 :: rest.1, rest.2)
      else some ([out.1], out.2)

/-! ## The callbacks of a call -/

section Calls

variable {c : Parser} {e : Execution} {data : Bytes}

theorem toCall_notice {t : Sent (DataKind × HttpParser) (HttpParser × Notice) UInt8} {x : Notice}
    (h : (toCall t).event = x.event) :
    t.output = .notice ((toCall t).parser, x) ∧ (toCall t).consumed = t.pos := by
  obtain ⟨output, pos⟩ := t
  cases output with
  | data y s =>
    obtain ⟨k, p⟩ := y
    cases k <;> cases x <;> cases h
  | notice y =>
    obtain ⟨p, y⟩ := y
    cases y <;> cases x <;> first | exact ⟨rfl, rfl⟩ | cases h

/-- **Notices.**  Each is one of the steps of some bytes at the front. -/
theorem Execution.Made.noticed (h : e.Made c data) {call : HttpCall} (hcall : call ∈ e.calls)
    {x : Notice} (hx : call.event = x.event) (n : Nat) :
    ∃ u rest ops c', data = u ++ rest ∧ scan byteStep c u = some (ops, c') ∧
      .notice ((call.parser, x), n + call.consumed) ∈ meaningOf (entryOps c ++ ops) none n := by
  obtain ⟨u, rest, ops, c', last, hsplit, hscan, hcalls, hmuted, -, -⟩ := h
  refine ⟨u, rest, ops, c', hsplit, hscan, ?_⟩
  rw [hcalls] at hcall
  obtain ⟨t, ht, rfl⟩ := List.mem_map.mp hcall
  obtain ⟨hout, hpos⟩ := toCall_notice hx
  rw [runBuffer, MarkOp.runOps_append] at ht
  rcases List.mem_append.mp ht with ht | ht
  · obtain ⟨htidy, -⟩ := tidy_buffer hscan n
    obtain ⟨s, -, hjoin⟩ := MarkOp.join_runOps channel Prod.fst (entryOps c ++ ops)
      (⟨fun _ => none, n⟩ : Marks DataKind UInt8) (none, n) [] ⟨rfl, fun _ => rfl, rfl⟩ htidy
    have hshift := MarkOp.runOps_shift channel Prod.fst (entryOps c ++ ops) (fun _ => none) n 0
    have hmem : .notice (((toCall t).parser, x), n + (toCall t).consumed) ∈
        (MarkOp.runOps channel Prod.fst (entryOps c ++ ops) ⟨fun _ => none, n + 0⟩).1.map
          (MarkOp.said channel) := by
      rw [hshift, List.map_map]
      refine List.mem_map.mpr ⟨t, ht, ?_⟩
      rw [Function.comp_apply, MarkOp.said, hout, hpos]
      rfl
    rw [meaningOf, ← Output.mem_join_notice]
    rw [MarkOp.pending, List.nil_append] at hjoin
    rw [← hjoin, Output.mem_join_notice]
    exact List.mem_append_left _ hmem
  · obtain ⟨er, hmem⟩ := MarkOp.notify_of_runOps channel Prod.fst last _ ht hout
    exact absurd hmem (hmuted _ er)

theorem data?_toCall (t : Sent (DataKind × HttpParser) (HttpParser × Notice) UInt8) :
    (toCall t).event.data? = MarkOp.data? t := by
  obtain ⟨output, pos⟩ := t
  cases output with
  | data x s =>
    obtain ⟨k, p⟩ := x
    cases k <;> rfl
  | notice x =>
    obtain ⟨p, x⟩ := x
    cases x <;> rfl

/-- **Data.**  It is cut out of the buffer, in disjoint slices. -/
theorem Execution.Made.sliced (h : e.Made c data) : Segment.Sliced ⟨data.length, e.calls⟩ := by
  obtain ⟨u, rest, ops, c', last, -, -, hcalls, -, htidy, behind, hbehind⟩ := h
  have hinside := (MarkOp.inside_runOps channel Prod.fst _ {} (none, 0) []
    (MarkOp.reads_start Prod.fst) htidy).append behind
  rw [List.nil_append, hbehind] at hinside
  obtain ⟨slices, hapart, hcut⟩ := Slice.exists_slices hinside
  refine ⟨data, slices, rfl, hapart, ?_⟩
  rw [← hcut]
  simp only [hcalls, List.filterMap_map]
  exact List.filterMap_congr fun t _ => data?_toCall t

theorem Execution.Made.received (h : e.Made c data) (hne : data ≠ [])
    (hfits : data.length ≤ SS_READ_BUFFER_SIZE) : Segment.Received ⟨data.length, e.calls⟩ :=
  ⟨List.length_pos_iff.mpr hne, hfits, h.sliced⟩

end Calls

theorem not_notice_entryOps (c : Parser) (x : (HttpParser × Notice) × Nat) (n : Nat) :
    .notice x ∉ meaningOf (entryOps c) none n := by
  unfold entryOps
  cases c.state.entryMark with
  | none => simp [meaningOf, MarkOp.meaning]
  | some k => simp [meaningOf, MarkOp.meaning, MarkOp.mean, Parser.mark]

/-- `c` is the parser behind the pieces. -/
structure Behind (pieces : List Bytes) (c : Parser) : Prop where
  nonempty : ∀ p ∈ pieces, p ≠ []
  receives : ∃ segs, receive httpParserInit pieces = some (segs, c)

theorem behind_nil : Behind [] httpParserInit := ⟨fun p hp => (by cases hp), [], rfl⟩

section Behind

variable {pieces : List Bytes} {c : Parser} {e : Execution} {data : Bytes}

theorem Behind.alive (h : Behind pieces c) : Alive c := by
  obtain ⟨segs, hrun⟩ := h.receives
  obtain ⟨ops, hscan, -, -⟩ := receive_init h.nonempty hrun
  exact running_scan (Or.inl running_init) hscan

theorem receive_snoc {c c₁ : Parser} {segs : List Segment} (hrun : receive c pieces = some (segs, c₁))
    (hexec : httpParserExecute c₁ data = some e) (hup : upgraded c₁ = false)
    (hread : e.nparsed = data.length) (hok : e.parser.httpErrno = .ok) :
    receive c (pieces ++ [data]) = some (segs ++ [⟨data.length, e.calls⟩], e.parser) := by
  induction pieces generalizing c segs with
  | nil =>
    simp only [receive, Option.some.injEq, Prod.mk.injEq] at hrun
    obtain ⟨rfl, rfl⟩ := hrun
    simp [receive, hexec, hup, hread, hok]
  | cons p pieces ih =>
    rw [receive] at hrun
    obtain ⟨e', he', hrun⟩ := Option.bind_eq_some_iff.mp hrun
    split at hrun
    · rename_i hgood
      obtain ⟨⟨segs', c₂⟩, hrest, heq⟩ := Option.map_eq_some_iff.mp hrun
      cases heq
      rw [List.cons_append, receive, he', Option.bind_some, if_pos hgood, ih hrest]
      rfl
    · cases hrun

theorem Behind.snoc (h : Behind pieces c) (hne : data ≠ []) (hexec : httpParserExecute c data = some e)
    (hup : upgraded c = false) (hread : e.nparsed = data.length) (hok : e.parser.httpErrno = .ok) :
    Behind (pieces ++ [data]) e.parser := by
  obtain ⟨segs, hrun⟩ := h.receives
  refine ⟨?_, _, receive_snoc hrun hexec hup hread hok⟩
  simp only [List.mem_append, List.mem_singleton]
  rintro p (hp | rfl)
  · exact h.nonempty p hp
  · exact hne

/-- A notice of the next call, among those of all the bytes. -/
theorem Behind.noticed (h : Behind pieces c) (hmade : e.Made c data) {call : HttpCall}
    (hcall : call ∈ e.calls) {x : Notice} (hx : call.event = x.event) :
    ∃ u rest ops c', data = u ++ rest ∧ scan byteStep httpParserInit (pieces.flatten ++ u) = some (ops, c') ∧
      .notice ((call.parser, x), pieces.flatten.length + call.consumed) ∈ meaningOf ops none 0 := by
  obtain ⟨segs, hrun⟩ := h.receives
  obtain ⟨front, hfront, -, -⟩ := receive_init h.nonempty hrun
  obtain ⟨-, htidy, d, hmeaning, hd⟩ := tracks_scan hfront none (Or.inl rfl) 0
  rw [Nat.zero_add] at hmeaning
  obtain ⟨u, rest, ops, c', hsplit, hscan, hmem⟩ := hmade.noticed hcall hx pieces.flatten.length
  refine ⟨u, rest, front ++ ops, c', hsplit, ?_, ?_⟩
  · rw [Scan.scan_append, hfront, Option.bind_some, hscan, Option.map_some]
  · have hu : u ≠ [] := by
      rintro rfl
      obtain rfl : ops = [] := by
        simp only [scan, Option.some.injEq, Prod.mk.injEq] at hscan
        exact hscan.1.symm
      rw [List.append_nil] at hmem
      exact not_notice_entryOps c _ _ hmem
    have hends := MarkOp.endsOn_meaning channel Prod.fst front (none, 0) [] endsOn_nil htidy
    rw [hmeaning, List.nil_append] at hends
    obtain ⟨hresume, -⟩ := MarkOp.meaning_resume channel Prod.fst _ d (entryOps c) ops
      pieces.flatten.length hends (resumes_scan hd hu hscan)
    rw [meaningOf, MarkOp.meaning_append, hmeaning, ← Output.mem_join_notice, ← hresume,
      Output.mem_join_notice]
    exact List.mem_append_right _ hmem

/-- The end of a head lies inside the buffer. -/
def HeadsInside (e : Execution) (data : Bytes) : Prop :=
  ∀ call ∈ e.calls, call.event = .headersComplete → call.consumed < data.length

theorem Behind.headsInside (h : Behind pieces c) (hmade : e.Made c data) : HeadsInside e data := by
  intro call hcall hevent
  obtain ⟨u, rest, ops, c', rfl, hscan, hmem⟩ := h.noticed hmade hcall (x := .headersComplete) hevent
  obtain ⟨ms, l, hle, hms, hpart, hsaid⟩ := messages_scan hscan
  have hmessages := bounded_messagesSaid 0 ms hms
  rw [Nat.zero_add] at hmessages
  have hbounded := ((hmessages.mono hle).append hpart.bounded).congr hsaid
  have hlt := (hbounded _ _ _ hmem).2 rfl
  rw [List.length_append] at hlt ⊢
  omega

end Behind

/-! ## One call -/

/-- Only the ends of the head and of the message fail. -/
theorem failed_httpCall {calls : List HttpCall} {r r' : Request} {call : HttpCall} {x : Exit}
    (h : runAll httpCall calls r = (some (call, x), r')) :
    call ∈ calls ∧ (call.event = .headersComplete ∧ x = .ret (-1) ∨
      call.event = .messageComplete ∧ (x ≠ .thrown → r'.parseErr = PARSE_MULTIPART_ERR)) := by
  induction calls generalizing r with
  | nil => simp [runAll] at h
  | cons c calls ih =>
    by_cases hok : (httpCall c r).1 = .ret 0
    · rw [RunAll.runAll_cons_ok httpCall c calls r hok] at h
      obtain ⟨hmem, hwhich⟩ := ih h
      exact ⟨List.mem_cons_of_mem _ hmem, hwhich⟩
    · rw [RunAll.runAll_cons_fail httpCall c calls r hok] at h
      simp only [Prod.mk.injEq, Option.some.injEq] at h
      obtain ⟨⟨rfl, rfl⟩, rfl⟩ := h
      refine ⟨List.mem_cons_self .., ?_⟩
      unfold httpCall at hok ⊢
      cases he : c.event with
      | url s => exact absurd rfl (by rw [he] at hok; exact hok)
      | headerField s =>
        rw [he] at hok
        simp [httpCallback, ssOnHeaderField_eq] at hok
      | headerValue s => exact absurd rfl (by rw [he] at hok; exact hok)
      | body s => exact absurd rfl (by rw [he] at hok; exact hok)
      | headersComplete =>
        rw [he] at hok
        exact Or.inl ⟨rfl, (headersComplete_ret r).resolve_left hok⟩
      | messageComplete =>
        rw [he] at hok
        simp only [httpCallback] at hok ⊢
        rw [ssOnMessageComplete_eq] at hok ⊢
        refine Or.inr ⟨trivial, fun hthrown => ?_⟩
        exact if_neg (not_or.mpr ⟨hok, hthrown⟩)

/-- What `http_parser_execute` returns when a callback failed. -/
def stopRet (call : HttpCall) : Exit → Exit
  | .ret _ => .ret call.consumed
  | .thrown => .thrown

theorem parsedExit_short {n : Nat} {nparsed : Int} (h : nparsed ≠ n) (r : Request) :
    (parsedExit n (.ret nparsed) r).ret = .ret (-1) := by
  rw [parsedExit, if_neg (by simp), if_pos (by simpa using h)]
  rfl

theorem parsedExit_more (n : Nat) {r : Request} (h : r.Open) :
    (parsedExit n (.ret n) r).ret = .ret NEED_MORE_STATUS := by
  rw [parsedExit, if_neg (by simp), if_neg (by simp), if_neg (c := r.parseErr ≠ 0) (by simpa using h.noErr),
    if_pos h.notOver]
  rfl

/-- What `parse_request` does on bytes: the guard, the callbacks, or one of them that fails. -/
inductive Parsed (c : Parser) (e : Execution) (data : Bytes) (r : Request) : Exit → Reader → Prop
  | tooBig : MAX_REQ_SIZE < r.totalReqSize + data.length →
    Parsed c e data r (.ret (-1)) ⟨some c, r.withSize (r.totalReqSize + data.length)⟩
  | called {r' : Request} : r.totalReqSize + data.length ≤ MAX_REQ_SIZE →
    runAll httpCall e.calls (r.withSize (r.totalReqSize + data.length)) = (none, r') →
    Parsed c e data r (parsedExit data.length (.ret e.nparsed) r').ret ⟨some e.parser, r'⟩
  | failed {r' : Request} {call : HttpCall} {x : Exit} :
    r.totalReqSize + data.length ≤ MAX_REQ_SIZE →
    runAll httpCall e.calls (r.withSize (r.totalReqSize + data.length)) = (some (call, x), r') →
    Parsed c e data r (parsedExit data.length (stopRet call x) r').ret ⟨none, r'⟩

section OneCall

variable {c : Parser} {e : Execution} {data : Bytes} {r : Request} {x : Exit} {s : Reader}

theorem parseRequest_executed {r s : Reader} (hsize : r.request.totalReqSize + data.length ≤ MAX_REQ_SIZE)
    (h : Reader.execute ⟨r.parser, r.request.withSize (r.request.totalReqSize + data.length)⟩ data =
      some (x, s)) :
    parseRequest data r = some ((parsedExit data.length x s.request).ret, s) := by
  have hnot : ¬ MAX_REQ_SIZE < r.request.totalReqSize + data.length := by omega
  simp only [Request.withSize] at h
  simp only [parseRequest, gt_iff_lt, hnot, ↓reduceIte, h, Option.map_some]
  cases x with
  | thrown => rfl
  | ret nparsed =>
    simp only [parsedExit, reduceCtorEq, ↓reduceIte, ne_eq, Exit.ret.injEq]
    split
    · rfl
    · split
      · rfl
      · split <;> rfl

/-- **One call.** -/
theorem parseRequest_parsed (h : httpParserExecute c data = some e) (r : Request) :
    ∃ x s, parseRequest data ⟨some c, r⟩ = some (x, s) ∧ Parsed c e data r x s := by
  rcases Nat.lt_or_ge MAX_REQ_SIZE (r.totalReqSize + data.length) with hbig | hsize
  · refine ⟨_, _, ?_, .tooBig hbig⟩
    simp only [parseRequest, gt_iff_lt, hbig, ↓reduceIte]
    rfl
  · obtain ⟨out, r', hrun⟩ : ∃ out r', runAll httpCall e.calls
        (r.withSize (r.totalReqSize + data.length)) = (out, r') := ⟨_, _, rfl⟩
    cases out with
    | none =>
      refine ⟨_, ⟨some e.parser, r'⟩, parseRequest_executed hsize ?_, .called hsize hrun⟩
      simp only [Reader.execute, h, Option.map_some, hrun]
    | some out =>
      obtain ⟨call, y⟩ := out
      refine ⟨_, ⟨none, r'⟩, parseRequest_executed (x := stopRet call y) hsize ?_, .failed hsize hrun⟩
      simp only [Reader.execute, h, Option.map_some, hrun]
      cases y <;> rfl

theorem Parsed.request (h : Parsed c e data r x s) :
    s.request = (parseRequestExit ⟨data.length, e.calls⟩ r).2 := by
  rw [parseRequestExit_request]
  cases h with
  | tooBig hbig => rw [if_pos hbig]
  | called hsize hrun | failed hsize hrun =>
    rw [if_neg (Nat.not_lt.mpr hsize)]
    rw [runAll_withSize] at hrun
    exact (congrArg Prod.snd hrun).symm

/-- All of the buffer is read: the call is that on the callbacks. -/
theorem Parsed.read (h : Parsed c e data r x s) (hread : e.nparsed = data.length) :
    Ehttp.parseRequest ⟨data.length, e.calls⟩ r = (x, s.request) := by
  rw [parseRequest_eq_exit, ← h.request]
  have hexit : ∀ (y : Exit) (r' : Request), r.totalReqSize + data.length ≤ MAX_REQ_SIZE →
      Ehttp.httpParserExecute ⟨data.length, e.calls⟩ (r.withSize (r.totalReqSize + data.length)) = (y, r') →
      (parseRequestExit ⟨data.length, e.calls⟩ r).1 = parsedExit data.length y r' := by
    intro y r' hsize hexec
    rw [parseRequestExit_eq ⟨data.length, e.calls⟩ r y r' hsize hexec]
  cases h with
  | tooBig hbig => rw [(tooBig_iff ⟨data.length, e.calls⟩ r).mpr hbig, ParseExit.ret]
  | @called r' hsize hrun =>
    rw [hread, hexit (.ret data.length) r' hsize (by simp only [Ehttp.httpParserExecute, hrun])]
  | @failed r' call y hsize hrun =>
    rw [hexit (stopRet call y) r' hsize ?_]
    simp only [Ehttp.httpParserExecute, hrun]
    cases y <;> rfl

/-- A callback that fails ends the request. -/
theorem stopped_ret {r r' : Request} {call : HttpCall} {y : Exit} (hinside : HeadsInside e data)
    (hrun : runAll httpCall e.calls r = (some (call, y), r')) :
    (parsedExit data.length (stopRet call y) r').ret = .ret (-1) ∨
      call.event = .messageComplete ∧
        ((parsedExit data.length (stopRet call y) r').ret = .ret PARSE_MULTIPART_ERR ∨
          (parsedExit data.length (stopRet call y) r').ret = .thrown) := by
  obtain ⟨hmem, ⟨hevent, rfl⟩ | ⟨hevent, herr⟩⟩ := failed_httpCall hrun
  · have hlt := hinside call hmem hevent
    exact Or.inl (parsedExit_short (by omega) r')
  · cases y with
    | thrown => exact Or.inr ⟨hevent, Or.inr rfl⟩
    | ret code =>
      rw [parsedExit, if_neg (by simp [stopRet])]
      split
      · exact Or.inl rfl
      · rw [if_pos (by rw [herr (by simp)]; decide), ParseExit.ret, herr (by simp)]
        exact Or.inr ⟨hevent, Or.inl rfl⟩

/-- The last callback is that of the end of a message, and none fails. -/
theorem over_of_ended {r r' : Request} {front : List HttpCall} {call : HttpCall}
    (hcalls : e.calls = front ++ [call]) (hevent : call.event = .messageComplete)
    (hrun : runAll httpCall e.calls r = (none, r')) : r'.parsePart = .over := by
  rw [hcalls] at hrun
  have hfront := RunAll.runAll_append_none httpCall front [call] r (by rw [hrun])
  rw [RunAll.runAll_append_ok httpCall _ _ r hfront] at hrun
  generalize (runAll httpCall front r).2 = mid at hrun
  have hcall : httpCall call mid = ssOnMessageComplete mid := by
    rw [httpCall, hevent]
    rfl
  by_cases hok : (httpCall call mid).1 = .ret 0
  · rw [RunAll.runAll_cons_ok httpCall call [] mid hok, RunAll.runAll_nil] at hrun
    rw [← (Prod.mk.inj hrun).2]
    rw [hcall, ssOnMessageComplete_eq] at hok ⊢
    exact if_neg (by simp only at hok; simp [hok])
  · rw [RunAll.runAll_cons_fail httpCall call [] mid hok] at hrun
    cases hrun

/-- A callback that succeeds reports no error. -/
theorem parseErr_httpCall {call : HttpCall} {r : Request} (hok : (httpCall call r).1 = .ret 0) :
    (httpCall call r).2.parseErr = r.parseErr := by
  unfold httpCall at hok ⊢
  cases he : call.event with
  | url s | headerValue s | body s => rfl
  | headerField s =>
    simp only [httpCallback, ssOnHeaderField_eq]
    unfold pushHeaderField Request.inHead
    split <;> split <;> rfl
  | headersComplete =>
    rw [he] at hok
    exact parseErr_headersComplete r hok
  | messageComplete =>
    rw [he] at hok
    simp only [httpCallback] at hok ⊢
    rw [ssOnMessageComplete_eq] at hok ⊢
    exact if_pos (Or.inl hok)

theorem parseErr_runAll {calls : List HttpCall} {r r' : Request} (h : runAll httpCall calls r = (none, r')) :
    r'.parseErr = r.parseErr := by
  have hrun := RunAll.runAll_invariant httpCall (fun s => s.parseErr = r.parseErr) calls
    (fun call _ s hs hok => (parseErr_httpCall hok).trans hs) r rfl (by rw [h])
  rwa [h] at hrun

/-- What a call that asks for more has done. -/
structure Continued (e : Execution) (data : Bytes) (r : Request) (s : Reader) : Prop where
  read : e.nparsed = data.length
  notUpgraded : upgraded e.parser = false
  parser : s.parser = some e.parser
  asked : Ehttp.parseRequest ⟨data.length, e.calls⟩ r = (.ret NEED_MORE_STATUS, s.request)
  openRequest : s.request.Open

theorem Parsed.continued (h : Parsed c e data r (.ret NEED_MORE_STATUS) s) (hr : r.parseErr = 0)
    (hinside : HeadsInside e data)
    (hcase : (∃ u rest, e.Scanned c data u rest) ∨ e.Failed c data) : Continued e data r s := by
  generalize hx : Exit.ret NEED_MORE_STATUS = x at h
  have hreads := h.read
  cases h with
  | tooBig hbig => exact absurd hx (by decide)
  | @called r' hsize hrun =>
    have herr : r'.parseErr = 0 := (parseErr_runAll hrun).trans hr
    have hopen : e.nparsed = data.length ∧ r'.parsePart ≠ .over := by
      rw [parsedExit, if_neg (by simp), if_neg (c := r'.parseErr ≠ 0) (by simp [herr])] at hx
      split at hx
      · exact absurd hx (by decide)
      · rename_i hne
        split at hx
        · rename_i hover
          exact ⟨by simpa using hne, hover⟩
        · exact absurd hx (by decide)
    have hup : upgraded e.parser = false := by
      rcases hcase with ⟨u, rest, hscanned⟩ | hfailed
      · rw [Bool.eq_false_iff]
        intro hup
        obtain ⟨front, call, hcalls, hevent⟩ := hscanned.ended hup
        exact hopen.2 (over_of_ended hcalls hevent hrun)
      · have := hfailed.nparsed
        omega
    exact ⟨hopen.1, hup, rfl, by rw [hx]; exact hreads hopen.1, herr, hopen.2⟩
  | @failed r' call y hsize hrun =>
    rcases stopped_ret hinside hrun with hstop | ⟨-, hstop | hstop⟩
    · rw [hstop] at hx
      exact absurd hx (by decide)
    · rw [hstop] at hx
      exact absurd hx (by decide)
    · rw [hstop] at hx
      exact absurd hx (by decide)

end OneCall

/-! ## Call after call -/

/-- One more piece, from a parser that is not done. -/
theorem Behind.executed {pieces : List Bytes} {c : Parser} (h : Behind pieces c)
    (hup : upgraded c = false) {data : Bytes} (hne : data ≠ []) :
    ∃ e, httpParserExecute c data = some e ∧ e.Made c data ∧
      ((∃ u rest, e.Scanned c data u rest) ∨ e.Failed c data) ∧
      (e.nparsed = data.length → upgraded e.parser = false → Behind (pieces ++ [data]) e.parser) := by
  obtain ⟨e, hexec, hmade, hcase⟩ := execute_scan (h.alive.running hup) hne
  refine ⟨e, hexec, hmade, hcase, fun hread _ => h.snoc hne hexec hup hread ?_⟩
  rcases hcase with ⟨u, rest, hscanned⟩ | hfailed
  · obtain ⟨ops, hscan, -⟩ := hscanned.steps
    exact (running_scan h.alive hscan).ok.2
  · have := hfailed.nparsed
    omega

/-- The first piece of an accepted request. -/
theorem feed_cons_accepted {k : Nat} {data : Bytes} {pieces : List Bytes} {r s : Reader}
    (h : feed r (data :: pieces) = some (List.replicate k (.ret NEED_MORE_STATUS) ++ [.ret 0], s)) :
    (∃ t j, k = j + 1 ∧ parseRequest data r = some (.ret NEED_MORE_STATUS, t) ∧
      feed t pieces = some (List.replicate j (.ret NEED_MORE_STATUS) ++ [.ret 0], s)) ∨
    (k = 0 ∧ parseRequest data r = some (.ret 0, s)) := by
  obtain ⟨⟨x, t⟩, hparse, h⟩ := Option.bind_eq_some_iff.mp h
  simp only at h
  split at h
  · rename_i hmore
    subst hmore
    obtain ⟨⟨xs, t'⟩, hrest, h⟩ := Option.map_eq_some_iff.mp h
    cases k with
    | zero => simp [NEED_MORE_STATUS] at h
    | succ j =>
      simp only [List.replicate_succ, List.cons_append, Prod.mk.injEq, List.cons.injEq] at h
      obtain ⟨⟨-, rfl⟩, rfl⟩ := h
      exact Or.inl ⟨t, j, rfl, hparse, hrest⟩
  · rename_i hlast
    cases k with
    | zero =>
      simp only [List.replicate_zero, List.nil_append, Option.some.injEq, Prod.mk.injEq, List.cons.injEq,
        and_true] at h
      obtain ⟨rfl, rfl⟩ := h
      exact Or.inr ⟨rfl, hparse⟩
    | succ j =>
      simp only [List.replicate_succ, List.cons_append, Option.some.injEq, Prod.mk.injEq,
        List.cons.injEq] at h
      exact absurd h.1.1 hlast

/-- **Bytes that are parsed.**  The returns of `parse_request` are those on the
callbacks. -/
theorem feed_receive {front pieces : List Bytes} {c c' : Parser} {segs : List Segment}
    (h : Behind front c) (hne : ∀ p ∈ pieces, p ≠ []) (hrun : receive c pieces = some (segs, c'))
    {r : Request} (hr : r.parseErr = 0) :
    ∃ s, feed ⟨some c, r⟩ pieces = some ((Ehttp.feed r segs).1, s) ∧
      s.request = (Ehttp.feed r segs).2 := by
  induction pieces generalizing front c segs r with
  | nil =>
    simp only [receive, Option.some.injEq, Prod.mk.injEq] at hrun
    obtain ⟨rfl, rfl⟩ := hrun
    exact ⟨_, rfl, rfl⟩
  | cons data pieces ih =>
    rw [receive] at hrun
    obtain ⟨e', he', hrun⟩ := Option.bind_eq_some_iff.mp hrun
    split at hrun
    · rename_i hgood
      obtain ⟨hup, hread, -⟩ := hgood
      obtain ⟨⟨segs', c₂⟩, hrest, heq⟩ := Option.map_eq_some_iff.mp hrun
      cases heq
      have hdata := hne data (List.mem_cons_self ..)
      obtain ⟨e, hexec, hmade, hcase, hbehind⟩ := h.executed hup hdata
      obtain rfl : e' = e := Option.some.inj (he'.symm.trans hexec)
      obtain ⟨x, s, hparse, hparsed⟩ := parseRequest_parsed hexec r
      have hsegment := hparsed.read hread
      by_cases hx : x = .ret NEED_MORE_STATUS
      · subst hx
        have hcont := hparsed.continued hr (h.headsInside hmade) hcase
        obtain ⟨p, request⟩ := s
        obtain rfl : p = _ := hcont.parser
        obtain ⟨s', hfeed, hreq⟩ := ih (hbehind hread hcont.notUpgraded)
          (fun p hp => hne p (List.mem_cons_of_mem _ hp)) hrest hcont.openRequest.noErr
        rw [feed_cons_more _ _ _ _ hsegment]
        refine ⟨s', ?_, hreq⟩
        rw [feed, hparse, Option.bind_some, if_pos rfl, hfeed]
        rfl
      · rw [feed_cons_last _ _ _ _ _ hsegment hx]
        refine ⟨s, ?_, rfl⟩
        rw [feed, hparse, Option.bind_some, if_neg hx]
    · cases hrun

/-- **A message in bytes.**  However the bytes of one message are cut, all
returns but the last ask for more, the last is the verdict on the message, and
the request has its content. -/
theorem feed_message {w : Bytes} {m : Message} (h : OneMessage w m) (pieces : List Bytes)
    (hne : ∀ p ∈ pieces, p ≠ []) (hflat : pieces.flatten = w) :
    ∃ k s, feed {} pieces = some (List.replicate k (.ret NEED_MORE_STATUS) ++ [m.verdict], s) ∧
      (m.size ≤ MAX_REQ_SIZE → s.request.Same m.request) ∧
      (m.verdict = .ret 0 → pieces.length = k + 1) := by
  obtain ⟨segs, c, hreceive, hsizes, htrace⟩ := trace_pieces h pieces hne hflat
  obtain ⟨s, hfeed, hreq⟩ := feed_receive behind_nil hne hreceive (r := {}) rfl
  obtain ⟨k, r, hall, hsame, hlength⟩ := feed_trace m segs htrace
  rw [hall] at hfeed hreq
  refine ⟨k, s, hfeed, fun hsize => by rw [hreq]; exact hsame hsize, fun hok => ?_⟩
  rw [← hlength hok, ← List.length_map (f := Segment.readSize), hsizes, List.length_map]

/-! ## Bytes that are no request -/

/-- No message is complete in any of the bytes that are parsed. -/
def Unfinished (w : Bytes) : Prop :=
  ∀ u ops c, u <+: w → scan byteStep httpParserInit u = some (ops, c) →
    ∀ q k, .notice ((q, .messageComplete), k) ∉ meaningOf ops none 0

/-- What becomes of a request that is not complete. -/
theorem feed_unfinished {front pieces : List Bytes} {c : Parser} (h : Behind front c)
    (hup : upgraded c = false) (hne : ∀ p ∈ pieces, p ≠ [])
    (hun : Unfinished (front.flatten ++ pieces.flatten)) {r : Request} (hr : r.Open) :
    ∃ k s, feed ⟨some c, r⟩ pieces = some (List.replicate k (.ret NEED_MORE_STATUS) ++ [.ret (-1)], s) ∧
        k < pieces.length ∨
      feed ⟨some c, r⟩ pieces = some (List.replicate k (.ret NEED_MORE_STATUS), s) ∧
        k = pieces.length ∧ scan byteStep c pieces.flatten ≠ none := by
  induction pieces generalizing front c r with
  | nil => exact ⟨0, ⟨some c, r⟩, Or.inr ⟨rfl, rfl, by simp [scan]⟩⟩
  | cons data pieces ih =>
    have hdata := hne data (List.mem_cons_self ..)
    obtain ⟨e, hexec, hmade, hcase, hbehind⟩ := h.executed hup hdata
    have hcalls : ∀ call ∈ e.calls, call.event ≠ .messageComplete := by
      intro call hcall hevent
      obtain ⟨u, rest, ops, c', rfl, hscan, hmem⟩ :=
        h.noticed hmade hcall (x := .messageComplete) hevent
      refine hun _ ops c' ⟨rest ++ pieces.flatten, ?_⟩ hscan _ _ hmem
      rw [List.flatten_cons, List.append_assoc, List.append_assoc]
    obtain ⟨x, s, hparse, hparsed⟩ := parseRequest_parsed hexec r
    have hrefused : x = .ret (-1) → feed ⟨some c, r⟩ (data :: pieces) = some ([.ret (-1)], s) := by
      rintro rfl
      rw [feed, hparse, Option.bind_some, if_neg (by simp [NEED_MORE_STATUS])]
    cases hparsed with
    | tooBig hbig => exact ⟨0, _, Or.inl ⟨hrefused rfl, by simp⟩⟩
    | @failed r' call y hsize hrun =>
      rcases stopped_ret (h.headsInside hmade) hrun with hstop | ⟨hevent, -⟩
      · exact ⟨0, _, Or.inl ⟨hrefused hstop, by simp⟩⟩
      · exact absurd hevent (hcalls call (failed_httpCall hrun).1)
    | @called r' hsize hrun =>
      have hopen := runAll_open e.calls _ (hr.withSize (r.totalReqSize + data.length)) hcalls (by rw [hrun])
      rw [hrun] at hopen
      rcases hcase with ⟨u, rest, hscanned⟩ | hfailed
      · have hup' : upgraded e.parser = false := by
          rw [Bool.eq_false_iff]
          intro hup'
          obtain ⟨as, call, hlast, hevent⟩ := hscanned.ended hup'
          exact hcalls call (by rw [hlast]; simp) hevent
        obtain rfl := hscanned.rest hup'
        obtain rfl : data = u := hscanned.split.trans (List.append_nil u)
        obtain ⟨ops, hscan, -⟩ := hscanned.steps
        rw [hscanned.nparsed, parsedExit_more data.length hopen] at hparse
        have hfeed : ∀ xs s', feed ⟨some e.parser, r'⟩ pieces = some (xs, s') →
            feed ⟨some c, r⟩ (data :: pieces) = some (.ret NEED_MORE_STATUS :: xs, s') := by
          intro xs s' hrest
          rw [feed, hparse, Option.bind_some, if_pos rfl, hrest]
          rfl
        have hflat : (front ++ [data]).flatten ++ pieces.flatten =
            front.flatten ++ (data :: pieces).flatten := by simp
        obtain ⟨k, s', ⟨hrest, hlt⟩ | ⟨hrest, hlen, hparsed⟩⟩ := ih (hbehind hscanned.nparsed hup')
          hup' (fun p hp => hne p (List.mem_cons_of_mem _ hp)) (by rwa [hflat]) hopen
        · exact ⟨k + 1, s', Or.inl ⟨hfeed _ _ hrest, by simpa using hlt⟩⟩
        · refine ⟨k + 1, s', Or.inr ⟨hfeed _ _ hrest, by simp [hlen], ?_⟩⟩
          rw [List.flatten_cons, Scan.scan_append, hscan, Option.bind_some]
          simpa using hparsed
      · have hlt := hfailed.nparsed
        exact ⟨0, _, Or.inl ⟨hrefused (parsedExit_short (by omega) r'), by simp⟩⟩

/-- **Bytes that are not parsed are refused.**  However they are cut, if no message
is complete before the byte in error, all returns but the last ask for more and
the last is -1. -/
theorem unparsed_refused (pieces : List Bytes) (hne : ∀ p ∈ pieces, p ≠ [])
    (hbad : scan byteStep httpParserInit pieces.flatten = none) (hun : Unfinished pieces.flatten) :
    ∃ k s, feed {} pieces = some (List.replicate k (.ret NEED_MORE_STATUS) ++ [.ret (-1)], s) ∧
      k < pieces.length := by
  obtain ⟨k, s, hrefused | ⟨-, -, hparsed⟩⟩ :=
    feed_unfinished behind_nil rfl hne (by simpa using hun) (r := {}) ⟨rfl, by decide⟩
  · exact ⟨k, s, hrefused⟩
  · exact absurd hbad hparsed

theorem unparsed_refused_method :
    ∃ k s, feed {} [bytes "G", bytes "X /"] =
        some (List.replicate k (.ret NEED_MORE_STATUS) ++ [.ret (-1)], s) ∧ k < 2 := by
  have hflat : [bytes "G", bytes "X /"].flatten = [71, 88, 32, 47] := by decide +kernel
  have hbad : ∀ rest, scan byteStep httpParserInit (71 :: 88 :: rest) = none := fun rest => rfl
  refine unparsed_refused _ (by decide +kernel) (by rw [hflat]; exact hbad _) fun u ops c hu hscan q k hmem => ?_
  rw [hflat] at hu
  have hshort : ∀ u ∈ List.inits [71, 88, 32, 47], (71 : UInt8) :: 88 :: u.drop 2 = u ∨ u = [] ∨ u = [71] := by
    decide +kernel
  rcases hshort u ((List.mem_inits _ _).mpr hu) with h | rfl | rfl
  · rw [← h, hbad] at hscan
    cases hscan
  · cases hscan
    cases hmem
  · have hone : (scan byteStep httpParserInit [71]).map Prod.fst = some [.pass [71]] := rfl
    rw [hscan] at hone
    cases hone
    simp [meaningOf, MarkOp.meaning, MarkOp.mean] at hmem

/-! ## What a connection holds -/

/-- Nothing has failed, and no more is stored than was read. -/
structure Sound (pieces : List Bytes) (r : Reader) : Prop where
  behind : ∃ c, r.parser = some c ∧ Behind pieces c ∧ upgraded c = false
  noErr : r.request.parseErr = 0
  counted : r.request.totalReqSize = pieces.flatten.length
  small : pieces.flatten.length ≤ MAX_REQ_SIZE
  stored : r.request.stored ≤ pieces.flatten.length

/-- The returns of `parse_request`, `PARSE_LEN_REQUIRED` not among them. -/
def parseReturns : List Exit :=
  [.ret 0, .ret NEED_MORE_STATUS, .ret (-1), .ret PARSE_MULTIPART_ERR, .thrown]

theorem Parsed.returns {c : Parser} {e : Execution} {data : Bytes} {r : Request} {x : Exit} {s : Reader}
    (h : Parsed c e data r x s) (hr : r.parseErr = 0) (hinside : HeadsInside e data) :
    x ∈ parseReturns := by
  cases h with
  | tooBig hbig => decide
  | @called r' hsize hrun =>
    have herr : r'.parseErr = 0 := (parseErr_runAll hrun).trans hr
    rw [parsedExit, if_neg (by simp), if_neg (c := r'.parseErr ≠ 0) (by simp [herr])]
    split
    · decide
    · split
      · decide
      · decide
  | @failed r' call y hsize hrun =>
    rcases stopped_ret hinside hrun with hstop | ⟨-, hstop | hstop⟩
    · rw [hstop]; decide
    · rw [hstop]; decide
    · rw [hstop]; decide

/-- The next `recv`. -/
theorem Sound.recv {pieces : List Bytes} {r : Reader} (h : Sound pieces r) {data : Bytes} (hne : data ≠ [])
    (hfits : data.length ≤ SS_READ_BUFFER_SIZE) :
    ∃ x s, parseRequest data r = some (x, s) ∧ x ∈ parseReturns ∧
      (MAX_REQ_SIZE < pieces.flatten.length + data.length → x = .ret (-1)) ∧
      s.request.totalReqSize = pieces.flatten.length + data.length ∧
      s.request.stored ≤ pieces.flatten.length + data.length ∧
      (x = .ret NEED_MORE_STATUS → Sound (pieces ++ [data]) s) := by
  obtain ⟨c, hparser, hbehind, hup⟩ := h.behind
  obtain ⟨parser, request⟩ := r
  obtain rfl : parser = some c := hparser
  have hcounted := h.counted
  have hstored := h.stored
  simp only at hcounted hstored
  obtain ⟨e, hexec, hmade, hcase, hmore⟩ := hbehind.executed hup hne
  obtain ⟨x, s, hparse, hparsed⟩ := parseRequest_parsed hexec request
  have hinside := hbehind.headsInside hmade
  obtain ⟨htotal, hadds⟩ := parseRequestExit_adds ⟨data.length, e.calls⟩ request (hmade.received hne hfits)
  rw [← hparsed.request] at htotal hadds
  simp only at htotal hadds
  have hbig : MAX_REQ_SIZE < pieces.flatten.length + data.length → x = .ret (-1) := by
    intro hbig
    cases hparsed with
    | tooBig _ => rfl
    | called hsize _ | failed hsize _ =>
      rw [hcounted] at hsize
      omega
  refine ⟨x, s, hparse, hparsed.returns h.noErr hinside, hbig, by rw [htotal, hcounted], by omega, ?_⟩
  rintro rfl
  have hcont := hparsed.continued h.noErr hinside hcase
  have hflat : (pieces ++ [data]).flatten.length = pieces.flatten.length + data.length := by simp
  have hsmall : ¬ MAX_REQ_SIZE < pieces.flatten.length + data.length := by
    intro hno
    exact absurd (hbig hno) (by decide)
  exact ⟨⟨e.parser, hcont.parser, hmore hcont.read hcont.notUpgraded, hcont.notUpgraded⟩,
    hcont.openRequest.noErr, by omega, by omega, by omega⟩

end Ehttp.Http
