import Ehttp.Http.Bulk

/-!
# `http_parser_execute`, buffer after buffer

* `execute_scan`: a call is the steps of the bytes it reads, or ends in an error;
* `receive_scan`: so are the calls on the pieces of some bytes;
* `receive_cut`: how the bytes are cut does not show, except in where the data
  callbacks are cut.
-/

namespace Ehttp.Http

open Lib

/-! ## One call -/

abbrev Said : Type := Output Channel ((HttpParser × Notice) × Nat) UInt8

/-- What a callback says: its data, or where a notice is. -/
def said (c : HttpCall) : Said :=
  match c.event with
  | .url s => .data (.url, none) s
  | .headerField s => .data (.headerField, some c.parser) s
  | .headerValue s => .data (.headerValue, some c.parser) s
  | .body s => .data (.body, some c.parser) s
  | .headersComplete => .notice ((c.parser, .headersComplete), c.consumed)
  | .messageComplete => .notice ((c.parser, .messageComplete), c.consumed)

/-- What the steps say from channel `d` on. -/
abbrev meaningOf (ops : List Op) (d : Option Channel) (n : Nat) : List Said :=
  (MarkOp.meaning channel Prod.fst ops (d, n)).1

theorem said_toCall (t : Sent (DataKind × HttpParser) (HttpParser × Notice) UInt8) :
    said (toCall t) = MarkOp.said channel t := by
  obtain ⟨output, pos⟩ := t
  cases output with
  | data x s =>
    obtain ⟨k, p⟩ := x
    cases k <;> rfl
  | notice e =>
    obtain ⟨p, e⟩ := e
    cases e <;> rfl

theorem oneMark_reads {m : Marks DataKind UInt8} {r : MarkOp.Reading Channel} {s : Bytes}
    (h : MarkOp.Reads Prod.fst m r s) : oneMark m = true := by
  obtain ⟨d, n⟩ := r
  obtain ⟨-, h⟩ := h
  cases d with
  | none =>
    obtain ⟨hnone, -⟩ := h
    simp [oneMark, hnone]
  | some d =>
    obtain ⟨k, p⟩ := d
    obtain ⟨hsome, hother⟩ := h
    simp only at hsome hother
    cases k <;> simp [oneMark, hsome, hother]

theorem oneMark_runBuffer {ops : List Op} (h : MarkOp.TidyOps channel Prod.fst ops (none, 0)) :
    oneMark (runBuffer ops).2 = true := by
  obtain ⟨s, hreads, -⟩ :=
    MarkOp.join_runOps channel Prod.fst ops {} (none, 0) [] (MarkOp.reads_start Prod.fst) h
  exact oneMark_reads hreads

/-- What the operations on a buffer say, where nothing stays marked. -/
theorem join_runBuffer {ops : List Op} (n : Nat)
    (htidy : MarkOp.TidyOps channel Prod.fst ops (none, n))
    (hnone : (MarkOp.meaning channel Prod.fst ops (none, n)).2.1 = none) :
    Output.join ((((runBuffer ops).1.map toCall).map said).map (MarkOp.shift n)) =
      Output.join (MarkOp.meaning channel Prod.fst ops (none, n)).1 := by
  obtain ⟨s, -, hjoin⟩ := MarkOp.join_runOps channel Prod.fst ops
    (⟨fun _ => none, n⟩ : Marks DataKind UInt8) (none, n) [] ⟨rfl, fun _ => rfl, rfl⟩ htidy
  have hsaid : ((runBuffer ops).1.map toCall).map said =
      (runBuffer ops).1.map (MarkOp.said channel) := by
    rw [List.map_map]
    exact List.map_congr_left fun t _ => said_toCall t
  have hshift := MarkOp.runOps_shift channel Prod.fst ops (fun _ => none) n 0
  rw [hnone] at hjoin
  rw [hsaid]
  simp only [MarkOp.pending, List.append_nil, List.nil_append] at hjoin
  rw [← hjoin, ← Nat.add_zero n, hshift, Nat.add_zero]
  rfl

/-- The call read `u`, all of the buffer unless the rest is for another protocol. -/
structure Execution.Scanned (e : Execution) (c : Parser) (data u rest : Bytes) : Prop where
  split : data = u ++ rest
  nonempty : u ≠ []
  nparsed : e.nparsed = u.length
  rest : upgraded e.parser = false → rest = []
  ended : upgraded e.parser = true → ∃ front call, e.calls = front ++ [call] ∧
    call.event = .messageComplete
  steps : ∃ ops, scan byteStep c u = some (ops, e.parser) ∧ ∀ n,
    Output.join ((e.calls.map said).map (MarkOp.shift n)) =
      Output.join (MarkOp.meaning channel Prod.fst (entryOps c ++ ops) (none, n)).1

/-- The call stopped at a byte in error. -/
structure Execution.Failed (e : Execution) (c : Parser) (data : Bytes) : Prop where
  nparsed : e.nparsed < data.length
  errno : e.parser.httpErrno ≠ .ok
  steps : scan byteStep c data = none

/-- The operations of a buffer are tidy, and leave a mark that the state tells. -/
theorem tidy_buffer {c c' : Parser} {u : Bytes} {ops : List Op}
    (h : scan byteStep c u = some (ops, c')) (n : Nat) :
    MarkOp.TidyOps channel Prod.fst (entryOps c ++ ops) (none, n) ∧
      ∃ d, (MarkOp.meaning channel Prod.fst (entryOps c ++ ops) (none, n)).2 = (d, n + u.length) ∧
        Marked c' d := by
  obtain ⟨hentry, hchannel⟩ := entryOps_tidy c n
  obtain ⟨-, htidy, d, hmeaning, hd⟩ := tracks_scan h (entryChannel c) (marked_entry c) n
  rw [MarkOp.tidyOps_append, MarkOp.meaning_append, hchannel]
  exact ⟨⟨hentry, htidy⟩, d, hmeaning, hd⟩

/-- The calls are those of the steps of some bytes at the front of the buffer,
and of operations without a notice. -/
def Execution.Made (e : Execution) (c : Parser) (data : Bytes) : Prop :=
  ∃ u rest ops c' last, data = u ++ rest ∧ scan byteStep c u = some (ops, c') ∧
    e.calls = (runBuffer (entryOps c ++ ops ++ last)).1.map toCall ∧ MarkOp.Muted last ∧
    MarkOp.TidyOps channel Prod.fst (entryOps c ++ ops ++ last) (none, 0) ∧
    MarkOp.passed (entryOps c ++ ops ++ last) <+: data

theorem passed_buffer {c c' : Parser} {u : Bytes} {ops : List Op}
    (h : scan byteStep c u = some (ops, c')) : MarkOp.passed (entryOps c ++ ops) = u := by
  have hentry : MarkOp.passed (entryOps c) = [] := by
    unfold entryOps
    cases c.state.entryMark <;> rfl
  rw [MarkOp.passed_append, hentry, (tracks_scan h (entryChannel c) (marked_entry c) 0).1, List.nil_append]

theorem muted_leftoverOps (c : Parser) : MarkOp.Muted (leftoverOps c) := by
  simp [MarkOp.Muted, leftoverOps, Parser.callbackDataNoadvance]

/-- **A call** fails no assertion, and is the steps of the bytes it reads. -/
theorem execute_scan {c : Parser} (h : Running c) {data : Bytes} (hne : data ≠ []) :
    ∃ e, httpParserExecute c data = some e ∧ e.Made c data ∧
      ((∃ u rest, e.Scanned c data u rest) ∨ e.Failed c data) := by
  unfold httpParserExecute
  rw [if_neg (by simp [h.fine.2]), if_neg hne]
  simp only
  rcases loop_scan h data.length data (Nat.le_refl _) with ⟨u, ⟨hsplit, hout, ops, hscan, halike⟩, hend⟩ | hfail
  · generalize loop data.length c data = t at hsplit hout hscan halike hend
    have hops : MarkOp.Alike channel Prod.fst (entryOps c ++ t.ops) (entryOps c ++ ops) :=
      MarkOp.Alike.append (fun _ => rfl) halike
    have halive := running_scan (Or.inl h) hscan
    have hcalls : ∀ as bs, MarkOp.Alike channel Prod.fst as bs → runBuffer as = runBuffer bs :=
      fun as bs hab => hab {}
    cases hup : upgraded t.parser with
    | true =>
      rw [hup] at hout
      simp only [↓reduceIte] at hout
      simp only [hout]
      refine ⟨_, rfl, ⟨u, t.p, ops, t.parser, [], hsplit, hscan, ?_, MarkOp.muted_nil, ?_, ?_⟩,
        Or.inl ⟨u, t.p, hsplit, ?_, ?_, fun hno => ?_, fun _ => ?_, ops, hscan, fun n => ?_⟩⟩
      · rw [List.append_nil, hcalls _ _ hops]
      · rw [List.append_nil]
        exact (tidy_buffer hscan 0).1
      · rw [List.append_nil, passed_buffer hscan, hsplit]
        exact List.prefix_append u t.p
      · rintro rfl
        simp only [scan, Option.some.injEq, Prod.mk.injEq] at hscan
        rw [← hscan.2, h.notUpgraded] at hup
        cases hup
      · rw [hsplit, List.length_append, Nat.add_sub_cancel]
      · simp only [hup] at hno
        cases hno
      · obtain ⟨q, hends⟩ := completes_scan h hscan hup
        obtain ⟨sent, k, hsent⟩ := MarkOp.runOps_endsIn channel Prod.fst (hends.append (entryOps c)) {}
        rw [hcalls _ _ hops]
        simp only [runBuffer, hsent, List.map_append, List.map_cons, List.map_nil]
        exact ⟨_, _, rfl, rfl⟩
      · obtain ⟨htidy, d, hmeaning, hd⟩ := tidy_buffer hscan n
        have hstart := state_of_upgraded hup
        have hnone : d = none := by
          simpa [Marked, hstart, State.entryMark, State.inBody] using hd
        rw [hcalls _ _ hops]
        exact join_runBuffer n htidy (by rw [hmeaning, hnone])
    | false =>
      rw [hup] at hout
      simp only [Bool.false_eq_true, ↓reduceIte] at hout
      obtain hp := hend hout
      rw [hp, List.append_nil] at hsplit
      subst hsplit
      simp only [hout]
      rw [hcalls _ _ hops, if_pos (oneMark_runBuffer (tidy_buffer hscan 0).1)]
      have hleft : ∀ n,
          MarkOp.TidyOps channel Prod.fst ((entryOps c ++ ops) ++ leftoverOps t.parser) (none, n) ∧
          MarkOp.meaning channel Prod.fst ((entryOps c ++ ops) ++ leftoverOps t.parser) (none, n) =
            (meaningOf (entryOps c ++ ops) none n, none, n + data.length) := by
        intro n
        obtain ⟨htidy, d, hmeaning, hd⟩ := tidy_buffer hscan n
        obtain ⟨hleft, hend⟩ := leftoverOps_tidy hd (n + data.length)
        rw [MarkOp.tidyOps_append, MarkOp.meaning_append channel Prod.fst (entryOps c ++ ops), hmeaning,
          hend, List.append_nil]
        exact ⟨⟨htidy, hleft⟩, rfl⟩
      have hcalls' := hcalls _ _ (MarkOp.Alike.append hops
        (fun _ => rfl : MarkOp.Alike channel Prod.fst (leftoverOps t.parser) (leftoverOps t.parser)))
      refine ⟨_, rfl, ⟨data, [], ops, t.parser, leftoverOps t.parser, (List.append_nil _).symm, hscan,
          congrArg (List.map toCall) (congrArg Prod.fst hcalls'), muted_leftoverOps _, (hleft 0).1, ?_⟩,
        Or.inl ⟨data, [], (List.append_nil _).symm, hne, rfl, fun _ => rfl,
          fun hno => (by rw [hup] at hno; cases hno), ops, hscan, fun n => ?_⟩⟩
      · rw [MarkOp.passed_append, passed_buffer hscan]
        simp [leftoverOps, Parser.callbackDataNoadvance, MarkOp.passed]
      · rw [hcalls', join_runBuffer n (hleft n).1 (by rw [(hleft n).2]), (hleft n).2]
  · have hpos := List.length_pos_iff.mpr hfail.stopped
    have hlen := List.length_pos_iff.mpr hne
    obtain ⟨u, rest, ops, c', last, hsplit, -, hscan, halike, hending⟩ := hfail.made
    have hcalls : runBuffer (entryOps c ++ (loop data.length c data).ops) =
        runBuffer (entryOps c ++ (ops ++ last)) := MarkOp.Alike.append (fun _ => rfl) halike {}
    rw [← List.append_assoc] at hcalls
    simp only [hfail.out]
    refine ⟨_, rfl, ⟨u, rest, ops, c', last, hsplit, hscan,
        congrArg (List.map toCall) (congrArg Prod.fst hcalls), hending.muted, ?_, ?_⟩,
      Or.inr ⟨by simp only; omega, hfail.errno, hfail.steps⟩⟩
    · obtain ⟨htidy, d, hmeaning, hd⟩ := tidy_buffer hscan 0
      rw [MarkOp.tidyOps_append, hmeaning]
      exact ⟨htidy, hending.tidy d hd _⟩
    · rw [MarkOp.passed_append, passed_buffer hscan, hsplit]
      exact (List.prefix_append_right_inj u).mpr hending.passed

/-! ## Call after call -/

/-- The calls on the pieces of some input, as long as each reads all of its
piece, with the parser behind them.  A parser that has left the rest to another
protocol is given no more. -/
def receive : Parser → List Bytes → Option (List Segment × Parser)
  | c, [] => some ([], c)
  | c, data :: pieces =>
    (httpParserExecute c data).bind fun e =>
      if upgraded c = false ∧ e.nparsed = data.length ∧ e.parser.httpErrno = .ok then
        (receive e.parser pieces).map fun r => (⟨data.length, e.calls⟩ :: r.1, r.2)
      else none

/-- What the callbacks say, at positions in the whole input. -/
def saidFrom : Nat → List Segment → List Said
  | _, [] => []
  | n, seg :: segs => (seg.calls.map said).map (MarkOp.shift n) ++ saidFrom (n + seg.readSize) segs

theorem scan_upgraded {c : Parser} (h : upgraded c = true) {p : Bytes} (hp : p ≠ []) :
    scan byteStep c p = none := by
  cases p with
  | nil => exact absurd rfl hp
  | cons ch p =>
    rw [Scan.scan_cons, byteStep, h]
    rfl

/-- One piece and the rest. -/
theorem receive_cons {c : Parser} (h : Running c) {data : Bytes} (hne : data ≠ [])
    (pieces : List Bytes) :
    (scan byteStep c (data ++ pieces.flatten) = none ∧ receive c (data :: pieces) = none) ∨
    ∃ (e : Execution) (ops : List Op), scan byteStep c data = some (ops, e.parser) ∧
      (∀ n, Output.join ((e.calls.map said).map (MarkOp.shift n)) =
        Output.join (meaningOf (entryOps c ++ ops) none n)) ∧
      receive c (data :: pieces) =
        (receive e.parser pieces).map fun r => (⟨data.length, e.calls⟩ :: r.1, r.2) := by
  obtain ⟨e, he, -, hcase⟩ := execute_scan h hne
  have hreceive : receive c (data :: pieces) =
      if e.nparsed = data.length ∧ e.parser.httpErrno = .ok then
        (receive e.parser pieces).map fun r => (⟨data.length, e.calls⟩ :: r.1, r.2)
      else none := by
    rw [receive, he, Option.bind_some]
    simp only [h.notUpgraded, true_and]
  rw [hreceive]
  rcases hcase with ⟨u, rest, hscanned⟩ | hfailed
  · obtain ⟨hsplit, hu, hnparsed, hrest, -, ops, hscan, hsaid⟩ := hscanned
    by_cases hnil : rest = []
    · rw [hnil, List.append_nil] at hsplit
      subst hsplit
      refine Or.inr ⟨e, ops, hscan, hsaid, if_pos ⟨hnparsed, ?_⟩⟩
      exact (running_scan (Or.inl h) hscan).ok.2
    · -- the rest of the piece is for another protocol
      have hup : upgraded e.parser = true := by
        cases hup : upgraded e.parser with
        | true => rfl
        | false => exact absurd (hrest hup) hnil
      have hpos := List.length_pos_iff.mpr hnil
      refine Or.inl ⟨?_, if_neg ?_⟩
      · rw [hsplit, List.append_assoc, Scan.scan_append, hscan, Option.bind_some,
          scan_upgraded hup (by simp [hnil])]
        rfl
      · rw [hnparsed, hsplit, List.length_append]
        omega
  · refine Or.inl ⟨scan_stop_front _ hfailed.steps, if_neg ?_⟩
    have := hfailed.nparsed
    omega

/-- **The calls** on the pieces are the steps of all their bytes. -/
theorem receive_scan {c : Parser} {d : Option Channel} (h : Alive c) (hd : Marked c d)
    (pieces : List Bytes) (hpieces : ∀ p ∈ pieces, p ≠ []) (n : Nat) (pre : List Said)
    (hpre : MarkOp.EndsOn pre d) :
    (scan byteStep c pieces.flatten = none ∧ receive c pieces = none) ∨
    ∃ ops c' segs, scan byteStep c pieces.flatten = some (ops, c') ∧
      receive c pieces = some (segs, c') ∧
      segs.map Segment.readSize = pieces.map List.length ∧
      Output.join (pre ++ saidFrom n segs) = Output.join (pre ++ meaningOf ops d n) := by
  induction pieces generalizing c d n pre with
  | nil => exact Or.inr ⟨[], c, [], rfl, rfl, rfl, rfl⟩
  | cons data pieces ih =>
    have hne := hpieces data (List.mem_cons_self ..)
    have hrest := fun p hp => hpieces p (List.mem_cons_of_mem _ hp)
    rw [List.flatten_cons]
    cases hup : upgraded c with
    | true =>
      refine Or.inl ⟨scan_upgraded hup (by simp [hne]), ?_⟩
      rw [receive]
      cases httpParserExecute c data with
      | none => rfl
      | some e => simp [hup]
    | false =>
      have hrun := h.running hup
      rcases receive_cons hrun hne pieces with hnone | ⟨e, ops, hscan, hsaid, hreceive⟩
      · exact Or.inl hnone
      · have halive := running_scan h hscan
        obtain ⟨-, htidy, d', hmeaning, hd'⟩ := tracks_scan hscan d hd n
        have hpre' := MarkOp.endsOn_meaning channel Prod.fst ops (d, n) pre hpre htidy
        rw [hmeaning] at hpre'
        rw [hreceive, Scan.scan_append, hscan, Option.bind_some]
        rcases ih halive hd' hrest (n + data.length) (pre ++ meaningOf ops d n) hpre' with
          ⟨hstop, hstop'⟩ | ⟨ops', c', segs, hscan', hreceive', hsizes, hjoin⟩
        · exact Or.inl ⟨by rw [hstop]; rfl, by rw [hstop']; rfl⟩
        · refine Or.inr ⟨ops ++ ops', c', ⟨data.length, e.calls⟩ :: segs, by rw [hscan']; rfl,
            by rw [hreceive']; rfl, by simp [hsizes], ?_⟩
          obtain ⟨hresume, -⟩ := MarkOp.meaning_resume channel Prod.fst pre d (entryOps c) ops n hpre
            (resumes_scan hd hne hscan)
          calc Output.join (pre ++ saidFrom n (⟨data.length, e.calls⟩ :: segs))
              = Output.join ((pre ++ meaningOf (entryOps c ++ ops) none n) ++
                  saidFrom (n + data.length) segs) := by
                rw [saidFrom, ← List.append_assoc]
                exact Output.join_congr (Output.join_congr rfl (hsaid n)) rfl
            _ = Output.join ((pre ++ meaningOf ops d n) ++ saidFrom (n + data.length) segs) :=
                Output.join_congr hresume rfl
            _ = Output.join ((pre ++ meaningOf ops d n) ++ meaningOf ops' d' (n + data.length)) := hjoin
            _ = Output.join (pre ++ meaningOf (ops ++ ops') d n) := by
                simp only [meaningOf]
                rw [MarkOp.meaning_append, hmeaning, List.append_assoc]

/-- **Cuts do not show.**  However the bytes of a connection are cut, they are
all parsed or not, and the callbacks get the same data and notices. -/
theorem receive_cut (pieces pieces' : List Bytes) (h : ∀ p ∈ pieces, p ≠ [])
    (h' : ∀ p ∈ pieces', p ≠ []) (hsame : pieces.flatten = pieces'.flatten) :
    (receive httpParserInit pieces).map (fun r => (Output.join (saidFrom 0 r.1), r.2)) =
      (receive httpParserInit pieces').map (fun r => (Output.join (saidFrom 0 r.1), r.2)) := by
  have hinit : Marked httpParserInit none := Or.inl rfl
  have hends : MarkOp.EndsOn ([] : List Said) none := fun x hx => by cases hx
  have hall := receive_scan (Or.inl running_init) hinit pieces h 0 [] hends
  have hall' := receive_scan (Or.inl running_init) hinit pieces' h' 0 [] hends
  rw [hsame] at hall
  rcases hall with ⟨hscan, hreceive⟩ | ⟨ops, c, segs, hscan, hreceive, -, hjoin⟩
  · rcases hall' with ⟨-, hreceive'⟩ | ⟨ops', c', segs', hscan', -, -, -⟩
    · rw [hreceive, hreceive']
    · rw [hscan] at hscan'
      cases hscan'
  · rcases hall' with ⟨hscan', -⟩ | ⟨ops', c', segs', hscan', hreceive', -, hjoin'⟩
    · rw [hscan] at hscan'
      cases hscan'
    · rw [hscan] at hscan'
      cases hscan'
      simp only [List.nil_append] at hjoin hjoin'
      rw [hreceive, hreceive', Option.map_some, Option.map_some, hjoin, hjoin']

/-- `GET / HTTP/1.1` in one piece and in two. -/
theorem receive_cut_get :
    (receive httpParserInit [bytes "GET / HTTP/1.1\x0d\x0a\x0d\x0a"]).map
        (fun r => (Output.join (saidFrom 0 r.1), r.2)) =
      (receive httpParserInit [bytes "GET", bytes " / HTTP/1.1\x0d\x0a\x0d\x0a"]).map
        (fun r => (Output.join (saidFrom 0 r.1), r.2)) :=
  receive_cut _ _ (by decide +kernel) (by decide +kernel) (by decide +kernel)

end Ehttp.Http
