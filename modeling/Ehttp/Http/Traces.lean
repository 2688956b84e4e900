import Ehttp.Http.Grammar

/-!
# Bytes and traces

* `OneMessage`: some bytes are one message, as `http_parser` reads them;
* `trace_pieces`: however such bytes are cut, the callbacks are a `Trace` of it.
-/

namespace Ehttp.Http

open Lib

/-! ## Outputs and events -/

def heard : Said → HttpEvent
  | .data (k, _) s => k.event s
  | .notice ((_, e), _) => e.event

/-- The parser a callback sees, but for `on_url`. -/
def parserOf : Said → Option HttpParser
  | .data (_, p) _ => p
  | .notice ((p, _), _) => some p

theorem heard_said (c : HttpCall) : heard (said c) = c.event := by
  obtain ⟨p, e, n⟩ := c
  cases e <;> rfl

theorem parserOf_said (c : HttpCall) : (∃ s, c.event = .url s) ∨ parserOf (said c) = some c.parser := by
  obtain ⟨p, e, n⟩ := c
  cases e with
  | url s => exact Or.inl ⟨s, rfl⟩
  | headerField s | headerValue s | headersComplete | body s | messageComplete => exact Or.inr rfl

theorem heard_shift (n : Nat) (o : Said) : heard (MarkOp.shift n o) = heard o := by
  cases o <;> rfl

theorem parserOf_shift (n : Nat) (o : Said) : parserOf (MarkOp.shift n o) = parserOf o := by
  cases o <;> rfl

/-- An output of a message of `p`. -/
def SaidBy (p : HttpParser) (o : Said) : Prop := (∃ s, heard o = .url s) ∨ parserOf o = some p

/-- Fragments of one name or value. -/
theorem saidBy_parts {k : DataKind} {p : HttpParser} (parts : List Bytes) :
    ∀ o ∈ parts.map (.data (k, some p) : Bytes → Said), SaidBy p o := by
  intro o ho
  obtain ⟨s, -, rfl⟩ := List.mem_map.mp ho
  exact Or.inr rfl

theorem heard_parts {k : DataKind} {q : Option HttpParser} (parts : List Bytes) :
    (parts.map (.data (k, q) : Bytes → Said)).map heard = parts.map k.event := by
  rw [List.map_map]
  rfl

/-! ## A message in fragments -/

/-- Header lines in fragments. -/
theorem split_lines {p : HttpParser} {hs : List (Bytes × Bytes)} {outs rest : List Said}
    (hrest : ¬ Output.Starts (.headerValue, some p) rest)
    (h : Output.join outs = Output.join (linesSaid p hs ++ rest)) :
    ∃ front outs', outs = front ++ outs' ∧ Output.join outs' = Output.join rest ∧
      HeaderFragments hs (front.map heard) ∧ ∀ o ∈ front, SaidBy p o := by
  induction hs generalizing outs with
  | nil => exact ⟨[], outs, rfl, h, .nil, fun o ho => by cases ho⟩
  | cons line hs ih =>
    obtain ⟨f, v⟩ := line
    have hmore : ¬ Output.Starts (.headerValue, some p) (linesSaid p hs ++ rest) := by
      cases hs with
      | nil => exact hrest
      | cons line hs => exact Output.not_starts_data (by simp) _ _
    have hglued : Output.join (linesSaid p ((f, v) :: hs) ++ rest) =
        fieldSaid p f :: valueSaid p v :: Output.join (linesSaid p hs ++ rest) := by
      have hfield : ¬ Output.Starts (.headerField, some p)
          (valueSaid p v :: (linesSaid p hs ++ rest)) := Output.not_starts_data (by simp) _ _
      simp only [linesSaid, List.flatMap_cons, List.cons_append, List.nil_append] at hfield hmore ⊢
      rw [fieldSaid, Output.join_data hfield, valueSaid, Output.join_data hmore]
    rw [hglued] at h
    obtain ⟨names, outs₁, hnames, hf, rfl, h₁⟩ := Output.split_data h
    obtain ⟨values, outs₂, hvalues, hv, rfl, h₂⟩ := Output.split_data h₁
    obtain ⟨front, outs', rfl, hjoin, hfragments, hby⟩ := ih h₂
    refine ⟨names.map (.data (.headerField, some p)) ++ values.map (.data (.headerValue, some p)) ++ front,
      outs', by simp, hjoin, ?_, ?_⟩
    · rw [← hf, ← hv, List.map_append, List.map_append, heard_parts, heard_parts]
      exact .cons names values hs _ hnames hvalues hfragments
    · intro o ho
      rcases List.mem_append.mp ho with ho | ho
      · rcases List.mem_append.mp ho with ho | ho
        · exact saidBy_parts names o ho
        · exact saidBy_parts values o ho
      · exact hby o ho

/-- A body in fragments. -/
theorem split_body {p : HttpParser} {b : Bytes} {outs rest : List Said}
    (hrest : ¬ Output.Starts (.body, some p) rest)
    (h : Output.join outs = Output.join (bodySaid p b ++ rest)) :
    ∃ (bodies : List Bytes) (outs' : List Said), outs = bodies.map (.data (.body, some p)) ++ outs' ∧ bodies.flatten = b ∧
      Output.join outs' = Output.join rest := by
  by_cases hb : b = []
  · subst hb
    exact ⟨[], outs, rfl, rfl, h⟩
  · have hsaid : bodySaid p b ++ rest = .data (.body, some p) b :: rest := by simp [bodySaid, hb]
    rw [hsaid, Output.join_data hrest] at h
    obtain ⟨bodies, outs', -, hflat, hsplit, hjoin⟩ := Output.split_data h
    exact ⟨bodies, outs', hsplit, hflat, hjoin⟩

/-- **A message in fragments.** -/
theorem split_message {m : Message} {start : Nat} {outs : List Said}
    (h : Output.join outs = Output.join (messageSaid start m)) :
    (∃ head tail, HeadEvents m head ∧ TailEvents m tail ∧
      outs.map heard = head ++ .headersComplete :: (tail ++ [.messageComplete])) ∧
    ∀ o ∈ outs, SaidBy m.parser o := by
  have hurl : ¬ Output.Starts (.url, none) (linesSaid m.parser m.headers ++
      headersCompleteSaid m.parser (start + m.headLf) :: (bodySaid m.parser m.body ++
        linesSaid m.parser m.trailers ++ [messageCompleteSaid m.parser (start + m.size)])) := by
    cases m.headers with
    | nil => exact Output.not_starts_notice _ _ _
    | cons line hs => exact Output.not_starts_data (by simp) _ _
  rw [messageSaid, headSaid, List.cons_append, urlSaid, Output.join_data hurl] at h
  obtain ⟨urls, outs₁, hne, hflat, rfl, h₁⟩ := Output.split_data h
  obtain ⟨lines, outs₂, rfl, h₂, hlines, hby⟩ := split_lines (Output.not_starts_notice _ _ _) h₁
  rw [Output.join_cons, Output.glue_notice] at h₂
  obtain ⟨outs₃, rfl, h₃⟩ := Output.split_notice h₂
  have hbody : ¬ Output.Starts (.body, some m.parser) (linesSaid m.parser m.trailers ++
      [messageCompleteSaid m.parser (start + m.size)]) := by
    cases m.trailers with
    | nil => exact Output.not_starts_notice _ _ _
    | cons line hs => exact Output.not_starts_data (by simp) _ _
  rw [List.append_assoc] at h₃
  obtain ⟨bodies, outs₄, rfl, hbodies, h₄⟩ := split_body hbody h₃
  obtain ⟨trailers, outs₅, rfl, h₅, htrailers, hby'⟩ := split_lines (Output.not_starts_notice _ _ _) h₄
  obtain ⟨outs₆, rfl, h₆⟩ := Output.split_notice h₅
  obtain rfl : outs₆ = [] := Output.join_eq_nil h₆
  refine ⟨⟨urls.map .url ++ lines.map heard, bodies.map .body ++ trailers.map heard,
    ⟨urls, _, hne, hflat, hlines, rfl⟩, ⟨bodies, _, hbodies, htrailers, rfl⟩, ?_⟩, ?_⟩
  · simp only [List.map_append, List.map_cons, heard_parts, List.append_assoc]
    rfl
  · have hurls : ∀ o ∈ urls.map (.data (.url, none) : Bytes → Said), SaidBy m.parser o := by
      intro o ho
      obtain ⟨s, -, rfl⟩ := List.mem_map.mp ho
      exact Or.inl ⟨s, rfl⟩
    have hbodies := saidBy_parts (k := .body) (p := m.parser) bodies
    have hnotice : ∀ e n, SaidBy m.parser (.notice ((m.parser, e), n)) := fun e n => Or.inr rfl
    simp only [List.mem_append, List.mem_cons, List.not_mem_nil, or_false]
    rintro o (ho | ho | rfl | ho | ho | rfl)
    · exact hurls o ho
    · exact hby o ho
    · exact hnotice _ _
    · exact hbodies o ho
    · exact hby' o ho
    · exact hnotice _ _

/-! ## Where the notices are -/

/-- The notices lie in the first `n` bytes: the end of a head at one of them. -/
def Bounded (n : Nat) (l : List Said) : Prop :=
  ∀ q e k, .notice ((q, e), k) ∈ l → k ≤ n ∧ (e = .headersComplete → k < n)

theorem Bounded.congr {n : Nat} {l l' : List Said} (h : Bounded n l') (hjoin : Output.join l = Output.join l') :
    Bounded n l := by
  intro q e k hmem
  rw [← Output.mem_join_notice, hjoin, Output.mem_join_notice] at hmem
  exact h q e k hmem

theorem Bounded.append {n : Nat} {l l' : List Said} (h : Bounded n l) (h' : Bounded n l') :
    Bounded n (l ++ l') := by
  intro q e k hmem
  exact (List.mem_append.mp hmem).elim (h q e k) (h' q e k)

theorem Bounded.mono {n k : Nat} {l : List Said} (h : Bounded n l) (hle : n ≤ k) : Bounded k l := by
  intro q e i hmem
  obtain ⟨hi, hlt⟩ := h q e i hmem
  exact ⟨hi.trans hle, fun he => (hlt he).trans_le hle⟩

theorem bounded_nil {n : Nat} : Bounded n [] := fun q e k hmem => by cases hmem

theorem bounded_data {n : Nat} {x : Channel} {s : Bytes} {l : List Said} (h : Bounded n l) :
    Bounded n (.data x s :: l) := by
  intro q e k hmem
  exact h q e k ((List.mem_cons.mp hmem).resolve_left (by simp))

theorem bounded_linesSaid {n : Nat} (p : HttpParser) (hs : List (Bytes × Bytes)) :
    Bounded n (linesSaid p hs) := by
  induction hs with
  | nil => exact bounded_nil
  | cons line hs ih => exact bounded_data (bounded_data ih)

theorem bounded_bodySaid {n : Nat} (p : HttpParser) (b : Bytes) : Bounded n (bodySaid p b) := by
  unfold bodySaid
  split
  · exact bounded_nil
  · exact bounded_data bounded_nil

theorem bounded_headSaid {n : Nat} (p : HttpParser) (url : Bytes) (hs : List (Bytes × Bytes)) :
    Bounded n (headSaid p url hs) := bounded_data (bounded_linesSaid p hs)

theorem bounded_headersComplete {n k : Nat} (p : HttpParser) (hlt : k < n) {l : List Said}
    (h : Bounded n l) : Bounded n (headersCompleteSaid p k :: l) := by
  intro q e i hmem
  rcases List.mem_cons.mp hmem with heq | hmem
  · cases heq
    exact ⟨hlt.le, fun _ => hlt⟩
  · exact h q e i hmem

theorem bounded_messageSaid (start : Nat) (m : Message) (h : m.headLf < m.size) :
    Bounded (start + m.size) (messageSaid start m) := by
  refine (bounded_headSaid _ _ _).append (bounded_headersComplete _ (by omega) ?_)
  refine ((bounded_bodySaid _ _).append (bounded_linesSaid _ _)).append ?_
  intro q e k hmem
  obtain heq := List.mem_singleton.mp hmem
  cases heq
  exact ⟨Nat.le_refl _, fun he => by cases he⟩

theorem bounded_messagesSaid (start : Nat) (ms : List Message) (h : ∀ m ∈ ms, m.headLf < m.size) :
    Bounded (start + messagesSize ms) (messagesSaid start ms) := by
  induction ms generalizing start with
  | nil => exact bounded_nil
  | cons m ms ih =>
    have hm := bounded_messageSaid start m (h m (List.mem_cons_self ..))
    have hrest := ih (start + m.size) fun k hk => h k (List.mem_cons_of_mem _ hk)
    have hsize : start + messagesSize (m :: ms) = start + m.size + messagesSize ms := by
      simp [messagesSize, Nat.add_assoc]
    rw [hsize]
    exact (hm.mono (by omega)).append hrest

theorem BodyRead.bounded {p : HttpParser} {start n : Nat} {l : List Said} (h : BodyRead p start n l) :
    Bounded n l := by
  obtain ⟨url, hs, lf, b, hlt, rfl⟩ := h
  exact (bounded_headSaid _ _ _).append (bounded_headersComplete _ hlt (bounded_bodySaid _ _))

theorem Front.bounded {trailing : Bool} {p : HttpParser} {start n : Nat} {l : List Said}
    (h : Front trailing p start n l) : Bounded n l := by
  cases trailing with
  | true => exact BodyRead.bounded h
  | false =>
    obtain ⟨url, rfl⟩ := h
    exact bounded_data bounded_nil

theorem Partway.bounded {c : Parser} {start n : Nat} {l : List Said} (h : Partway c start n l) :
    Bounded n l := by
  unfold Partway at h
  simp only at h
  split at h
  · rw [h.1]
    exact bounded_nil
  · obtain ⟨-, url, hjoin⟩ := h
    exact (bounded_data bounded_nil).congr hjoin
  · obtain ⟨-, url, hjoin⟩ := h
    exact (bounded_data bounded_nil).congr hjoin
  · obtain ⟨front, hs, hfront, hjoin⟩ := h
    exact (hfront.bounded.append (bounded_linesSaid _ _)).congr hjoin
  · obtain ⟨front, hs, f, hfront, hjoin⟩ := h
    exact ((hfront.bounded.append (bounded_linesSaid _ _)).append (bounded_data bounded_nil)).congr hjoin
  · obtain ⟨front, hs, f, v, hfront, hjoin⟩ := h
    exact ((hfront.bounded.append (bounded_linesSaid _ _)).append
      (bounded_data (bounded_data bounded_nil))).congr hjoin
  · obtain ⟨-, all, hread, hjoin⟩ := h
    exact hread.bounded.congr hjoin
  · exact absurd h id

/-! ## The callbacks on the pieces -/

theorem endsOn_nil : MarkOp.EndsOn ([] : List Said) none := fun x hx => by cases hx

/-- The calls on the pieces of some bytes, from a new parser. -/
theorem receive_init {pieces : List Bytes} (h : ∀ p ∈ pieces, p ≠ []) {segs : List Segment} {c : Parser}
    (hrun : receive httpParserInit pieces = some (segs, c)) :
    ∃ ops, scan byteStep httpParserInit pieces.flatten = some (ops, c) ∧
      segs.map Segment.readSize = pieces.map List.length ∧
      Output.join (saidFrom 0 segs) = Output.join (meaningOf ops none 0) := by
  rcases receive_scan (Or.inl running_init) (Or.inl rfl : Marked httpParserInit none) pieces h 0 []
    endsOn_nil with ⟨-, hnone⟩ | ⟨ops, c', segs', hscan, hreceive, hsizes, hjoin⟩
  · rw [hrun] at hnone
    cases hnone
  · rw [hrun] at hreceive
    cases hreceive
    exact ⟨ops, hscan, hsizes, hjoin⟩

/-- **What is parsed is messages.**  Whatever bytes are parsed, in whatever pieces,
the callbacks get messages, one behind the other, and the beginning of one more. -/
theorem receive_messages (pieces : List Bytes) (hne : ∀ p ∈ pieces, p ≠ []) (segs : List Segment)
    (c : Parser) (hrun : receive httpParserInit pieces = some (segs, c)) :
    ∃ ms l, messagesSize ms ≤ pieces.flatten.length ∧ (∀ m ∈ ms, m.headLf < m.size) ∧
      Partway c (messagesSize ms) pieces.flatten.length l ∧
      Output.join (saidFrom 0 segs) = Output.join (messagesSaid 0 ms ++ l) := by
  obtain ⟨ops, hscan, -, hjoin⟩ := receive_init hne hrun
  obtain ⟨ms, l, hle, hms, hpart, hsaid⟩ := messages_scan hscan
  exact ⟨ms, l, hle, hms, hpart, hjoin.trans hsaid⟩

theorem receive_messages_get :
    ∃ segs c, receive httpParserInit [bytes "GET /", bytes " HTTP/1.1\x0d\x0a\x0d\x0a"] = some (segs, c) ∧
      ∃ ms l, messagesSize ms ≤ 18 ∧ (∀ m ∈ ms, m.headLf < m.size) ∧
        Partway c (messagesSize ms) 18 l ∧
        Output.join (saidFrom 0 segs) = Output.join (messagesSaid 0 ms ++ l) := by
  have hread : (receive httpParserInit
      [bytes "GET /", bytes " HTTP/1.1\x0d\x0a\x0d\x0a"]).isSome = true := by decide +kernel
  obtain ⟨⟨segs, c⟩, hrun⟩ := Option.isSome_iff_exists.mp hread
  exact ⟨segs, c, hrun, receive_messages _ (by decide +kernel) segs c hrun⟩

theorem totalSize_eq {segs : List Segment} {pieces : List Bytes}
    (h : segs.map Segment.readSize = pieces.map List.length) : totalSize segs = pieces.flatten.length := by
  rw [totalSize, h, List.length_flatten]

/-- What the callbacks say lies in the bytes read so far. -/
theorem receive_bounded {pieces : List Bytes} (h : ∀ p ∈ pieces, p ≠ []) {segs : List Segment}
    {c : Parser} (hrun : receive httpParserInit pieces = some (segs, c)) :
    Bounded (totalSize segs) (saidFrom 0 segs) := by
  obtain ⟨ops, hscan, hsizes, hjoin⟩ := receive_init h hrun
  obtain ⟨ms, l, hle, hms, hpart, hsaid⟩ := messages_scan hscan
  have hmessages := bounded_messagesSaid 0 ms hms
  rw [Nat.zero_add] at hmessages
  rw [totalSize_eq hsizes]
  exact ((hmessages.mono hle).append hpart.bounded).congr (hjoin.trans hsaid)

/-- The calls on the first pieces. -/
theorem receive_split {front back : List Segment} {c c' : Parser} {pieces : List Bytes}
    (h : receive c pieces = some (front ++ back, c')) :
    ∃ ps qs c₁, pieces = ps ++ qs ∧ receive c ps = some (front, c₁) ∧
      receive c₁ qs = some (back, c') := by
  induction front generalizing c pieces with
  | nil => exact ⟨[], pieces, c, rfl, rfl, h⟩
  | cons seg front ih =>
    cases pieces with
    | nil => cases h
    | cons data pieces =>
      rw [receive] at h
      obtain ⟨e, he, h⟩ := Option.bind_eq_some_iff.mp h
      split at h
      · rename_i hgood
        obtain ⟨⟨segs, c''⟩, hrest, h⟩ := Option.map_eq_some_iff.mp h
        simp only [List.cons_append, Prod.mk.injEq, List.cons.injEq] at h
        obtain ⟨⟨rfl, rfl⟩, rfl⟩ := h
        obtain ⟨ps, qs, c₁, rfl, hps, hqs⟩ := ih hrest
        refine ⟨data :: ps, qs, c₁, rfl, ?_, hqs⟩
        rw [receive, he, Option.bind_some, if_pos hgood, hps]
        rfl
      · cases h

theorem saidFrom_append (n : Nat) (segs segs' : List Segment) :
    saidFrom n (segs ++ segs') = saidFrom n segs ++ saidFrom (n + totalSize segs) segs' := by
  induction segs generalizing n with
  | nil => simp [saidFrom, totalSize]
  | cons seg segs ih => simp [saidFrom, totalSize, ih, Nat.add_assoc]

theorem heard_saidFrom (n : Nat) (segs : List Segment) :
    (saidFrom n segs).map heard = (segs.flatMap Segment.calls).map HttpCall.event := by
  induction segs generalizing n with
  | nil => rfl
  | cons seg segs ih =>
    simp only [saidFrom, List.map_append, List.map_map, List.flatMap_cons, ih]
    refine congrArg₂ (· ++ ·) (List.map_congr_left fun c _ => ?_) rfl
    rw [Function.comp_apply, Function.comp_apply, heard_shift, heard_said]

/-- A call of the pieces, in what they say. -/
theorem mem_saidFrom {n : Nat} (front back : List Segment) {seg : Segment} {c : HttpCall}
    (h : c ∈ seg.calls) :
    MarkOp.shift (n + totalSize front) (said c) ∈ saidFrom n (front ++ seg :: back) := by
  rw [saidFrom_append, saidFrom]
  refine List.mem_append_right _ (List.mem_append_left _ ?_)
  exact List.mem_map.mpr ⟨said c, List.mem_map.mpr ⟨c, h, rfl⟩, rfl⟩

theorem placed_of_splits {m : Message} {start : Nat} {segs : List Segment}
    (h : ∀ front seg back, segs = front ++ seg :: back → ∀ c ∈ seg.calls,
      (c.event = .headersComplete →
        start + totalSize front + c.consumed = m.headLf ∧ c.consumed < seg.readSize) ∧
      (c.event = .messageComplete →
        start + totalSize front + c.consumed = m.size ∧ c.consumed ≤ seg.readSize)) :
    Placed m start segs := by
  induction segs generalizing start with
  | nil => trivial
  | cons seg segs ih =>
    refine ⟨fun c hc => by simpa [totalSize] using h [] seg segs rfl c hc, ih ?_⟩
    rintro front seg' back rfl c hc
    simpa [totalSize, Nat.add_assoc] using h (seg :: front) seg' back rfl c hc

/-- The bytes are one message. -/
def OneMessage (w : Bytes) (m : Message) : Prop :=
  ∃ ops c, scan byteStep httpParserInit w = some (ops, c) ∧
    Output.join (meaningOf ops none 0) = Output.join (messageSaid 0 m) ∧
    m.size = w.length ∧ m.headLf < m.size

theorem OneMessage.nonempty {w : Bytes} {m : Message} (h : OneMessage w m) : w ≠ [] := by
  obtain ⟨-, -, -, -, hsize, hlf⟩ := h
  exact List.length_pos_iff.mp (by omega)

/-- The notices of a message. -/
theorem notice_messageSaid {start : Nat} {m : Message} {q : HttpParser} {e : Notice} {k : Nat}
    (h : .notice ((q, e), k) ∈ messageSaid start m) :
    (e = .headersComplete → k = start + m.headLf) ∧ (e = .messageComplete → k = start + m.size) := by
  have hlines : ∀ hs, .notice ((q, e), k) ∉ linesSaid m.parser hs := by
    intro hs hmem
    obtain ⟨line, -, hline⟩ := List.mem_flatMap.mp hmem
    simp [fieldSaid, valueSaid] at hline
  have hbody : .notice ((q, e), k) ∉ bodySaid m.parser m.body := by
    unfold bodySaid
    split <;> simp
  simp only [messageSaid, headSaid, urlSaid, headersCompleteSaid, messageCompleteSaid, List.mem_append,
    List.mem_cons, reduceCtorEq, hlines, hbody, List.not_mem_nil, or_false, false_or,
    Output.notice.injEq, Prod.mk.injEq] at h
  rcases h with ⟨⟨-, rfl⟩, rfl⟩ | ⟨⟨-, rfl⟩, rfl⟩
  · exact ⟨fun _ => rfl, fun he => (by cases he)⟩
  · exact ⟨fun he => (by cases he), fun _ => rfl⟩

theorem said_notice {c : HttpCall} {e : Notice} (h : c.event = e.event) :
    said c = .notice ((c.parser, e), c.consumed) := by
  unfold said
  rw [h]
  cases e <;> rfl

/-- **Bytes are traces.**  However the bytes of a message are cut, all of them
are parsed and the callbacks are a trace of the message. -/
theorem trace_pieces {w : Bytes} {m : Message} (h : OneMessage w m) (pieces : List Bytes)
    (hne : ∀ p ∈ pieces, p ≠ []) (hflat : pieces.flatten = w) :
    ∃ segs c, receive httpParserInit pieces = some (segs, c) ∧
      segs.map Segment.readSize = pieces.map List.length ∧ Trace m segs := by
  obtain ⟨ops, c, hscan, hsaid, hsize, hlf⟩ := h
  subst hflat
  rcases receive_scan (Or.inl running_init) (Or.inl rfl : Marked httpParserInit none) pieces hne 0 []
    endsOn_nil with ⟨hnone, -⟩ | ⟨ops', c', segs, hscan', hreceive, hsizes, hjoin⟩
  · rw [hscan] at hnone
    cases hnone
  · rw [hscan] at hscan'
    cases hscan'
    simp only [List.nil_append] at hjoin
    obtain ⟨hevents, hby⟩ := split_message (hjoin.trans hsaid)
    refine ⟨segs, c, hreceive, hsizes, ?_, ?_, ?_, ?_, ?_⟩
    · obtain ⟨head, tail, hhead, htail, hall⟩ := hevents
      exact ⟨head, tail, hhead, htail, by rw [← heard_saidFrom 0, hall]⟩
    · intro call hcall
      obtain ⟨seg, hseg, hmem⟩ := List.mem_flatMap.mp hcall
      obtain ⟨front, back, rfl⟩ := List.append_of_mem hseg
      rcases hby _ (mem_saidFrom front back hmem) with ⟨s, hs⟩ | hparser
      · rw [heard_shift, heard_said] at hs
        exact Or.inl ⟨s, hs⟩
      · rw [parserOf_shift] at hparser
        rcases parserOf_said call with hurl | hcallParser
        · exact Or.inl hurl
        · rw [hcallParser] at hparser
          exact Or.inr (Option.some.inj hparser)
    · refine placed_of_splits fun front seg back hsplit call hcall => ?_
      subst hsplit
      have hprefix : Bounded (totalSize front + seg.readSize) (saidFrom 0 (front ++ [seg])) := by
        rw [show front ++ seg :: back = (front ++ [seg]) ++ back by simp] at hreceive
        obtain ⟨ps, qs, c₁, rfl, hps, -⟩ := receive_split hreceive
        have hbounded := receive_bounded (fun p hp => hne p (List.mem_append_left _ hp)) hps
        rwa [show totalSize (front ++ [seg]) = totalSize front + seg.readSize by simp [totalSize]]
          at hbounded
      -- the notice lies in the message, and in the pieces up to its own
      have hplace : ∀ e : Notice, call.event = e.event →
          ((e = .headersComplete → 0 + totalSize front + call.consumed = 0 + m.headLf) ∧
            (e = .messageComplete → 0 + totalSize front + call.consumed = 0 + m.size)) ∧
          0 + totalSize front + call.consumed ≤ totalSize front + seg.readSize ∧
          (e = .headersComplete → 0 + totalSize front + call.consumed < totalSize front + seg.readSize) := by
        intro e he
        have hwhole := mem_saidFrom (n := 0) front back hcall
        have hlocal := mem_saidFrom (n := 0) front [] hcall
        rw [said_notice he, MarkOp.shift] at hwhole hlocal
        rw [← Output.mem_join_notice, hjoin.trans hsaid, Output.mem_join_notice] at hwhole
        exact ⟨notice_messageSaid hwhole, hprefix _ _ _ hlocal⟩
      refine ⟨fun he => ?_, fun he => ?_⟩
      · obtain ⟨⟨hpos, -⟩, -, hlt⟩ := hplace .headersComplete he
        have := hpos rfl
        have := hlt rfl
        omega
      · obtain ⟨⟨-, hpos⟩, hle, -⟩ := hplace .messageComplete he
        have := hpos rfl
        omega
    · rw [totalSize_eq hsizes, hsize]
    · intro seg hseg
      have hlen : seg.readSize ∈ pieces.map List.length := by
        rw [← hsizes]
        exact List.mem_map.mpr ⟨seg, hseg, rfl⟩
      obtain ⟨p, hp, hlen⟩ := List.mem_map.mp hlen
      rw [← hlen]
      exact List.length_pos_iff.mpr (hne p hp)

end Ehttp.Http
