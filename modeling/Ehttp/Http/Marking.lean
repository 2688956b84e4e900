import Ehttp.Http.Invariant

/-!
# The marks of `http_parser`

One kind of data is marked at a time, and which one is told by the state.

* `tracks_step`, `tracks_scan`: what is marked behind the bytes that are parsed;
* `resumes_step`: the mark that is set again at the start of a buffer is the one
  that was dropped at the end of the last.
-/

namespace Ehttp.Http

open Lib

/-- The states in which body data may be marked, and is not marked again on entry. -/
def State.inBody : State → Bool
  | .chunkData | .chunkDataAlmostDone | .bodyIdentity => true
  | _ => false

/-- What may be marked in front of a byte. -/
def Marked (c : Parser) (d : Option Channel) : Prop :=
  match c.state.entryMark with
  | some k => d = some (channel (k, c.toHttpParser))
  | none => d = none ∨ c.state.inBody = true ∧ d = some (channel (.body, c.toHttpParser))

/-- The operations on one byte are tidy, move the cursor over it, and leave a
mark that the state tells. -/
def Tracks (ops : List Op) (c : Parser) (d : Option Channel) (ch : UInt8) : Prop :=
  MarkOp.passed ops = [ch] ∧ ∀ n, MarkOp.TidyOps channel Prod.fst ops (d, n) ∧
    ∃ d', (MarkOp.meaning channel Prod.fst ops (d, n)).2 = (d', n + 1) ∧ Marked c d'

/-- Operations that leave nothing marked and do not move the cursor. -/
def Quiet (ops : List Op) (d : Option Channel) : Prop :=
  MarkOp.passed ops = [] ∧ ∀ n, MarkOp.TidyOps channel Prod.fst ops (d, n) ∧
    (MarkOp.meaning channel Prod.fst ops (d, n)).2 = (none, n)

/-- Operations in front of an error. -/
structure Tidied (ops : List Op) (d : Option Channel) : Prop where
  passed : MarkOp.passed ops = []
  tidy : ∀ n, MarkOp.TidyOps channel Prod.fst ops (d, n)
  muted : MarkOp.Muted ops

theorem tidied_nil {d : Option Channel} : Tidied [] d := ⟨rfl, fun _ => trivial, MarkOp.muted_nil⟩

theorem muted_mark (x : DataKind × HttpParser) : MarkOp.Muted ([.mark x] : List Op) := by
  simp [MarkOp.Muted]

theorem muted_flush (x : DataKind × HttpParser) (er : Int) :
    MarkOp.Muted ([.flush x er] : List Op) := by
  simp [MarkOp.Muted]

theorem tidied_mark (x : DataKind × HttpParser) : Tidied [.mark x] none :=
  ⟨rfl, fun _ => ⟨Or.inl rfl, trivial⟩, muted_mark x⟩

theorem Quiet.tidied {ops : List Op} {d : Option Channel} (h : Quiet ops d) (hm : MarkOp.Muted ops) :
    Tidied ops d := ⟨h.1, fun n => (h.2 n).1, hm⟩

theorem quiet_nil : Quiet [] none := ⟨rfl, fun _ => ⟨trivial, rfl⟩⟩

theorem Quiet.notify {ops : List Op} {d : Option Channel} (h : Quiet ops d)
    (e : HttpParser × Notice) (er : Nat) : Quiet (ops ++ [.notify e er]) d := by
  refine ⟨by rw [MarkOp.passed_append, h.1]; rfl, fun n => ?_⟩
  obtain ⟨htidy, hmeaning⟩ := h.2 n
  rw [MarkOp.tidyOps_append, MarkOp.meaning_append, hmeaning]
  exact ⟨⟨htidy, rfl, trivial⟩, rfl⟩

theorem quiet_flush {x : DataKind × HttpParser} {d : Option Channel} (er : Int)
    (h : d = none ∨ d = some (channel x)) : Quiet [.flush x er] d := by
  refine ⟨rfl, fun n => ?_⟩
  rcases h with rfl | rfl
  · refine ⟨⟨fun y hy => (by cases hy), trivial⟩, ?_⟩
    simp [MarkOp.meaning, MarkOp.mean]
  · refine ⟨⟨fun y hy _ => (Option.some.inj hy).symm, trivial⟩, ?_⟩
    simp [MarkOp.meaning, MarkOp.mean]

theorem quiet_markFlush (x : DataKind × HttpParser) (er : Int) :
    Quiet [.mark x, .flush x er] none := by
  refine ⟨rfl, fun n => ?_⟩
  refine ⟨⟨Or.inl rfl, fun y hy _ => (Option.some.inj hy).symm, trivial⟩, ?_⟩
  simp [MarkOp.meaning, MarkOp.mean]

/-! ## One byte -/

theorem marked_none {c : Parser} (h : c.state.entryMark = none) : Marked c none := by
  simp [Marked, h]

theorem tracks_pass {ops : List Op} {c : Parser} {d : Option Channel} (h : Quiet ops d)
    (hc : c.state.entryMark = none) (ch : UInt8) : Tracks (ops ++ [.pass [ch]]) c d ch := by
  refine ⟨by rw [MarkOp.passed_append, h.1]; rfl, fun n => ?_⟩
  obtain ⟨htidy, hmeaning⟩ := h.2 n
  rw [MarkOp.tidyOps_append, MarkOp.meaning_append, hmeaning]
  exact ⟨⟨htidy, trivial, trivial⟩, none, rfl, marked_none hc⟩

theorem tracks_mark {ops : List Op} {c : Parser} {d : Option Channel} (h : Quiet ops d)
    {x : DataKind × HttpParser} (hc : Marked c (some (channel x))) (ch : UInt8) :
    Tracks (ops ++ [.mark x] ++ [.pass [ch]]) c d ch := by
  refine ⟨by rw [MarkOp.passed_append, MarkOp.passed_append, h.1]; rfl, fun n => ?_⟩
  obtain ⟨htidy, hmeaning⟩ := h.2 n
  rw [List.append_assoc, MarkOp.tidyOps_append, MarkOp.meaning_append, hmeaning]
  exact ⟨⟨htidy, Or.inl rfl, trivial, trivial⟩, _, rfl, hc⟩

theorem tracks_stay {c : Parser} {d : Option Channel} (h : Marked c d) (ch : UInt8) :
    Tracks [.pass [ch]] c d ch := ⟨rfl, fun _ => ⟨⟨trivial, trivial⟩, d, rfl, h⟩⟩

/-- A move keeps the marks right. -/
structure Move.Tracked (m : Move) (d : Option Channel) (ch : UInt8) : Prop where
  tracks : m.out = .next ∨ m.out = .ret → Tracks m.ops m.parser d ch
  tidied : m.out = .error → Tidied m.ops d

theorem tracked_of {m : Move} {d : Option Channel} {ch : UInt8} (hout : m.out ≠ .error)
    (h : Tracks m.ops m.parser d ch) : m.Tracked d ch := ⟨fun _ => h, fun hno => absurd hno hout⟩

theorem tracked_fail {c : Parser} {e : Errno} {ops : List Op} {d : Option Channel} {ch : UInt8}
    (h : Tidied ops d) : (c.fail e ops).Tracked d ch := ⟨fun hno => by simp at hno, fun _ => h⟩

theorem tracked_abort {c : Parser} {d : Option Channel} {ch : UInt8} : c.abort.Tracked d ch :=
  ⟨fun hno => by simp at hno, fun hno => by simp at hno⟩

theorem tracked_go {c : Parser} {ch : UInt8} {ops : List Op} {d : Option Channel} (h : Quiet ops d)
    (hc : c.state.entryMark = none) : (c.go ch ops).Tracked d ch :=
  ⟨fun _ => tracks_pass h hc ch, fun hno => by simp at hno⟩

theorem tracked_mark {c : Parser} {ch : UInt8} (ops : List Op) {d : Option Channel} (h : Quiet ops d)
    {x : DataKind × HttpParser} (hc : Marked c (some (channel x))) :
    (c.go ch (ops ++ [.mark x])).Tracked d ch :=
  ⟨fun _ => tracks_mark h hc ch, fun hno => by simp at hno⟩

theorem tracked_stay {c : Parser} {ch : UInt8} {d : Option Channel} (h : Marked c d) :
    (c.go ch []).Tracked d ch :=
  ⟨fun _ => tracks_stay h ch, fun hno => by simp at hno⟩

section States

variable {c : Parser} {ch : UInt8}

theorem tracked_startReq (hs : c.state = .startReq) : (sStartReq c ch).Tracked none ch := by
  unfold sStartReq
  split
  · exact tracked_go quiet_nil (by rw [hs]; rfl)
  · simp only
    split
    · exact tracked_fail tidied_nil
    · split
      · exact tracked_fail tidied_nil
      · exact tracked_go quiet_nil rfl

theorem tracked_reqMethod (hs : c.state = .reqMethod) : (sReqMethod c ch).Tracked none ch := by
  have hnext : ∀ {c' : Parser}, c'.state = .reqMethod → (c'.nextIndex.go ch []).Tracked none ch := by
    intro c' hs'
    exact tracked_go quiet_nil (by simp only [Parser.nextIndex, hs']; rfl)
  unfold sReqMethod
  split
  · exact tracked_fail tidied_nil
  · split
    · exact tracked_abort
    · split
      · exact tracked_go quiet_nil rfl
      · split
        · exact hnext hs
        · split
          · split
            · exact tracked_fail tidied_nil
            · exact hnext hs
          · exact tracked_fail tidied_nil

/-- `parse_url_char` does not go back in front of the URL. -/
theorem parseUrlChar_ne_start (s : UrlState) (ch : UInt8) : parseUrlChar s ch ≠ .spacesBeforeUrl := by
  have hserver : parseServerChar ch ≠ .spacesBeforeUrl := by
    unfold parseServerChar
    split_ifs <;> simp
  unfold parseUrlChar
  split
  · simp
  · cases s <;> simp only
    case serverStart | server => exact hserver
    case serverWithAt =>
      split
      · simp
      · exact hserver
    all_goals
      try split_ifs
      all_goals simp

theorem entryMark_reqUrl {s : UrlState} (hdead : s ≠ .dead) (hstart : s ≠ .spacesBeforeUrl) :
    (State.reqUrl s).entryMark = some .url := by
  cases s <;> first | rfl | exact absurd rfl hdead | exact absurd rfl hstart

theorem marked_url {c : Parser} {s : UrlState} (hs : c.state = .reqUrl s) (hdead : s ≠ .dead)
    (hstart : s ≠ .spacesBeforeUrl) (p : HttpParser) : Marked c (some (channel (.url, p))) := by
  unfold Marked
  rw [hs, entryMark_reqUrl hdead hstart]
  rfl

theorem tracked_urlChar {s : UrlState} {ops : List Op} {d : Option Channel}
    (h : ∀ c', Marked c' (some (channel (.url, c.toHttpParser))) →
      Tracks (ops ++ [.pass [ch]]) c' d ch) (ht : Tidied ops d) : (urlChar c s ch ops).Tracked d ch := by
  unfold urlChar
  simp only
  split
  · exact tracked_fail ht
  · rename_i hdead
    exact tracked_of (by simp) (h _ (marked_url (by rfl) hdead (parseUrlChar_ne_start s ch) _))

theorem tracked_reqUrl {s : UrlState} {d : Option Channel} (hs : c.state = .reqUrl s)
    (hd : Marked c d) : (sReqUrl c s ch).Tracked d ch := by
  have hend : ∀ {c' : Parser} {p : HttpParser}, d = some (channel (.url, p)) →
      c'.state.entryMark = none → (c'.go ch [.flush (.url, p) 1]).Tracked d ch := by
    intro c' p hd' hs'
    exact tracked_go (quiet_flush 1 (Or.inr hd')) hs'
  have hmore : d = some (channel (.url, c.toHttpParser)) → (urlChar c s ch []).Tracked d ch := by
    rintro rfl
    exact tracked_urlChar (fun c' hc' => tracks_stay hc' ch) tidied_nil
  have hfront : d = some (channel (.url, c.toHttpParser)) →
      (if ch = 32 ∨ ch = CR ∨ ch = LF then c.fail .invalidUrl [] else urlChar c s ch []).Tracked d ch := by
    intro hd'
    split
    · exact tracked_fail tidied_nil
    · exact hmore hd'
  have hback : d = some (channel (.url, c.toHttpParser)) →
      (if ch = 32 then Parser.go { c with state := .reqHttpStart } ch [c.callbackData .url]
      else if ch = CR ∨ ch = LF then
        let c := { c with
          httpMajor := 0
          httpMinor := 9
          state := if ch = CR then .reqLineAlmostDone else .headerFieldStart }
        c.go ch [c.callbackData .url]
      else urlChar c s ch []).Tracked d ch := by
    intro hd'
    split
    · exact hend hd' rfl
    · split
      · simp only
        refine hend hd' ?_
        split <;> rfl
      · exact hmore hd'
  unfold Marked at hd
  rw [hs] at hd
  cases s with
  | dead =>
    obtain rfl : d = none := hd.resolve_right fun h => by cases h.1
    rw [sReqUrl]
    split
    · exact tracked_stay (marked_none (by rw [hs]; rfl))
    · exact tracked_fail tidied_nil
  | spacesBeforeUrl =>
    obtain rfl : d = none := hd.resolve_right fun h => by cases h.1
    rw [sReqUrl]
    split
    · exact tracked_stay (marked_none (by rw [hs]; rfl))
    · exact tracked_urlChar (fun c' hc' => tracks_mark quiet_nil hc' ch) (tidied_mark _)
  | schema | schemaSlash | schemaSlashSlash | serverStart => exact hfront hd
  | server | serverWithAt | path | queryStringStart | queryString | fragmentStart | fragment =>
    exact hback hd

theorem tracked_messageDone {ops : List Op} {d : Option Channel} (h : Quiet ops d) {out : Out}
    (hout : out ≠ .error) :
    Move.Tracked ⟨{ c with state := .startReq }, ops ++ [c.messageComplete, .pass [ch]], out⟩ d ch := by
  refine tracked_of hout ?_
  have hnotify := tracks_pass (h.notify (c.toHttpParser, .messageComplete) 1)
    (show ({ c with state := .startReq } : Parser).state.entryMark = none from rfl) ch
  rwa [List.append_assoc] at hnotify

theorem messageDone_out (c : Parser) : (sMessageDone c).2 ≠ .error := by
  unfold sMessageDone
  simp only
  split <;> simp

theorem tracked_headersDone {ops : List Op} {d : Option Channel} (h : Quiet ops d) :
    (sHeadersDone c ch ops).Tracked d ch := by
  have hdone : ∀ {c' : Parser}, c'.state.entryMark = none →
      (c'.go ch (ops ++ [Parser.messageComplete { c with nread := 0 }])).Tracked d ch := by
    intro c' hs
    exact tracked_go (h.notify (c.toHttpParser, .messageComplete) 1) hs
  unfold sHeadersDone
  simp only
  split
  · exact tracked_messageDone (c := { c with nread := 0 }) h (by simp)
  · split
    · exact hdone rfl
    · split
      · exact tracked_go h rfl
      · split
        · exact hdone rfl
        · split
          · exact tracked_go h rfl
          · exact hdone rfl

theorem tracked_headersAlmostDone {ops : List Op} {d : Option Channel} (h : Quiet ops d)
    (hm : MarkOp.Muted ops) :
    (sHeadersAlmostDone c ch ops).Tracked d ch := by
  unfold sHeadersAlmostDone
  split
  · exact tracked_messageDone h (messageDone_out c)
  · split
    · exact tracked_fail (h.tidied hm)
    · exact tracked_headersDone (h.notify _ _)

theorem tracked_headerFieldStart {ops : List Op} {d : Option Channel} (h : Quiet ops d)
    (hm : MarkOp.Muted ops) :
    (sHeaderFieldStart c ch ops).Tracked d ch := by
  unfold sHeaderFieldStart
  split
  · exact tracked_go h rfl
  · split
    · exact tracked_headersAlmostDone h hm
    · split
      · exact tracked_fail (h.tidied hm)
      · exact tracked_mark ops h rfl

theorem tracked_headerValueStart : (sHeaderValueStart c ch).Tracked none ch := by
  have hmark : ∀ {c' : Parser}, c'.state = .headerValue → c'.toHttpParser = c.toHttpParser →
      (c'.go ch [c.mark .headerValue]).Tracked none ch := by
    intro c' hs hp
    refine tracked_mark [] quiet_nil ?_
    simp only [Marked, hs, State.entryMark, hp]
  unfold sHeaderValueStart
  simp only
  split
  · exact hmark rfl rfl
  · exact hmark rfl rfl
  · split
    · exact tracked_fail (tidied_mark _)
    · split
      · exact tracked_fail (tidied_mark _)
      · exact hmark rfl rfl
  · exact hmark rfl rfl
  · exact hmark rfl rfl
  · exact hmark rfl rfl
  · exact hmark rfl rfl

theorem tracked_headerValueDiscardWs (hs : c.state = .headerValueDiscardWs) :
    (sHeaderValueDiscardWs c ch).Tracked none ch := by
  unfold sHeaderValueDiscardWs
  split
  · exact tracked_go quiet_nil (by rw [hs]; rfl)
  · split
    · exact tracked_go quiet_nil rfl
    · split
      · exact tracked_go quiet_nil rfl
      · exact tracked_headerValueStart

theorem tracked_headerValueDiscardLws : (sHeaderValueDiscardLws c ch).Tracked none ch := by
  unfold sHeaderValueDiscardLws
  split
  · exact tracked_go quiet_nil rfl
  · split
    · exact tracked_fail tidied_nil
    · refine tracked_headerFieldStart (quiet_markFlush (.headerValue, c.toHttpParser) 0) ?_
      simp [MarkOp.Muted, Parser.mark, Parser.callbackDataNoadvance]

theorem tracked_headerAlmostDone {ops : List Op} {d : Option Channel} (h : Quiet ops d)
    (hm : MarkOp.Muted ops) : (sHeaderAlmostDone c ch ops).Tracked d ch := by
  unfold sHeaderAlmostDone
  split
  · exact tracked_fail (h.tidied hm)
  · exact tracked_go h rfl

theorem tracked_headerValueLws : (sHeaderValueLws c ch).Tracked none ch := by
  unfold sHeaderValueLws
  split
  · exact tracked_headerValueStart
  · exact tracked_headerFieldStart quiet_nil MarkOp.muted_nil

theorem tracked_fieldStep (hs : c.state = .headerField) :
    (fieldStep c ch).Tracked (some (channel (.headerField, c.toHttpParser))) ch := by
  unfold fieldStep
  split
  · split
    · exact tracked_go (quiet_flush 1 (Or.inr rfl)) rfl
    · exact tracked_fail tidied_nil
  · split
    · exact tracked_abort
    · rename_i c' hc'
      refine tracked_stay ?_
      rw [fieldChar_frame hc']
      simp only [Marked, hs, State.entryMark]

theorem tracked_valueStep (hs : c.state = .headerValue) :
    (valueStep c ch).Tracked (some (channel (.headerValue, c.toHttpParser))) ch := by
  unfold valueStep
  split
  · exact tracked_go (quiet_flush 1 (Or.inr rfl)) rfl
  · split
    · exact tracked_headerAlmostDone (quiet_flush 0 (Or.inr rfl)) (muted_flush _ 0)
    · split
      · exact tracked_fail tidied_nil
      · split
        · exact tracked_abort
        · exact tracked_fail tidied_nil
        · rename_i c' hc'
          refine tracked_stay ?_
          rw [valueChar_frame hs hc']
          simp only [Marked, hs, State.entryMark]

theorem tracked_bodyStep {d : Option Channel} (hs : c.state = .bodyIdentity)
    (hd : d = none ∨ d = some (channel (.body, c.toHttpParser))) : (bodyStep c ch).Tracked d ch := by
  unfold bodyStep
  split
  · exact tracked_abort
  · simp only
    split
    · refine tracked_of (messageDone_out _) ⟨rfl, fun n => ?_⟩
      refine ⟨⟨hd, trivial, fun y hy _ => (Option.some.inj hy).symm, rfl, trivial⟩, none, rfl, ?_⟩
      exact marked_none rfl
    · refine tracked_of (by simp) ⟨rfl, fun n => ?_⟩
      refine ⟨⟨hd, trivial, trivial⟩, _, rfl, ?_⟩
      simp [Marked, hs, State.entryMark, State.inBody]

theorem tracked_chunkStep {d : Option Channel} (hs : c.state = .chunkData)
    (hd : d = none ∨ d = some (channel (.body, c.toHttpParser))) : (chunkStep c ch).Tracked d ch := by
  unfold chunkStep
  split
  · exact tracked_abort
  · refine tracked_of (by simp) ⟨rfl, fun n => ?_⟩
    refine ⟨⟨hd, trivial, trivial⟩, _, rfl, ?_⟩
    simp only [parser_go]
    split <;> simp [Marked, hs, State.entryMark, State.inBody]

theorem tracked_chunkDataAlmostDone {d : Option Channel}
    (hd : d = none ∨ d = some (channel (.body, c.toHttpParser))) :
    (sChunkDataAlmostDone c ch).Tracked d ch := by
  unfold sChunkDataAlmostDone
  split
  · exact tracked_abort
  · exact tracked_go (quiet_flush 1 hd) rfl

end States

/-! ## The `switch` -/

/-- **What is marked** behind a byte. -/
theorem tracked_step {c : Parser} {d : Option Channel} (hd : Marked c d) (ch : UInt8) :
    (step c ch).Tracked d ch := by
  have hnone : c.state.entryMark = none → c.state.inBody = false → d = none := by
    intro hmark hbody
    simpa [Marked, hmark, hbody] using hd
  have hbody : c.state.inBody = true → c.state.entryMark = none →
      d = none ∨ d = some (channel (.body, c.toHttpParser)) := by
    intro hbody hmark
    simpa [Marked, hmark, hbody] using hd
  cases hs : c.state <;> rw [hs] at hnone hbody <;> simp only [step, move, hs]
  case reqUrl s => exact tracked_reqUrl hs hd
  case headerField =>
    obtain rfl : d = some (channel (.headerField, c.toHttpParser)) := by
      simpa only [Marked, hs, State.entryMark] using hd
    exact tracked_fieldStep hs
  case headerValue =>
    obtain rfl : d = some (channel (.headerValue, c.toHttpParser)) := by
      simpa only [Marked, hs, State.entryMark] using hd
    exact tracked_valueStep hs
  case bodyIdentity => exact tracked_bodyStep hs (hbody rfl rfl)
  case chunkData => exact tracked_chunkStep hs (hbody rfl rfl)
  case chunkDataAlmostDone => exact tracked_chunkDataAlmostDone (hbody rfl rfl)
  all_goals obtain rfl := hnone rfl rfl
  case startReq => exact tracked_startReq hs
  case reqMethod => exact tracked_reqMethod hs
  case headerFieldStart => exact tracked_headerFieldStart quiet_nil MarkOp.muted_nil
  case headerValueDiscardWs => exact tracked_headerValueDiscardWs hs
  case headerValueDiscardLws => exact tracked_headerValueDiscardLws
  case headerValueStart => exact tracked_headerValueStart
  case headerValueLws => exact tracked_headerValueLws
  case headerAlmostDone => exact tracked_headerAlmostDone quiet_nil MarkOp.muted_nil
  case headersAlmostDone => exact tracked_headersAlmostDone quiet_nil MarkOp.muted_nil
  case headersDone => exact tracked_headersDone quiet_nil
  case messageDone => exact tracked_messageDone quiet_nil (messageDone_out c)
  case reqHttpStart =>
    unfold sReqHttpStart
    split_ifs
    · exact tracked_go quiet_nil (by rw [hs]; rfl)
    · exact tracked_go quiet_nil rfl
    · exact tracked_go quiet_nil rfl
    · exact tracked_fail tidied_nil
  case reqHttpMajor =>
    unfold sReqHttpMajor
    split
    · exact tracked_fail tidied_nil
    · exact tracked_go quiet_nil rfl
  case reqHttpDot =>
    unfold sReqHttpDot
    split
    · exact tracked_fail tidied_nil
    · exact tracked_go quiet_nil rfl
  case reqHttpMinor =>
    unfold sReqHttpMinor
    split
    · exact tracked_fail tidied_nil
    · exact tracked_go quiet_nil rfl
  case reqHttpEnd =>
    unfold sReqHttpEnd
    split_ifs
    · exact tracked_go quiet_nil rfl
    · exact tracked_go quiet_nil rfl
    · exact tracked_fail tidied_nil
  case reqLineAlmostDone =>
    unfold sReqLineAlmostDone
    split
    · exact tracked_fail tidied_nil
    · exact tracked_go quiet_nil rfl
  case chunkSizeStart =>
    unfold sChunkSizeStart
    split
    · exact tracked_abort
    · split
      · exact tracked_fail tidied_nil
      · exact tracked_go quiet_nil rfl
  case chunkSize =>
    unfold sChunkSize
    split
    · exact tracked_abort
    · split
      · exact tracked_go quiet_nil rfl
      · split
        · split
          · exact tracked_go quiet_nil rfl
          · exact tracked_fail tidied_nil
        · split
          · exact tracked_fail tidied_nil
          · exact tracked_go quiet_nil (by simp only [hs]; rfl)
  case chunkParameters =>
    unfold sChunkParameters
    split
    · exact tracked_abort
    · split
      · exact tracked_go quiet_nil rfl
      · exact tracked_go quiet_nil (by rw [hs]; rfl)
  case chunkSizeAlmostDone =>
    unfold sChunkSizeAlmostDone
    split
    · exact tracked_abort
    · split
      · exact tracked_go quiet_nil rfl
      · exact tracked_go quiet_nil rfl
  case chunkDataDone =>
    unfold sChunkDataDone
    split
    · exact tracked_abort
    · exact tracked_go quiet_nil rfl
  -- the letters of `HTTP` and the line end behind an empty value
  all_goals exact tracked_go quiet_nil rfl

theorem marked_countByte {c : Parser} {d : Option Channel} (h : Marked c d) : Marked (countByte c) d := by
  unfold countByte
  split
  · exact h
  · exact h

theorem tracks_byteStep {c c' : Parser} {d : Option Channel} {ch : UInt8} {ops : List Op}
    (hd : Marked c d) (h : byteStep c ch = some (ops, c')) : Tracks ops c' d ch := by
  obtain ⟨-, -, rfl, rfl, hout⟩ := byteStep_eq h
  exact (tracked_step (marked_countByte hd) ch).tracks hout

/-- **What is marked** behind some bytes. -/
theorem tracks_scan {c c' : Parser} {p : Bytes} {ops : List Op} (h : scan byteStep c p = some (ops, c'))
    (d : Option Channel) (hd : Marked c d) (n : Nat) :
    MarkOp.passed ops = p ∧ MarkOp.TidyOps channel Prod.fst ops (d, n) ∧
      ∃ d', (MarkOp.meaning channel Prod.fst ops (d, n)).2 = (d', n + p.length) ∧ Marked c' d' := by
  induction p generalizing c d n ops with
  | nil =>
    simp only [scan, Option.some.injEq, Prod.mk.injEq] at h
    obtain ⟨rfl, rfl⟩ := h
    exact ⟨rfl, trivial, d, rfl, hd⟩
  | cons ch p ih =>
    obtain ⟨as, c₁, bs, hstep, hrest, rfl⟩ := Scan.scan_cons_some byteStep h
    obtain ⟨hpassed, htracks⟩ := tracks_byteStep hd hstep
    obtain ⟨htidy, d₁, hmeaning, hd₁⟩ := htracks n
    obtain ⟨hpassed', htidy', d', hmeaning', hd'⟩ := ih hrest d₁ hd₁ (n + 1)
    rw [MarkOp.passed_append, hpassed, hpassed', MarkOp.tidyOps_append, MarkOp.meaning_append, hmeaning]
    refine ⟨rfl, ⟨htidy, htidy'⟩, d', ?_, hd'⟩
    rw [hmeaning', List.length_cons, Nat.add_assoc, Nat.add_comm 1]

/-! ## The start and the end of a buffer -/

/-- **The mark that is set again** is the one that was dropped, or the first
operation does not need it. -/
theorem resumes_step {c : Parser} {d : Option Channel} (hd : Marked c d) (ch : UInt8)
    (hgo : (step c ch).out = .next ∨ (step c ch).out = .ret) (ops : List Op) :
    MarkOp.Resumes channel Prod.fst d (entryOps c) ((step c ch).ops ++ ops) := by
  unfold Marked at hd
  cases hmark : c.state.entryMark with
  | some k =>
    simp only [hmark] at hd
    subst hd
    simp only [entryOps, hmark]
    exact MarkOp.Resumes.again (k, c.toHttpParser) _
  | none =>
    simp only [hmark] at hd
    simp only [entryOps, hmark]
    rcases hd with rfl | ⟨hbody, rfl⟩
    · exact MarkOp.Resumes.idle _
    · cases hs : c.state <;> rw [hs] at hbody <;>
        try (cases hbody; done)
      case bodyIdentity =>
        simp only [step, hs] at hgo ⊢
        unfold bodyStep at hgo ⊢
        split
        · rename_i hno
          rw [if_pos hno] at hgo
          simp at hgo
        · simp only
          split
          · exact MarkOp.Resumes.mark _ (DataKind.body, c.toHttpParser) _
          · exact MarkOp.Resumes.mark _ (DataKind.body, c.toHttpParser) _
      case chunkData =>
        simp only [step, hs] at hgo ⊢
        unfold chunkStep at hgo ⊢
        split
        · rename_i hno
          rw [if_pos hno] at hgo
          simp at hgo
        · exact MarkOp.Resumes.mark _ (DataKind.body, c.toHttpParser) _
      case chunkDataAlmostDone =>
        simp only [step, move, hs] at hgo ⊢
        unfold sChunkDataAlmostDone at hgo ⊢
        split
        · rename_i hno
          rw [if_pos hno] at hgo
          simp at hgo
        · exact MarkOp.Resumes.flush _ (DataKind.body, c.toHttpParser) 1 _ rfl

theorem entryOps_countByte (c : Parser) : entryOps (countByte c) = entryOps c := by
  have hmark : ∀ k, (countByte c).mark k = c.mark k := by
    intro k
    unfold countByte
    split <;> rfl
  simp only [entryOps, countByte_state, hmark]

theorem resumes_scan {c c' : Parser} {d : Option Channel} {p : Bytes} {ops : List Op}
    (hd : Marked c d) (hp : p ≠ []) (h : scan byteStep c p = some (ops, c')) :
    MarkOp.Resumes channel Prod.fst d (entryOps c) ops := by
  cases p with
  | nil => exact absurd rfl hp
  | cons ch p =>
    obtain ⟨as, c₁, bs, hstep, -, rfl⟩ := Scan.scan_cons_some byteStep h
    obtain ⟨-, -, rfl, -, hout⟩ := byteStep_eq hstep
    have hresumes := resumes_step (marked_countByte hd) ch hout bs
    rwa [entryOps_countByte] at hresumes

/-- The channel that is marked on entry. -/
def entryChannel (c : Parser) : Option Channel := c.state.entryMark.map fun k => channel (k, c.toHttpParser)

theorem marked_entry (c : Parser) : Marked c (entryChannel c) := by
  unfold Marked entryChannel
  cases c.state.entryMark with
  | none => exact Or.inl rfl
  | some k => rfl

theorem entryOps_tidy (c : Parser) (n : Nat) :
    MarkOp.TidyOps channel Prod.fst (entryOps c) (none, n) ∧
      (MarkOp.meaning channel Prod.fst (entryOps c) (none, n)).2 = (entryChannel c, n) := by
  unfold entryOps entryChannel
  cases c.state.entryMark with
  | none => exact ⟨trivial, rfl⟩
  | some k => exact ⟨⟨Or.inl rfl, trivial⟩, rfl⟩

/-- **The end of a buffer** hands out what is marked, and nothing else. -/
theorem leftoverOps_tidy {c : Parser} {d : Option Channel} (hd : Marked c d) (n : Nat) :
    MarkOp.TidyOps channel Prod.fst (leftoverOps c) (d, n) ∧
      MarkOp.meaning channel Prod.fst (leftoverOps c) (d, n) = ([], none, n) := by
  have hmark : d = none ∨ ∃ k, d = some (channel (k, c.toHttpParser)) := by
    unfold Marked at hd
    split at hd
    · exact Or.inr ⟨_, hd⟩
    · exact hd.imp_right fun h => ⟨_, h.2⟩
  rcases hmark with rfl | ⟨k, rfl⟩
  · simp [leftoverOps, Parser.callbackDataNoadvance, MarkOp.TidyOps, MarkOp.Tidy, MarkOp.meaning,
      MarkOp.mean]
  · cases k <;>
      simp [leftoverOps, Parser.callbackDataNoadvance, MarkOp.TidyOps, MarkOp.Tidy, MarkOp.meaning,
        MarkOp.mean, channel]

end Ehttp.Http
