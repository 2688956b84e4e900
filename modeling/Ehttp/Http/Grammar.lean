import Ehttp.Http.Cuts
import Ehttp.Parse.Trace

/-!
# What the callbacks of `http_parser` say

Whatever bytes are parsed, the callbacks say messages, one behind the other, and
the beginning of one more.

* `Partway`: what was said of a message so far, by the state of the parser;
* `carried_step`: a byte adds to it, or ends the message;
* `messages_scan`: so it is for every input.
-/

namespace Ehttp.Http

open Lib

/-! ## Messages -/

def fieldSaid (p : HttpParser) (s : Bytes) : Said := .data (.headerField, some p) s

def valueSaid (p : HttpParser) (s : Bytes) : Said := .data (.headerValue, some p) s

/-- No fragment of a body is empty, so an empty body is not said. -/
def bodySaid (p : HttpParser) (s : Bytes) : List Said :=
  if s = [] then [] else [.data (.body, some p) s]

def linesSaid (p : HttpParser) (headers : List (Bytes × Bytes)) : List Said :=
  headers.flatMap fun h => [fieldSaid p h.1, valueSaid p h.2]

def urlSaid (s : Bytes) : Said := .data (.url, none) s

def headSaid (p : HttpParser) (url : Bytes) (headers : List (Bytes × Bytes)) : List Said :=
  urlSaid url :: linesSaid p headers

def headersCompleteSaid (p : HttpParser) (n : Nat) : Said := .notice ((p, .headersComplete), n)

def messageCompleteSaid (p : HttpParser) (n : Nat) : Said := .notice ((p, .messageComplete), n)

/-- A message that begins at `start`. -/
def messageSaid (start : Nat) (m : Message) : List Said :=
  headSaid m.parser m.url m.headers ++ headersCompleteSaid m.parser (start + m.headLf) ::
    (bodySaid m.parser m.body ++ linesSaid m.parser m.trailers ++
      [messageCompleteSaid m.parser (start + m.size)])

def messagesSaid : Nat → List Message → List Said
  | _, [] => []
  | start, m :: ms => messageSaid start m ++ messagesSaid (start + m.size) ms

def messagesSize (ms : List Message) : Nat := (ms.map Message.size).sum

theorem linesSaid_append (p : HttpParser) (hs ks : List (Bytes × Bytes)) :
    linesSaid p (hs ++ ks) = linesSaid p hs ++ linesSaid p ks := by
  simp [linesSaid]

theorem messagesSaid_append (start : Nat) (ms ks : List Message) :
    messagesSaid start (ms ++ ks) =
      messagesSaid start ms ++ messagesSaid (start + messagesSize ms) ks := by
  induction ms generalizing start with
  | nil => simp [messagesSaid, messagesSize]
  | cons m ms ih => simp [messagesSaid, messagesSize, ih, Nat.add_assoc]

/-! ## A part of a message -/

/-- How far the message is read. -/
inductive Stage
  | begin | url | line | headers | name | value | body | never
  deriving DecidableEq, Repr

/-- `never` are the states that a `REEXECUTE` leaves at once. -/
def State.stage : State → Stage
  | .startReq | .reqMethod | .reqUrl .spacesBeforeUrl | .reqUrl .dead => .begin
  | .reqUrl _ => .url
  | .reqHttpStart | .reqHttpH | .reqHttpHT | .reqHttpHTT | .reqHttpHTTP | .reqHttpI | .reqHttpIC
  | .reqHttpMajor | .reqHttpDot | .reqHttpMinor | .reqHttpEnd | .reqLineAlmostDone => .line
  | .headerFieldStart | .headersAlmostDone => .headers
  | .headerField | .headerValueDiscardWs | .headerValueDiscardWsAlmostDone
  | .headerValueDiscardLws => .name
  | .headerValue | .headerAlmostDone | .headerValueLws => .value
  | .chunkSizeStart | .chunkSize | .chunkParameters | .chunkSizeAlmostDone | .chunkData
  | .chunkDataAlmostDone | .chunkDataDone | .bodyIdentity => .body
  | .headerValueStart | .headersDone | .messageDone => .never

/-- The head and the body so far, with the end of the head at `start + lf`. -/
def BodyRead (p : HttpParser) (start n : Nat) (l : List Said) : Prop :=
  ∃ url hs lf b, start + lf < n ∧
    l = headSaid p url hs ++ headersCompleteSaid p (start + lf) :: bodySaid p b

/-- What is said in front of the header lines: the URL, or the head and the body
if they are trailers. -/
def Front (trailing : Bool) (p : HttpParser) (start n : Nat) (l : List Said) : Prop :=
  match trailing with
  | true => BodyRead p start n l
  | false => ∃ url, l = [urlSaid url]

/-- What was said of a message that began at `start`, up to gluing. -/
def Partway (c : Parser) (start n : Nat) (l : List Said) : Prop :=
  let p := c.toHttpParser
  match c.state.stage with
  | .begin => l = [] ∧ (c.state ≠ .startReq → c.flags.trailing = false)
  | .url | .line => c.flags.trailing = false ∧ ∃ url, Output.join l = Output.join [urlSaid url]
  | .headers => ∃ front hs, Front c.flags.trailing p start n front ∧
      Output.join l = Output.join (front ++ linesSaid p hs)
  | .name => ∃ front hs f, Front c.flags.trailing p start n front ∧
      Output.join l = Output.join (front ++ linesSaid p hs ++ [fieldSaid p f])
  | .value => ∃ front hs f v, Front c.flags.trailing p start n front ∧
      Output.join l = Output.join (front ++ linesSaid p hs ++ [fieldSaid p f, valueSaid p v])
  | .body => c.flags.trailing = false ∧ ∃ all, BodyRead p start n all ∧ Output.join l = Output.join all
  | .never => False

/-- The message goes on, or has ended at `n`. -/
def Carries (c : Parser) (start n : Nat) (l : List Said) : Prop :=
  Partway c start n l ∨
    c.state = .startReq ∧ ∃ m : Message, m.headLf < m.size ∧ start + m.size = n ∧
      Output.join l = Output.join (messageSaid start m)

def Move.Carried (m : Move) (d : Option Channel) (start n : Nat) (l : List Said) : Prop :=
  m.out = .next ∨ m.out = .ret → Carries m.parser start (n + 1) (l ++ meaningOf m.ops d n)

theorem BodyRead.mono {p : HttpParser} {start n : Nat} {l : List Said} (h : BodyRead p start n l) :
    BodyRead p start (n + 1) l := by
  obtain ⟨url, hs, lf, b, hlt, rfl⟩ := h
  exact ⟨url, hs, lf, b, by omega, rfl⟩

theorem Front.mono {trailing : Bool} {p : HttpParser} {start n : Nat} {l : List Said}
    (h : Front trailing p start n l) : Front trailing p start (n + 1) l := by
  cases trailing with
  | true => exact BodyRead.mono h
  | false => exact h

/-! ## Moves -/

section Moves

variable {c : Parser} {ch : UInt8} {d : Option Channel} {start n : Nat} {l : List Said}

theorem carried_fail {e : Errno} {ops : List Op} : (c.fail e ops).Carried d start n l :=
  fun h => by simp at h

theorem carried_abort : c.abort.Carried d start n l := fun h => by simp at h

theorem meaningOf_quiet {pre : List Op} (h : Quiet pre d) (ops : List Op) :
    meaningOf (pre ++ ops) d n = meaningOf pre d n ++ meaningOf ops none n := by
  rw [meaningOf, MarkOp.meaning_append, (h.2 n).2]

theorem carried_go {pre : List Op} (hq : Quiet pre d)
    (h : Partway c start (n + 1) (l ++ meaningOf pre d n)) : (c.go ch pre).Carried d start n l := by
  intro _
  left
  rw [go_ops, meaningOf_quiet hq]
  simpa [meaningOf, MarkOp.meaning, MarkOp.mean] using h

/-- Without a mark nothing is said. -/
theorem carried_silent (h : Partway c start (n + 1) l) : (c.go ch []).Carried none start n l :=
  carried_go quiet_nil (by simpa [meaningOf, MarkOp.meaning] using h)

theorem carried_mark (pre : List Op) (hq : Quiet pre d) {x : DataKind × HttpParser}
    (h : Partway c start (n + 1)
      (l ++ meaningOf pre d n ++ [.data (channel x) [], .data (channel x) [ch]])) :
    (c.go ch (pre ++ [.mark x])).Carried d start n l := by
  intro _
  left
  rw [go_ops, List.append_assoc, meaningOf_quiet hq]
  simpa [meaningOf, MarkOp.meaning, MarkOp.mean] using h

theorem carried_stay {x : Channel} (h : Partway c start (n + 1) (l ++ [.data x [ch]])) :
    (c.go ch []).Carried (some x) start n l := by
  intro _
  left
  simpa [meaningOf, MarkOp.meaning, MarkOp.mean] using h

/-- A first byte, and one more. -/
theorem join_first (front : List Said) (x : Channel) (s : Bytes) :
    Output.join (front ++ [.data x [], .data x s]) = Output.join (front ++ [.data x s]) :=
  Output.join_merge front [] x [] s

theorem join_more (front : List Said) {l : List Said} {x : Channel} {s t : Bytes}
    (h : Output.join l = Output.join (front ++ [.data x s])) :
    Output.join (l ++ [.data x t]) = Output.join (front ++ [.data x (s ++ t)]) := by
  rw [Output.join_congr h rfl, List.append_assoc]
  exact Output.join_merge front [] x s t

/-! ## The request line -/

theorem carried_startReq (h : Partway c start n l) (hs : c.state = .startReq) :
    (sStartReq c ch).Carried none start n l := by
  obtain rfl : l = [] := by simpa [Partway, hs, State.stage] using h
  unfold sStartReq
  split
  · exact carried_silent (by simp [Partway, hs, State.stage])
  · simp only
    split
    · exact carried_fail
    · split
      · exact carried_fail
      · exact carried_silent (by simp [Partway, State.stage])

theorem carried_reqMethod (h : Partway c start n l) (hs : c.state = .reqMethod) :
    (sReqMethod c ch).Carried none start n l := by
  obtain ⟨rfl, htrailing⟩ : l = [] ∧ c.flags.trailing = false := by
    simpa [Partway, hs, State.stage] using h
  have hnext : ∀ {c' : Parser}, c'.state.stage = .begin → c'.flags.trailing = false →
      (c'.nextIndex.go ch []).Carried none start n [] := by
    intro c' hs' ht
    refine carried_silent ?_
    simp [Partway, Parser.nextIndex, hs', ht]
  unfold sReqMethod
  split
  · exact carried_fail
  · split
    · exact carried_abort
    · split
      · exact hnext rfl htrailing
      · split
        · exact hnext (by rw [hs]; rfl) htrailing
        · split
          · split
            · exact carried_fail
            · exact hnext (by simp only [hs]; rfl) htrailing
          · exact carried_fail

theorem stage_reqUrl {s : UrlState} (hdead : s ≠ .dead) (hstart : s ≠ .spacesBeforeUrl) :
    (State.reqUrl s).stage = .url := by
  cases s <;> first | rfl | exact absurd rfl hdead | exact absurd rfl hstart

/-- A byte of the URL. -/
theorem carried_urlChar {s : UrlState} {ops : List Op} (ht : c.flags.trailing = false)
    (h : ∃ url, Output.join (l ++ meaningOf (ops ++ [.pass [ch]]) d n) = Output.join [urlSaid url]) :
    (urlChar c s ch ops).Carried d start n l := by
  unfold urlChar
  simp only
  split
  · exact carried_fail
  · rename_i hdead
    intro _
    left
    rw [parser_go, go_ops, Partway]
    simp only [stage_reqUrl hdead (parseUrlChar_ne_start s ch)]
    exact ⟨ht, h⟩

/-- The URL ends. -/
theorem carried_urlEnd {c' : Parser} {p : HttpParser} (hd : d = some (channel (.url, p)))
    (h : Partway c' start (n + 1) l) : (c'.go ch [.flush (.url, p) 1]).Carried d start n l := by
  refine carried_go (quiet_flush 1 (Or.inr hd)) ?_
  simpa [meaningOf, MarkOp.meaning, MarkOp.mean] using h

theorem carried_reqUrl {s : UrlState} (h : Partway c start n l) (hs : c.state = .reqUrl s)
    (hd : Marked c d) : (sReqUrl c s ch).Carried d start n l := by
  have hmore : d = some (channel (.url, c.toHttpParser)) → (State.reqUrl s).stage = .url →
      (urlChar c s ch []).Carried d start n l := by
    rintro rfl hstage
    simp only [Partway, hs, hstage] at h
    obtain ⟨ht, url, hurl⟩ := h
    refine carried_urlChar ht ⟨url ++ [ch], ?_⟩
    simpa [meaningOf, MarkOp.meaning, MarkOp.mean, channel, urlSaid] using
      join_more [] (t := [ch]) hurl
  have hfront : d = some (channel (.url, c.toHttpParser)) → (State.reqUrl s).stage = .url →
      (if ch = 32 ∨ ch = CR ∨ ch = LF then c.fail .invalidUrl []
      else urlChar c s ch []).Carried d start n l := by
    intro hd' hstage
    split
    · exact carried_fail
    · exact hmore hd' hstage
  have hback : d = some (channel (.url, c.toHttpParser)) → (State.reqUrl s).stage = .url →
      (if ch = 32 then Parser.go { c with state := .reqHttpStart } ch [c.callbackData .url]
      else if ch = CR ∨ ch = LF then
        let c := { c with
          httpMajor := 0
          httpMinor := 9
          state := if ch = CR then .reqLineAlmostDone else .headerFieldStart }
        c.go ch [c.callbackData .url]
      else urlChar c s ch []).Carried d start n l := by
    intro hd' hstage
    have hread := h
    simp only [Partway, hs, hstage] at hread
    obtain ⟨ht, url, hurl⟩ := hread
    split
    · exact carried_urlEnd hd' (by simpa [Partway, State.stage] using ⟨ht, url, hurl⟩)
    · split
      · simp only
        refine carried_urlEnd hd' ?_
        split
        · simpa [Partway, State.stage] using ⟨ht, url, hurl⟩
        · exact ⟨[urlSaid url], [], by rw [ht]; exact ⟨url, rfl⟩, by simpa [linesSaid] using hurl⟩
      · exact hmore hd' hstage
  unfold Marked at hd
  rw [hs] at hd
  cases s with
  | dead =>
    obtain rfl : d = none := hd.resolve_right fun h => by cases h.1
    rw [sReqUrl]
    split
    · exact carried_silent (by simpa [Partway, hs, State.stage] using h)
    · exact carried_fail
  | spacesBeforeUrl =>
    obtain rfl : d = none := hd.resolve_right fun h => by cases h.1
    simp only [Partway, hs, State.stage] at h
    obtain ⟨rfl, ht⟩ := h
    have ht := ht (by simp)
    rw [sReqUrl]
    split
    · exact carried_silent (by simpa [Partway, hs, State.stage] using ht)
    · refine carried_urlChar ht ⟨[ch], ?_⟩
      simpa [meaningOf, MarkOp.meaning, MarkOp.mean, Parser.mark, channel, urlSaid] using
        join_first [] (channel (.url, c.toHttpParser)) [ch]
  | schema | schemaSlash | schemaSlashSlash | serverStart => exact hfront hd rfl
  | server | serverWithAt | path | queryStringStart | queryString | fragmentStart | fragment =>
    exact hback hd rfl

/-- The rest of the request line says nothing. -/
theorem carried_line {c' : Parser} (h : Partway c start n l) (hs : c.state.stage = .line)
    (ht : c'.flags = c.flags) (hs' : c'.state.stage = .line) :
    (c'.go ch []).Carried none start n l := by
  simp only [Partway, hs] at h
  exact carried_silent (by simpa [Partway, hs', ht] using h)

theorem carried_lineEnd {c' : Parser} (h : Partway c start n l) (hs : c.state.stage = .line)
    (ht : c'.flags = c.flags) (hs' : c'.state = .headerFieldStart) :
    (c'.go ch []).Carried none start n l := by
  simp only [Partway, hs] at h
  obtain ⟨htrailing, url, hurl⟩ := h
  refine carried_silent ?_
  simp only [Partway, hs', State.stage, ht, htrailing]
  exact ⟨[urlSaid url], [], ⟨url, rfl⟩, by simpa [linesSaid] using hurl⟩

/-! ## The end of a message -/

/-- A notice adds itself. -/
theorem meaningOf_notify {pre : List Op} (h : Quiet pre d) (e : HttpParser × Notice) (er : Nat) :
    meaningOf (pre ++ [.notify e er]) d n = meaningOf pre d n ++ [.notice (e, n + er)] := by
  rw [meaningOf_quiet h]
  rfl

theorem meaningOf_pass {pre : List Op} (h : Quiet pre d) :
    meaningOf (pre ++ [.pass [ch]]) d n = meaningOf pre d n := by
  rw [meaningOf_quiet h]
  simp [meaningOf, MarkOp.meaning, MarkOp.mean]

/-- `message_complete` behind `pre`. -/
theorem carried_messageComplete {pre : List Op} {c' : Parser} {out : Out} (m : Message)
    (hq : Quiet pre d) (hs : c'.state = .startReq) (hsize : start + m.size = n + 1)
    (hlf : m.headLf < m.size)
    (h : Output.join (l ++ meaningOf pre d n ++ [messageCompleteSaid c.toHttpParser (n + 1)]) =
      Output.join (messageSaid start m)) :
    Move.Carried ⟨c', pre ++ [c.messageComplete, .pass [ch]], out⟩ d start n l := by
  intro _
  refine Or.inr ⟨hs, m, hlf, hsize, ?_⟩
  have hops : meaningOf (pre ++ [c.messageComplete, .pass [ch]]) d n =
      meaningOf pre d n ++ [messageCompleteSaid c.toHttpParser (n + 1)] := by
    rw [show pre ++ [c.messageComplete, .pass [ch]] = pre ++ [c.messageComplete] ++ [.pass [ch]] by simp,
      Parser.messageComplete, meaningOf_pass (hq.notify (c.toHttpParser, .messageComplete) 1),
      meaningOf_notify hq]
    rfl
  rw [hops, ← List.append_assoc]
  exact h

/-- The message of a head at whose LF it ends. -/
def headMessage (p : HttpParser) (url : Bytes) (headers : List (Bytes × Bytes)) (lf : Nat) : Message where
  method := p.method
  url := url
  httpMajor := p.httpMajor
  httpMinor := p.httpMinor
  headers := headers
  body := []
  trailers := []
  headLf := lf
  size := lf + 1

theorem carried_headersDone {pre : List Op} (url : Bytes) (hs : List (Bytes × Bytes))
    (hq : Quiet pre d) (hle : start ≤ n) (ht : c.flags.trailing = false)
    (h : Output.join (l ++ meaningOf pre d n) =
      Output.join (headSaid c.toHttpParser url hs ++ [headersCompleteSaid c.toHttpParser n])) :
    (sHeadersDone c ch pre).Carried d start n l := by
  have hend : ∀ c' : Parser, c'.state = .startReq → ∀ out,
      Move.Carried ⟨c', pre ++ [c.messageComplete, .pass [ch]], out⟩ d start n l := by
    intro c' hs' out
    have hn : start + (n - start) = n := by omega
    refine carried_messageComplete (headMessage c.toHttpParser url hs (n - start)) hq hs'
      (by simp only [headMessage]; omega) (by simp [headMessage]) ?_
    rw [Output.join_congr h rfl, List.append_assoc]
    have hn' : start + (n - start + 1) = n + 1 := by omega
    simp [messageSaid, headMessage, Message.parser, bodySaid, linesSaid, hn, hn']
  have hdone : ∀ c' : Parser, c'.state = .startReq →
      (c'.go ch (pre ++ [c.messageComplete])).Carried d start n l := by
    intro c' hs'
    have hmove := hend c' hs' .next
    rwa [show pre ++ [c.messageComplete, .pass [ch]] = pre ++ [c.messageComplete] ++ [.pass [ch]] by simp]
      at hmove
  have hbody : ∀ c' : Parser, c'.state.stage = .body → c'.flags = c.flags →
      c'.toHttpParser = c.toHttpParser → (c'.go ch pre).Carried d start n l := by
    intro c' hs' hflags hp
    refine carried_go hq ?_
    simp only [Partway, hs', hflags, hp]
    refine ⟨ht, _, ⟨url, hs, n - start, [], by omega, rfl⟩, ?_⟩
    rw [h]
    have hn : start + (n - start) = n := by omega
    simp [bodySaid, hn]
  unfold sHeadersDone
  simp only
  split
  · exact hend _ rfl .ret
  · split
    · exact hdone _ rfl
    · split
      · exact hbody _ rfl rfl rfl
      · split
        · exact hdone _ rfl
        · split
          · exact hbody _ rfl rfl rfl
          · exact hdone _ rfl

/-- The end of the headers, or of the trailers. -/
theorem carried_headersAlmostDone {pre : List Op} (hq : Quiet pre d) (hle : start ≤ n)
    {front : List Said} {hs : List (Bytes × Bytes)}
    (hfront : Front c.flags.trailing c.toHttpParser start n front)
    (h : Output.join (l ++ meaningOf pre d n) =
      Output.join (front ++ linesSaid c.toHttpParser hs)) :
    (sHeadersAlmostDone c ch pre).Carried d start n l := by
  unfold sHeadersAlmostDone
  cases ht : c.flags.trailing with
  | true =>
    rw [ht] at hfront
    obtain ⟨url, hs₀, lf, b, hlt, rfl⟩ := hfront
    have hn : start + (n + 1 - start) = n + 1 := by omega
    rw [if_pos rfl]
    refine carried_messageComplete { headMessage c.toHttpParser url hs₀ lf with
      body := b, trailers := hs, size := n + 1 - start } hq rfl hn (by simp only [headMessage]; omega) ?_
    rw [Output.join_congr h rfl]
    simp [messageSaid, headMessage, Message.parser, hn]
  | false =>
    rw [ht] at hfront
    obtain ⟨url, rfl⟩ := hfront
    rw [if_neg (by simp)]
    split
    · exact carried_fail
    · refine carried_headersDone url hs (hq.notify _ _) hle ht ?_
      rw [meaningOf_notify hq, ← List.append_assoc, Output.join_congr h rfl]
      simp [headSaid, headersCompleteSaid]

theorem carried_headerFieldStart {pre : List Op} (front : List Said) (hs : List (Bytes × Bytes))
    (hq : Quiet pre d) (hle : start ≤ n)
    (hfront : Front c.flags.trailing c.toHttpParser start n front)
    (h : Output.join (l ++ meaningOf pre d n) =
      Output.join (front ++ linesSaid c.toHttpParser hs)) :
    (sHeaderFieldStart c ch pre).Carried d start n l := by
  unfold sHeaderFieldStart
  split
  · refine carried_go hq ?_
    simp only [Partway, State.stage]
    exact ⟨front, hs, hfront.mono, h⟩
  · split
    · exact carried_headersAlmostDone hq hle hfront h
    · split
      · exact carried_fail
      · refine carried_mark pre hq ?_
        simp only [Partway, State.stage]
        refine ⟨front, hs, [ch], hfront.mono, ?_⟩
        rw [Output.join_congr h rfl]
        exact join_first _ _ _

/-! ## Header lines -/

theorem trailing_finishedHeader (h : HeaderState) (flags : Flags) :
    (finishedHeader h flags).trailing = flags.trailing := by
  unfold finishedHeader
  split <;> rfl

theorem trailing_connectionChar {flags : Flags} (h : flags.trailing = c.flags.trailing) :
    (connectionChar c flags ch).flags.trailing = c.flags.trailing := by
  unfold connectionChar
  split
  · exact h
  · split <;> rfl

theorem trailing_contentLengthChar {c' : Parser} (h : contentLengthChar c ch = .ok c') :
    c'.flags = c.flags := by
  rw [contentLengthChar_frame h]

theorem trailing_valueChar {c' : Parser} (h : valueChar c ch = .ok c') :
    c'.flags.trailing = c.flags.trailing := by
  unfold valueChar at h
  simp only at h
  split at h
  case h_4 =>
    split at h
    · cases h
      rfl
    · rw [trailing_contentLengthChar h]
  case h_5 => rw [trailing_contentLengthChar h]
  case h_6 =>
    split at h <;> cases h
    rfl
  case h_12 | h_13 =>
    cases h
    split <;> rfl
  case h_14 | h_15 | h_16 =>
    cases h
    exact trailing_connectionChar rfl
  all_goals
    cases h
    try rfl

/-- A value begins, or goes on behind a fold. -/
theorem carried_headerValueStart (front : List Said) (hs : List (Bytes × Bytes)) (f v : Bytes)
    (hfront : Front c.flags.trailing c.toHttpParser start n front)
    (h : Output.join (l ++ [valueSaid c.toHttpParser [], valueSaid c.toHttpParser [ch]]) =
      Output.join (front ++ linesSaid c.toHttpParser hs ++
        [fieldSaid c.toHttpParser f, valueSaid c.toHttpParser v])) :
    (sHeaderValueStart c ch).Carried none start n l := by
  have hmark : ∀ {c' : Parser}, c'.state = .headerValue → c'.flags.trailing = c.flags.trailing →
      c'.toHttpParser = c.toHttpParser →
      (c'.go ch [c.mark .headerValue]).Carried none start n l := by
    intro c' hs' ht hp
    refine carried_mark [] quiet_nil ?_
    simp only [Partway, hs', State.stage, ht, hp]
    refine ⟨front, hs, f, v, hfront.mono, ?_⟩
    rw [← h]
    simp [meaningOf, MarkOp.meaning, channel, valueSaid]
  unfold sHeaderValueStart
  simp only
  split
  · exact hmark rfl rfl rfl
  · exact hmark rfl rfl rfl
  · split
    · exact carried_fail
    · split
      · exact carried_fail
      · exact hmark rfl rfl rfl
  · exact hmark rfl rfl rfl
  · exact hmark rfl rfl rfl
  · exact hmark rfl rfl rfl
  · exact hmark rfl rfl rfl

/-- A first value. -/
theorem join_value {p : HttpParser} {front : List Said} {hs : List (Bytes × Bytes)} {f : Bytes}
    (h : Output.join l = Output.join (front ++ linesSaid p hs ++ [fieldSaid p f])) :
    Output.join (l ++ [valueSaid p [], valueSaid p [ch]]) =
      Output.join (front ++ linesSaid p hs ++ [fieldSaid p f, valueSaid p [ch]]) := by
  rw [Output.join_congr h rfl]
  refine (join_first _ _ _).trans ?_
  simp [valueSaid]

/-- A value goes on. -/
theorem join_valueMore {p : HttpParser} {front : List Said} {hs : List (Bytes × Bytes)} {f v s : Bytes}
    (h : Output.join l =
      Output.join (front ++ linesSaid p hs ++ [fieldSaid p f, valueSaid p v])) :
    Output.join (l ++ [valueSaid p s]) =
      Output.join (front ++ linesSaid p hs ++ [fieldSaid p f, valueSaid p (v ++ s)]) := by
  have hsplit : ∀ v, front ++ linesSaid p hs ++ [fieldSaid p f, valueSaid p v] =
      front ++ linesSaid p hs ++ [fieldSaid p f] ++ [valueSaid p v] := by
    intro v
    simp
  rw [hsplit] at h ⊢
  exact join_more _ h

/-- The line is read. -/
theorem join_line {p : HttpParser} (front : List Said) (hs : List (Bytes × Bytes)) (f v : Bytes) :
    front ++ linesSaid p hs ++ [fieldSaid p f, valueSaid p v] = front ++ linesSaid p (hs ++ [(f, v)]) := by
  rw [linesSaid_append, List.append_assoc]
  simp [linesSaid]

theorem carried_name {c' : Parser} (h : Partway c start n l) (hs : c.state.stage = .name)
    (hs' : c'.state.stage = .name) (ht : c'.flags = c.flags) (hp : c'.toHttpParser = c.toHttpParser) :
    (c'.go ch []).Carried none start n l := by
  simp only [Partway, hs] at h
  obtain ⟨front, lines, f, hfront, hjoin⟩ := h
  refine carried_silent ?_
  simp only [Partway, hs', ht, hp]
  exact ⟨front, lines, f, hfront.mono, hjoin⟩

theorem carried_headerValueDiscardWs (h : Partway c start n l) (hs : c.state = .headerValueDiscardWs) :
    (sHeaderValueDiscardWs c ch).Carried none start n l := by
  have hstage : c.state.stage = .name := by rw [hs]; rfl
  unfold sHeaderValueDiscardWs
  split
  · exact carried_name h hstage hstage rfl rfl
  · split
    · exact carried_name h hstage rfl rfl rfl
    · split
      · exact carried_name h hstage rfl rfl rfl
      · simp only [Partway, hstage] at h
        obtain ⟨front, lines, f, hfront, hjoin⟩ := h
        exact carried_headerValueStart front lines f [ch] hfront (join_value hjoin)

theorem carried_headerValueDiscardLws (h : Partway c start n l)
    (hs : c.state = .headerValueDiscardLws) (hle : start ≤ n) :
    (sHeaderValueDiscardLws c ch).Carried none start n l := by
  have hstage : c.state.stage = .name := by rw [hs]; rfl
  unfold sHeaderValueDiscardLws
  split
  · exact carried_name h hstage rfl rfl rfl
  · split
    · exact carried_fail
    · -- the value is empty
      simp only [Partway, hstage] at h
      obtain ⟨front, lines, f, hfront, hjoin⟩ := h
      refine carried_headerFieldStart front (lines ++ [(f, [])])
        (quiet_markFlush (.headerValue, c.toHttpParser) 0) hle ?_ ?_
      · simp only
        rw [trailing_finishedHeader]
        exact hfront
      · have hsaid : ∀ c' : Parser, meaningOf [c'.mark .headerValue, c'.callbackDataNoadvance .headerValue]
            none n = [valueSaid c'.toHttpParser []] := fun _ => rfl
        rw [hsaid, Output.join_congr hjoin rfl, ← join_line]
        simp

theorem carried_headerValueLws (h : Partway c start n l) (hs : c.state = .headerValueLws)
    (hle : start ≤ n) : (sHeaderValueLws c ch).Carried none start n l := by
  have hstage : c.state.stage = .value := by rw [hs]; rfl
  simp only [Partway, hstage] at h
  obtain ⟨front, lines, f, v, hfront, hjoin⟩ := h
  unfold sHeaderValueLws
  split
  · refine carried_headerValueStart front lines f (v ++ [] ++ [ch]) hfront ?_
    have hmore := join_valueMore (s := [ch]) (join_valueMore (s := []) hjoin)
    rwa [List.append_assoc] at hmore
  · refine carried_headerFieldStart front (lines ++ [(f, v)]) quiet_nil hle ?_ ?_
    · simp only
      rw [trailing_finishedHeader]
      exact hfront
    · simpa [meaningOf, MarkOp.meaning, ← join_line] using hjoin

theorem carried_fieldStep (h : Partway c start n l) (hs : c.state = .headerField) :
    (fieldStep c ch).Carried (some (channel (.headerField, c.toHttpParser))) start n l := by
  simp only [Partway, hs, State.stage] at h
  obtain ⟨front, lines, f, hfront, hjoin⟩ := h
  unfold fieldStep
  split
  · split
    · refine carried_go (quiet_flush 1 (Or.inr rfl)) ?_
      simp only [Partway, State.stage]
      refine ⟨front, lines, f, hfront.mono, ?_⟩
      have hsaid : meaningOf [c.callbackData .headerField]
          (some (channel (.headerField, c.toHttpParser))) n = [] := rfl
      rw [hsaid, List.append_nil]
      exact hjoin
    · exact carried_fail
  · split
    · exact carried_abort
    · rename_i c' hc'
      refine carried_stay ?_
      rw [fieldChar_frame hc']
      simp only [Partway, hs, State.stage]
      exact ⟨front, lines, f ++ [ch], hfront.mono, join_more _ hjoin⟩

theorem carried_valueEnd {c' : Parser} {er : Int} (h : Partway c start n l)
    (hs : c.state = .headerValue) (hs' : c'.state.stage = .value) (ht : c'.flags = c.flags)
    (hp : c'.toHttpParser = c.toHttpParser) :
    (c'.go ch [.flush (.headerValue, c.toHttpParser) er]).Carried
      (some (channel (.headerValue, c.toHttpParser))) start n l := by
  simp only [Partway, hs, State.stage] at h
  obtain ⟨front, lines, f, v, hfront, hjoin⟩ := h
  refine carried_go (quiet_flush er (Or.inr rfl)) ?_
  simp only [Partway, hs', ht, hp]
  refine ⟨front, lines, f, v, hfront.mono, ?_⟩
  simpa [meaningOf, MarkOp.meaning, MarkOp.mean] using hjoin

theorem carried_valueStep (h : Partway c start n l) (hs : c.state = .headerValue) :
    (valueStep c ch).Carried (some (channel (.headerValue, c.toHttpParser))) start n l := by
  unfold valueStep
  split
  · exact carried_valueEnd h hs rfl rfl rfl
  · split
    · unfold sHeaderAlmostDone
      split
      · exact carried_fail
      · exact carried_valueEnd h hs rfl rfl rfl
    · split
      · exact carried_fail
      · split
        · exact carried_abort
        · exact carried_fail
        · rename_i c' hc'
          simp only [Partway, hs, State.stage] at h
          obtain ⟨front, lines, f, v, hfront, hjoin⟩ := h
          have hframe := valueChar_frame hs hc'
          have hs' : c'.state = .headerValue := by rw [hframe]; exact hs
          have hp : c'.toHttpParser = c.toHttpParser := by rw [hframe]
          refine carried_stay ?_
          simp only [Partway, hs', State.stage, hp, trailing_valueChar hc']
          exact ⟨front, lines, f, v ++ [ch], hfront.mono, join_valueMore hjoin⟩

/-! ## Bodies -/

/-- The body goes on. -/
theorem BodyRead.more {p : HttpParser} {all : List Said} (h : BodyRead p start n all) (ch : UInt8) :
    ∃ all', BodyRead p start (n + 1) all' ∧
      Output.join (all ++ [.data (.body, some p) [], .data (.body, some p) [ch]]) =
        Output.join all' := by
  obtain ⟨url, hs, lf, b, hlt, rfl⟩ := h
  refine ⟨_, ⟨url, hs, lf, b ++ [ch], by omega, rfl⟩, ?_⟩
  by_cases hb : b = []
  · rw [hb]
    simpa [bodySaid] using join_first (headSaid p url hs ++ [headersCompleteSaid p (start + lf)])
      (.body, some p) [ch]
  · have hone := join_more _ (t := []) (Eq.refl (Output.join
      ((headSaid p url hs ++ [headersCompleteSaid p (start + lf)]) ++ [.data (.body, some p) b])))
    have htwo := join_more _ (t := [ch]) hone
    simpa [bodySaid, hb] using htwo

theorem carried_body {c' : Parser} (h : Partway c start n l) (hs : c.state.stage = .body)
    (hs' : c'.state.stage = .body) (ht : c'.flags = c.flags) (hp : c'.toHttpParser = c.toHttpParser) :
    (c'.go ch []).Carried none start n l := by
  simp only [Partway, hs] at h
  obtain ⟨htrailing, all, hread, hjoin⟩ := h
  refine carried_silent ?_
  simp only [Partway, hs', ht, hp]
  exact ⟨htrailing, all, hread.mono, hjoin⟩

/-- A byte of a body. -/
theorem carried_bodyByte {c' : Parser} (h : Partway c start n l) (hs : c.state.stage = .body)
    (hs' : c'.state.stage = .body) (ht : c'.flags = c.flags) (hp : c'.toHttpParser = c.toHttpParser)
    (hd : d = none ∨ d = some (channel (.body, c.toHttpParser))) :
    (c'.go ch [c.mark .body]).Carried d start n l := by
  simp only [Partway, hs] at h
  obtain ⟨htrailing, all, hread, hjoin⟩ := h
  obtain ⟨all', hread', hjoin'⟩ := hread.more ch
  intro _
  left
  simp only [parser_go, Partway, hs', ht, hp]
  refine ⟨htrailing, all', hread', ?_⟩
  rw [← hjoin', ← Output.join_congr hjoin rfl]
  rcases hd with rfl | rfl <;> rfl

theorem carried_chunkStep (h : Partway c start n l) (hs : c.state = .chunkData)
    (hd : d = none ∨ d = some (channel (.body, c.toHttpParser))) :
    (chunkStep c ch).Carried d start n l := by
  unfold chunkStep
  split
  · exact carried_abort
  · refine carried_bodyByte h (by rw [hs]; rfl) ?_ ?_ ?_ hd
    · split
      · rfl
      · simp only [hs]
        rfl
    · split <;> rfl
    · split <;> rfl

theorem carried_bodyStep (h : Partway c start n l) (hs : c.state = .bodyIdentity)
    (hd : d = none ∨ d = some (channel (.body, c.toHttpParser))) :
    (bodyStep c ch).Carried d start n l := by
  unfold bodyStep
  split
  · exact carried_abort
  · simp only
    split
    · -- the last byte
      simp only [Partway, hs, State.stage] at h
      obtain ⟨htrailing, all, hread, hjoin⟩ := h
      obtain ⟨all', ⟨url, headers, lf, b, hlt, rfl⟩, hjoin'⟩ := hread.more ch
      have hn : start + (n + 1 - start) = n + 1 := by omega
      intro _
      refine Or.inr ⟨rfl, { headMessage c.toHttpParser url headers lf with
        body := b, size := n + 1 - start }, by simp only [headMessage]; omega, hn, ?_⟩
      have hsaid : ∀ d : Option Channel, d = none ∨ d = some (channel (.body, c.toHttpParser)) →
          meaningOf [c.mark .body, .pass [ch], .flush (.body, c.toHttpParser) (-1),
            .notify (c.toHttpParser, .messageComplete) 0] d n =
          [.data (.body, some c.toHttpParser) [], .data (.body, some c.toHttpParser) [ch]] ++
            [messageCompleteSaid c.toHttpParser (n + 1)] := by
        rintro d (rfl | rfl) <;> rfl
      simp only
      rw [hsaid d hd, ← List.append_assoc, Output.join_congr (Output.join_congr hjoin rfl) rfl,
        Output.join_congr hjoin' rfl]
      simp [messageSaid, headMessage, Message.parser, linesSaid, hn]
    · refine carried_bodyByte h (by rw [hs]; rfl) ?_ rfl rfl hd
      simp only [hs]
      rfl

end Moves

/-! ## The `switch` -/

theorem carried_step {c : Parser} {d : Option Channel} {start n : Nat} {l : List Said}
    (h : Partway c start n l) (hle : start ≤ n) (hd : Marked c d) (ch : UInt8) :
    (step c ch).Carried d start n l := by
  have hnone : c.state.entryMark = none → c.state.inBody = false → d = none := by
    intro hmark hbody
    simpa [Marked, hmark, hbody] using hd
  have hbody : c.state.inBody = true → c.state.entryMark = none →
      d = none ∨ d = some (channel (.body, c.toHttpParser)) := by
    intro hbody hmark
    simpa [Marked, hmark, hbody] using hd
  cases hs : c.state <;> rw [hs] at hnone hbody <;> simp only [step, move, hs]
  case reqUrl s => exact carried_reqUrl h hs hd
  case headerField =>
    obtain rfl : d = some (channel (.headerField, c.toHttpParser)) := by
      simpa only [Marked, hs, State.entryMark] using hd
    exact carried_fieldStep h hs
  case headerValue =>
    obtain rfl : d = some (channel (.headerValue, c.toHttpParser)) := by
      simpa only [Marked, hs, State.entryMark] using hd
    exact carried_valueStep h hs
  case bodyIdentity => exact carried_bodyStep h hs (hbody rfl rfl)
  case chunkData => exact carried_chunkStep h hs (hbody rfl rfl)
  case chunkDataAlmostDone =>
    unfold sChunkDataAlmostDone
    split
    · exact carried_abort
    · refine carried_go (quiet_flush 1 (hbody rfl rfl)) ?_
      simp only [Partway, hs, State.stage] at h ⊢
      obtain ⟨htrailing, all, hread, hjoin⟩ := h
      refine ⟨htrailing, all, hread.mono, ?_⟩
      have hsaid : meaningOf [c.callbackData .body] d n = [] := rfl
      rw [hsaid, List.append_nil]
      exact hjoin
  case headerValueStart | headersDone | messageDone =>
    simp only [Partway, hs, State.stage] at h
  all_goals obtain rfl := hnone rfl rfl
  case startReq => exact carried_startReq h hs
  case reqMethod => exact carried_reqMethod h hs
  case headerFieldStart =>
    simp only [Partway, hs, State.stage] at h
    obtain ⟨front, lines, hfront, hjoin⟩ := h
    exact carried_headerFieldStart front lines quiet_nil hle hfront
      (by simpa [meaningOf, MarkOp.meaning] using hjoin)
  case headersAlmostDone =>
    simp only [Partway, hs, State.stage] at h
    obtain ⟨front, lines, hfront, hjoin⟩ := h
    exact carried_headersAlmostDone quiet_nil hle hfront
      (by simpa [meaningOf, MarkOp.meaning] using hjoin)
  case headerValueDiscardWs => exact carried_headerValueDiscardWs h hs
  case headerValueDiscardWsAlmostDone => exact carried_name h (by rw [hs]; rfl) rfl rfl rfl
  case headerValueDiscardLws => exact carried_headerValueDiscardLws h hs hle
  case headerValueLws => exact carried_headerValueLws h hs hle
  case headerAlmostDone =>
    unfold sHeaderAlmostDone
    split
    · exact carried_fail
    · simp only [Partway, hs, State.stage] at h
      obtain ⟨front, lines, f, v, hfront, hjoin⟩ := h
      exact carried_silent ⟨front, lines, f, v, hfront.mono, hjoin⟩
  case reqHttpStart =>
    unfold sReqHttpStart
    split_ifs
    · exact carried_line h (by rw [hs]; rfl) rfl (by rw [hs]; rfl)
    · exact carried_line h (by rw [hs]; rfl) rfl rfl
    · exact carried_line h (by rw [hs]; rfl) rfl rfl
    · exact carried_fail
  case reqHttpMajor =>
    unfold sReqHttpMajor
    split
    · exact carried_fail
    · exact carried_line h (by rw [hs]; rfl) rfl rfl
  case reqHttpDot =>
    unfold sReqHttpDot
    split
    · exact carried_fail
    · exact carried_line h (by rw [hs]; rfl) rfl rfl
  case reqHttpMinor =>
    unfold sReqHttpMinor
    split
    · exact carried_fail
    · exact carried_line h (by rw [hs]; rfl) rfl rfl
  case reqHttpEnd =>
    unfold sReqHttpEnd
    split_ifs
    · exact carried_line h (by rw [hs]; rfl) rfl rfl
    · exact carried_lineEnd h (by rw [hs]; rfl) rfl rfl
    · exact carried_fail
  case reqLineAlmostDone =>
    unfold sReqLineAlmostDone
    split
    · exact carried_fail
    · exact carried_lineEnd h (by rw [hs]; rfl) rfl rfl
  case chunkSizeStart =>
    unfold sChunkSizeStart
    split
    · exact carried_abort
    · split
      · exact carried_fail
      · exact carried_body h (by rw [hs]; rfl) rfl rfl rfl
  case chunkSize =>
    unfold sChunkSize
    split
    · exact carried_abort
    · split
      · exact carried_body h (by rw [hs]; rfl) rfl rfl rfl
      · split
        · split
          · exact carried_body h (by rw [hs]; rfl) rfl rfl rfl
          · exact carried_fail
        · split
          · exact carried_fail
          · exact carried_body h (by rw [hs]; rfl) (by simp only [hs]; rfl) rfl rfl
  case chunkParameters =>
    unfold sChunkParameters
    split
    · exact carried_abort
    · split
      · exact carried_body h (by rw [hs]; rfl) rfl rfl rfl
      · exact carried_body h (by rw [hs]; rfl) (by rw [hs]; rfl) rfl rfl
  case chunkSizeAlmostDone =>
    unfold sChunkSizeAlmostDone
    split
    · exact carried_abort
    · split
      · -- the trailers
        simp only [Partway, hs, State.stage] at h
        obtain ⟨-, all, hread, hjoin⟩ := h
        exact carried_silent ⟨all, [], hread.mono, by simpa [linesSaid] using hjoin⟩
      · exact carried_body h (by rw [hs]; rfl) rfl rfl rfl
  case chunkDataDone =>
    unfold sChunkDataDone
    split
    · exact carried_abort
    · exact carried_body h (by rw [hs]; rfl) rfl rfl rfl
  -- the letters of `HTTP`
  all_goals exact carried_line h (by rw [hs]; rfl) rfl rfl

theorem partway_countByte {c : Parser} {start n : Nat} {l : List Said} (h : Partway c start n l) :
    Partway (countByte c) start n l := by
  unfold countByte
  split
  · exact h
  · exact h

/-- **Messages, and a part of one.** -/
theorem carries_scan {c c' : Parser} {p : Bytes} {ops : List Op} {d : Option Channel} {n : Nat}
    {pre l : List Said} {ms : List Message} (hd : Marked c d) (hsize : messagesSize ms ≤ n)
    (hms : ∀ m ∈ ms, m.headLf < m.size) (hpart : Partway c (messagesSize ms) n l)
    (hpre : Output.join pre = Output.join (messagesSaid 0 ms ++ l))
    (h : scan byteStep c p = some (ops, c')) :
    ∃ ms' l', messagesSize ms' ≤ n + p.length ∧ (∀ m ∈ ms', m.headLf < m.size) ∧
      Partway c' (messagesSize ms') (n + p.length) l' ∧
      Output.join (pre ++ meaningOf ops d n) = Output.join (messagesSaid 0 ms' ++ l') := by
  induction p generalizing c d n pre l ms ops with
  | nil =>
    simp only [scan, Option.some.injEq, Prod.mk.injEq] at h
    obtain ⟨rfl, rfl⟩ := h
    exact ⟨ms, l, hsize, hms, hpart, by simpa [meaningOf, MarkOp.meaning] using hpre⟩
  | cons ch p ih =>
    obtain ⟨as, c₁, bs, hstep, hrest, rfl⟩ := Scan.scan_cons_some byteStep h
    obtain ⟨-, htracks⟩ := tracks_byteStep hd hstep
    obtain ⟨-, d₁, hmeaning, hd₁⟩ := htracks n
    have hsplit : meaningOf (as ++ bs) d n = meaningOf as d n ++ meaningOf bs d₁ (n + 1) := by
      simp only [meaningOf]
      rw [MarkOp.meaning_append, hmeaning]
    obtain ⟨-, -, rfl, rfl, hout⟩ := byteStep_eq hstep
    have hone := carried_step (partway_countByte hpart) hsize (marked_countByte hd) ch hout
    have hjoin : Output.join (pre ++ meaningOf (step (countByte c) ch).ops d n) =
        Output.join (messagesSaid 0 ms ++ (l ++ meaningOf (step (countByte c) ch).ops d n)) := by
      rw [← List.append_assoc]
      exact Output.join_congr hpre rfl
    have hlength : n + 1 + p.length = n + (ch :: p).length := by
      rw [List.length_cons]
      omega
    rw [hsplit, ← List.append_assoc, ← hlength]
    rcases hone with hpart' | ⟨hs, m, hlf, hm, hsaid⟩
    · exact ih hd₁ (by omega) hms hpart' hjoin hrest
    · have hsize' : messagesSize (ms ++ [m]) = n + 1 := by
        rw [← hm]
        simp [messagesSize]
      refine ih (l := []) hd₁ hsize'.le ?_ ?_ ?_ hrest
      · intro k hk
        rcases List.mem_append.mp hk with hk | hk
        · exact hms k hk
        · obtain rfl := List.mem_singleton.mp hk
          exact hlf
      · simp [Partway, hs, State.stage]
      · rw [hjoin, messagesSaid_append, List.append_nil]
        refine Output.join_congr rfl ?_
        rw [hsaid]
        simp [messagesSaid]

/-- **What is parsed is messages**, and the beginning of one more. -/
theorem messages_scan {c : Parser} {p : Bytes} {ops : List Op}
    (h : scan byteStep httpParserInit p = some (ops, c)) :
    ∃ ms l, messagesSize ms ≤ p.length ∧ (∀ m ∈ ms, m.headLf < m.size) ∧
      Partway c (messagesSize ms) p.length l ∧
      Output.join (meaningOf ops none 0) = Output.join (messagesSaid 0 ms ++ l) := by
  have hinit : Partway httpParserInit (messagesSize []) 0 [] := ⟨rfl, fun hne => absurd rfl hne⟩
  have hmarked : Marked httpParserInit none := Or.inl rfl
  have hpre : Output.join ([] : List Said) = Output.join (messagesSaid 0 [] ++ []) := rfl
  have hall := carries_scan hmarked (Nat.le_refl 0) (fun m hm => (by cases hm)) hinit hpre h
  simpa using hall

end Ehttp.Http
