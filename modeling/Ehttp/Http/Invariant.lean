import Ehttp.Http.Step

/-!
# What holds in every state of `http_parser`

* `sound_move`, `sound_step`: no pass through the `switch` fails an assertion
  or reads behind a string, and each keeps the invariant;
* `running_scan`: so the invariant holds behind every input that is parsed.
-/

namespace Ehttp.Http

open Lib

/-- The header states of a field name, which the `switch` of `s_header_field` knows. -/
def HeaderState.ofField : HeaderState → Bool
  | .general | .hC | .hCO | .hCON | .matchingConnection | .matchingProxyConnection
  | .matchingContentLength | .matchingTransferEncoding | .matchingUpgrade | .connection
  | .contentLength | .transferEncoding | .upgrade => true
  | _ => false

/-- What the assertions of a state need. -/
def StateInv (c : Parser) : Prop :=
  match c.state with
  | .reqMethod => c.index ≤ (httpMethodStr c.method).length
  | .headerField => c.headerState.ofField = true
  | .headerValue => c.headerState ≠ .connection ∧ c.headerState ≠ .transferEncoding
  | .chunkSizeStart => c.flags.chunked = true ∧ c.nread = 0
  | .chunkSize | .chunkParameters | .chunkSizeAlmostDone =>
    c.flags.chunked = true ∧ c.contentLength ≠ ULLONG_MAX
  | .chunkData =>
    c.flags.chunked = true ∧ c.contentLength ≠ 0 ∧ c.contentLength ≠ ULLONG_MAX
  | .chunkDataAlmostDone => c.flags.chunked = true ∧ c.contentLength = 0
  | .chunkDataDone => c.flags.chunked = true
  | .bodyIdentity => c.contentLength ≠ 0 ∧ c.contentLength ≠ ULLONG_MAX
  | _ => True

/-- What holds until an error. -/
def Parser.Ok (c : Parser) : Prop := c.contentLength ≤ ULLONG_MAX ∧ c.httpErrno = .ok

/-- A parser that may be given a byte. -/
structure Running (c : Parser) : Prop where
  fine : c.Ok
  state : StateInv c
  notUpgraded : upgraded c = false

theorem running_init : Running httpParserInit := ⟨⟨by decide, rfl⟩, trivial, rfl⟩

/-- The last callback is that of the end of the message. -/
def Completes (ops : List Op) : Prop := ∃ q, MarkOp.EndsIn ops (q, Notice.messageComplete)

theorem completes_pass (front : List Op) (c : Parser) (ch : UInt8) :
    Completes (front ++ [c.messageComplete, .pass [ch]]) :=
  ⟨c.toHttpParser, front, 1, [.pass [ch]], rfl, by simp⟩

/-- Where a move leads: never to a failed assertion. -/
def Move.Sound (m : Move) : Prop :=
  match m.out with
  | .next => Running m.parser
  | .ret => upgraded m.parser = true ∧ m.parser.Ok ∧ Completes m.ops
  | .error => m.parser.httpErrno ≠ .ok
  | .abort => False

theorem sound_go {c : Parser} {ch : UInt8} {ops : List Op} (h : Running c) : (c.go ch ops).Sound := h

theorem sound_fail {c : Parser} {e : Errno} {ops : List Op} (he : e ≠ .ok) :
    (c.fail e ops).Sound := he

/-- A move to a state that is not the start. -/
theorem sound_plain {c : Parser} {ch : UInt8} {ops : List Op} (hok : c.Ok)
    (hne : c.state ≠ .startReq) (hstate : StateInv c) : (c.go ch ops).Sound :=
  ⟨hok, hstate, upgraded_of_ne hne⟩

section States

variable {c : Parser} (hok : c.Ok)

/-! ## The request line -/

theorem lookup_mem {κ α : Type} [BEq κ] [LawfulBEq κ] {l : List (κ × α)} {k : κ} {a : α}
    (h : l.lookup k = some a) : (k, a) ∈ l := by
  induction l with
  | nil => cases h
  | cons x l ih =>
    rw [List.lookup_cons] at h
    split at h
    · rename_i hk
      cases h
      rw [eq_of_beq hk]
      exact List.mem_cons_self ..
    · exact List.mem_cons_of_mem _ (ih h)

theorem length_firstMethod : ∀ x ∈ firstMethod, 1 ≤ (httpMethodStr x.2).length := by decide +kernel

theorem length_nextMethod : ∀ x ∈ nextMethod, x.1.2.1 + 1 ≤ (httpMethodStr x.2).length := by
  decide +kernel

theorem sound_startReq (h : Running c) {ch : UInt8} : (sStartReq c ch).Sound := by
  unfold sStartReq
  split
  · exact sound_go h
  · simp only
    split
    · exact sound_fail (by simp)
    · split
      · exact sound_fail (by simp)
      · rename_i method hmethod
        refine sound_plain (by exact ⟨Nat.le_refl _, h.fine.2⟩) (by simp) ?_
        exact length_firstMethod _ (lookup_mem hmethod)

include hok

theorem sound_reqMethod (hs : c.state = .reqMethod)
    (h : c.index ≤ (httpMethodStr c.method).length) {ch : UInt8} : (sReqMethod c ch).Sound := by
  have hmod : (c.index + 1) % 128 ≤ c.index + 1 := Nat.mod_le _ _
  unfold sReqMethod
  split
  · exact sound_fail (by simp)
  · rename_i hne
    split
    · rename_i hnone
      rw [List.getElem?_eq_none_iff, List.length_append] at hnone
      simp only [List.length_cons, List.length_nil] at hnone
      omega
    · rename_i m hm
      split
      · exact sound_plain (by exact hok) (by simp [Parser.nextIndex]) (by exact True.intro)
      · split
        · rename_i heq
          -- the character is in the string, so the index may go on
          have hlt : c.index < (httpMethodStr c.method).length := by
            rcases Nat.lt_or_ge c.index (httpMethodStr c.method).length with hlt | hge
            · exact hlt
            · exfalso
              have hend : c.index = (httpMethodStr c.method).length := by omega
              rw [hend, List.getElem?_append_right (Nat.le_refl _), Nat.sub_self] at hm
              simp only [List.getElem?_cons_zero, Option.some.injEq] at hm
              exact hne (heq.trans hm.symm)
          refine sound_plain (by exact hok) (by simp [Parser.nextIndex, hs]) ?_
          simp only [StateInv, Parser.nextIndex, hs]
          omega
        · split
          · split
            · exact sound_fail (by simp)
            · rename_i method hmethod
              have hnext := length_nextMethod _ (lookup_mem hmethod)
              refine sound_plain (by exact hok) (by simp [Parser.nextIndex, hs]) ?_
              simp only [StateInv, Parser.nextIndex, hs]
              simp only at hnext
              omega
          · exact sound_fail (by simp)

theorem sound_urlChar {s : UrlState} {ch : UInt8} {ops : List Op} : (urlChar c s ch ops).Sound := by
  unfold urlChar
  simp only
  split
  · exact sound_fail (by simp)
  · exact sound_plain (by exact hok) (by simp) (by exact True.intro)

theorem sound_reqUrl (h : Running c) {s : UrlState} {ch : UInt8} : (sReqUrl c s ch).Sound := by
  have hspace : ∀ st ops, st = State.reqHttpStart ∨ st = .reqLineAlmostDone ∨ st = .headerFieldStart →
      (Parser.go { c with httpMajor := 0, httpMinor := 9, state := st } ch ops).Sound := by
    rintro st ops (rfl | rfl | rfl) <;> exact sound_plain (by exact hok) (by simp) (by exact True.intro)
  have hend : (if ch = 32 then Parser.go { c with state := .reqHttpStart } ch [c.callbackData .url]
      else if ch = CR ∨ ch = LF then
        let c := { c with
          httpMajor := 0
          httpMinor := 9
          state := if ch = CR then .reqLineAlmostDone else .headerFieldStart }
        c.go ch [c.callbackData .url]
      else urlChar c s ch []).Sound := by
    split
    · exact sound_plain (by exact hok) (by simp) (by exact True.intro)
    · split
      · refine hspace _ _ ?_
        split <;> simp
      · exact sound_urlChar hok
  have hfront : (if ch = 32 ∨ ch = CR ∨ ch = LF then c.fail .invalidUrl []
      else urlChar c s ch []).Sound := by
    split
    · exact sound_fail (by simp)
    · exact sound_urlChar hok
  cases s with
  | dead =>
    rw [sReqUrl]
    split
    · exact sound_go h
    · exact sound_fail (by simp)
  | spacesBeforeUrl =>
    rw [sReqUrl]
    split
    · exact sound_go h
    · exact sound_urlChar hok
  | schema | schemaSlash | schemaSlashSlash | serverStart => exact hfront
  | server | serverWithAt | path | queryStringStart | queryString | fragmentStart | fragment =>
    exact hend

/-! ## The end of the headers -/

theorem sound_messageDone {ops : List Op} (hops : Completes ops) :
    Move.Sound ⟨(sMessageDone c).1, ops, (sMessageDone c).2⟩ := by
  unfold sMessageDone Move.Sound
  cases c.upgrade with
  | true => exact ⟨by simp [upgraded], hok, hops⟩
  | false => exact ⟨hok, trivial, by simp [upgraded]⟩

theorem sound_headersDone {ch : UInt8} {ops : List Op} : (sHeadersDone c ch ops).Sound := by
  have hdone : c.upgrade = false → ∀ ops,
      (Parser.go { c with nread := 0, state := .startReq } ch ops).Sound := by
    intro hup ops
    exact sound_go ⟨by exact hok, by exact True.intro, by simp [upgraded, hup]⟩
  unfold sHeadersDone
  simp only
  split
  · rename_i h
    exact ⟨by simp [upgraded, h.1], hok, completes_pass _ _ _⟩
  · rename_i hnot
    have hup : c.flags.skipbody = true ∨ (c.flags.chunked = false ∧
        (c.contentLength = 0 ∨ c.contentLength = ULLONG_MAX)) → c.upgrade = false := by
      intro hcase
      rw [Bool.eq_false_iff]
      intro hup
      apply hnot
      rcases hcase with hskip | ⟨hchunked, hlength⟩
      · exact ⟨hup, Or.inr (Or.inl hskip)⟩
      · refine ⟨hup, Or.inr (Or.inr ?_)⟩
        rcases hlength with hlength | hlength <;> simp [hchunked, hlength]
    split
    · rename_i hskip
      exact hdone (hup (Or.inl hskip)) _
    · split
      · rename_i hchunked
        exact sound_plain (by exact hok) (by simp) (by exact ⟨hchunked, rfl⟩)
      · rename_i hchunked
        have hchunked : c.flags.chunked = false := by simpa using hchunked
        split
        · rename_i hzero
          exact hdone (hup (Or.inr ⟨hchunked, Or.inl hzero⟩)) _
        · rename_i hzero
          split
          · rename_i hmax
            exact sound_plain (by exact hok) (by simp) (by exact ⟨hzero, hmax⟩)
          · rename_i hmax
            exact hdone (hup (Or.inr ⟨hchunked, Or.inr (by simpa using hmax)⟩)) _

theorem sound_headersAlmostDone {ch : UInt8} {ops : List Op} : (sHeadersAlmostDone c ch ops).Sound := by
  unfold sHeadersAlmostDone
  split
  · exact sound_messageDone hok (completes_pass _ _ _)
  · split
    · exact sound_fail (by simp)
    · exact sound_headersDone (by exact hok)

/-! ## Headers -/

theorem sound_headerFieldStart {ch : UInt8} {ops : List Op} : (sHeaderFieldStart c ch ops).Sound := by
  unfold sHeaderFieldStart
  split
  · exact sound_plain (by exact hok) (by simp) (by exact True.intro)
  · split
    · exact sound_headersAlmostDone (by exact hok)
    · split
      · exact sound_fail (by simp)
      · refine sound_plain (by exact hok) (by simp) ?_
        simp only [StateInv, firstHeaderState]
        split_ifs <;> rfl

omit hok in
theorem firstConnectionState_ne {l : UInt8} {other : HeaderState}
    (h : other ≠ .connection ∧ other ≠ .transferEncoding) :
    firstConnectionState l other ≠ .connection ∧ firstConnectionState l other ≠ .transferEncoding := by
  unfold firstConnectionState
  split_ifs
  · simp
  · simp
  · simp
  · exact h

theorem sound_headerValueStart {ch : UInt8} : (sHeaderValueStart c ch).Sound := by
  have hdigit : digit ch ≤ ULLONG_MAX := by
    have := ch.toNat_lt
    simp only [digit, ULLONG_MAX]
    omega
  have hgo : ∀ {c' : Parser} {ops : List Op}, c'.Ok →
      c'.state = .headerValue → c'.headerState ≠ .connection ∧ c'.headerState ≠ .transferEncoding →
      (c'.go ch ops).Sound := by
    intro c' ops hok' hs hv
    refine sound_plain (by exact hok') (by simp [hs]) ?_
    simpa [StateInv, hs] using hv
  unfold sHeaderValueStart
  simp only
  split
  · exact hgo (by exact hok) (by rfl) (by simp)
  · refine hgo (by exact hok) (by rfl) ?_
    simp only
    split <;> simp
  · split
    · exact sound_fail (by simp)
    · split
      · exact sound_fail (by simp)
      · exact hgo (by exact ⟨hdigit, hok.2⟩) (by rfl) (by simp)
  · rename_i hws
    exact hgo (by exact hok) (by rfl) (by simp [hws])
  · exact hgo (by exact hok) (by rfl) (firstConnectionState_ne (by simp))
  · rename_i htoken
    exact hgo (by exact hok) (by rfl) (by simp [htoken])
  · exact hgo (by exact hok) (by rfl) (by simp)

theorem sound_headerValueDiscardWs (h : Running c) {ch : UInt8} :
    (sHeaderValueDiscardWs c ch).Sound := by
  unfold sHeaderValueDiscardWs
  split
  · exact sound_go h
  · split
    · exact sound_plain (by exact hok) (by simp) (by exact True.intro)
    · split
      · exact sound_plain (by exact hok) (by simp) (by exact True.intro)
      · exact sound_headerValueStart hok

theorem sound_headerValueDiscardLws {ch : UInt8} : (sHeaderValueDiscardLws c ch).Sound := by
  unfold sHeaderValueDiscardLws
  split
  · exact sound_plain (by exact hok) (by simp) (by exact True.intro)
  · split
    · exact sound_fail (by simp)
    · exact sound_headerFieldStart (by exact hok)

theorem sound_headerAlmostDone {ch : UInt8} {ops : List Op} : (sHeaderAlmostDone c ch ops).Sound := by
  unfold sHeaderAlmostDone
  split
  · exact sound_fail (by simp)
  · exact sound_plain (by exact hok) (by simp) (by exact True.intro)

theorem sound_headerValueLws {ch : UInt8} : (sHeaderValueLws c ch).Sound := by
  unfold sHeaderValueLws
  split
  · exact sound_headerValueStart (by exact hok)
  · exact sound_headerFieldStart (by exact hok)

/-! ## Chunks and bodies -/

omit hok in
theorem unhex_le {ch : UInt8} {n : Nat} (h : unhex ch = some n) : n ≤ 15 := by
  unfold unhex at h
  split_ifs at h with hnum hupper hlower hhigh <;> cases h
  · simp only [isNum, decide_eq_true_eq, UInt8.le_iff_toNat_le] at hnum
    have := hnum.2
    simp only [UInt8.reduceToNat] at this
    omega
  · have := UInt8.le_iff_toNat_le.mp hupper.2
    simp only [UInt8.reduceToNat] at this
    omega
  · have := UInt8.le_iff_toNat_le.mp hlower.2
    simp only [UInt8.reduceToNat] at this
    omega
  · omega

theorem sound_chunkSizeStart (hchunked : c.flags.chunked = true) (hn : c.nread = 1) {ch : UInt8} :
    (sChunkSizeStart c ch).Sound := by
  unfold sChunkSizeStart
  rw [if_neg (by simp [hchunked, hn])]
  split
  · exact sound_fail (by simp)
  · rename_i n hhex
    have hle := unhex_le hhex
    have hmax : n < ULLONG_MAX := by
      simp only [ULLONG_MAX]
      omega
    exact sound_plain (by exact ⟨hmax.le, hok.2⟩) (by simp) (by exact ⟨hchunked, hmax.ne⟩)

theorem sound_chunkSize (hs : c.state = .chunkSize) (hchunked : c.flags.chunked = true)
    (hmax : c.contentLength ≠ ULLONG_MAX) {ch : UInt8} : (sChunkSize c ch).Sound := by
  unfold sChunkSize
  rw [if_neg (by simp [hchunked])]
  split
  · exact sound_plain (by exact hok) (by simp) (by exact ⟨hchunked, hmax⟩)
  · split
    · split
      · exact sound_plain (by exact hok) (by simp) (by exact ⟨hchunked, hmax⟩)
      · exact sound_fail (by simp)
    · rename_i n hhex
      have hle := unhex_le hhex
      split
      · exact sound_fail (by simp)
      · rename_i hfit
        -- the bound that is tested leaves room for the digit
        have hlt : (c.contentLength * 16 + n) % 2 ^ 64 < ULLONG_MAX := by
          simp only [ULLONG_MAX] at hfit ⊢
          omega
        refine sound_plain (by exact ⟨hlt.le, hok.2⟩) (by simp [hs]) ?_
        simp only [StateInv, hs]
        exact ⟨hchunked, hlt.ne⟩

theorem sound_chunkParameters (h : Running c) (hs : c.state = .chunkParameters) {ch : UInt8} :
    (sChunkParameters c ch).Sound := by
  have hinv := h.state
  simp only [StateInv, hs] at hinv
  unfold sChunkParameters
  rw [if_neg (by simp [hinv.1])]
  split
  · exact sound_plain (by exact hok) (by simp) (by exact hinv)
  · exact sound_go h

theorem sound_chunkSizeAlmostDone (hchunked : c.flags.chunked = true)
    (hmax : c.contentLength ≠ ULLONG_MAX) {ch : UInt8} : (sChunkSizeAlmostDone c ch).Sound := by
  unfold sChunkSizeAlmostDone
  rw [if_neg (by simp [hchunked])]
  split
  · exact sound_plain (by exact hok) (by simp) (by exact True.intro)
  · rename_i hzero
    exact sound_plain (by exact hok) (by simp) (by exact ⟨hchunked, hzero, hmax⟩)

theorem sound_chunkDataAlmostDone (hchunked : c.flags.chunked = true) (hzero : c.contentLength = 0)
    {ch : UInt8} : (sChunkDataAlmostDone c ch).Sound := by
  unfold sChunkDataAlmostDone
  rw [if_neg (by simp [hchunked, hzero])]
  exact sound_plain (by exact hok) (by simp) (by exact hchunked)

theorem sound_chunkDataDone (hchunked : c.flags.chunked = true) {ch : UInt8} :
    (sChunkDataDone c ch).Sound := by
  unfold sChunkDataDone
  rw [if_neg (by simp [hchunked])]
  exact sound_plain (by exact hok) (by simp) (by exact ⟨hchunked, rfl⟩)

theorem sound_bodyStep (hs : c.state = .bodyIdentity) (hzero : c.contentLength ≠ 0)
    (hmax : c.contentLength ≠ ULLONG_MAX) {ch : UInt8} : (bodyStep c ch).Sound := by
  have hless : c.contentLength - 1 ≤ ULLONG_MAX ∧ c.httpErrno = .ok :=
    ⟨(Nat.sub_le ..).trans hok.1, hok.2⟩
  unfold bodyStep
  rw [if_neg (by simp [hzero, hmax])]
  simp only
  split
  · exact sound_messageDone (by exact hless) ⟨_, [_, _, _], 0, [], rfl, nofun⟩
  · rename_i hmore
    refine sound_plain (by exact hless) (by simp [hs]) ?_
    simp only [StateInv, hs]
    exact ⟨hmore, by have := hok.1; omega⟩

theorem sound_chunkStep (hs : c.state = .chunkData) (hchunked : c.flags.chunked = true)
    (hzero : c.contentLength ≠ 0) (hmax : c.contentLength ≠ ULLONG_MAX) {ch : UInt8} :
    (chunkStep c ch).Sound := by
  have hless : c.contentLength - 1 ≤ ULLONG_MAX ∧ c.httpErrno = .ok :=
    ⟨(Nat.sub_le ..).trans hok.1, hok.2⟩
  unfold chunkStep
  rw [if_neg (by simp [hchunked, hzero, hmax])]
  simp only
  split
  · rename_i hend
    exact sound_plain (by exact hless) (by simp) (by exact ⟨hchunked, hend⟩)
  · rename_i hmore
    refine sound_plain (by exact hless) (by simp [hs]) ?_
    simp only [StateInv, hs]
    exact ⟨hchunked, hmore, by have := hok.1; omega⟩

/-! ## The loops over names and values -/

omit hok in
theorem fieldChar_ofField (h : c.headerState.ofField = true) (ch t : UInt8) :
    ∃ c', fieldChar c ch t = some c' ∧ c'.headerState.ofField = true := by
  have hmatch : ∀ name matched current, matched.ofField = true → current.ofField = true →
      ∀ index, (matchState name matched .general current index t).ofField = true := by
    intro name matched current hm hc index
    unfold matchState
    split_ifs
    · rfl
    · exact hm
    · exact hc
  unfold fieldChar
  cases hh : c.headerState <;> rw [hh] at h <;> try cases h
  case general => exact ⟨_, rfl, by rw [hh]; rfl⟩
  case hC | hCO | hCON =>
    refine ⟨_, rfl, ?_⟩
    simp only
    split_ifs <;> rfl
  case matchingConnection | matchingProxyConnection | matchingContentLength
      | matchingTransferEncoding | matchingUpgrade =>
    refine ⟨_, rfl, hmatch _ _ _ rfl ?_ _⟩
    simp only [Parser.nextIndex, hh]
    rfl
  case connection | contentLength | transferEncoding | upgrade =>
    refine ⟨_, rfl, ?_⟩
    simp only
    split_ifs <;> rfl

theorem sound_fieldStep (hs : c.state = .headerField) (h : c.headerState.ofField = true)
    {ch : UInt8} : (fieldStep c ch).Sound := by
  unfold fieldStep
  split
  · split
    · exact sound_plain (by exact hok) (by simp) (by exact True.intro)
    · exact sound_fail (by simp)
  · obtain ⟨c', hc', hof⟩ := fieldChar_ofField h ch (token ch)
    have hframe := fieldChar_frame hc'
    have hs' : c'.state = .headerField := by rw [hframe]; exact hs
    rw [hc']
    refine sound_plain (by rw [hframe]; exact hok) (by simp [hs']) ?_
    simpa only [StateInv, hs'] using hof

/-- What the loop over a value keeps: it has no assertion left to fail. -/
def ValueInv (c : Parser) : Prop :=
  c.Ok ∧ c.headerState ≠ .connection ∧ c.headerState ≠ .transferEncoding

theorem contentLengthChar_inv {ch : UInt8} {c' : Parser} (h : contentLengthChar c ch = .ok c')
    (hh : c.headerState = .contentLengthNum) : ValueInv c' := by
  unfold contentLengthChar at h
  split at h
  · cases h
    exact ⟨hok, by simp, by simp⟩
  · split at h
    · cases h
    · split at h <;> cases h
      refine ⟨⟨?_, hok.2⟩, by simp [hh], by simp [hh]⟩
      have hmod := Nat.mod_lt (c.contentLength * 10 + digit ch) (show 0 < 2 ^ 64 by decide)
      simp only [ULLONG_MAX]
      omega

theorem connectionChar_inv (flags : Flags) (ch : UInt8)
    (h : c.headerState ≠ .connection ∧ c.headerState ≠ .transferEncoding) :
    ValueInv (connectionChar c flags ch) := by
  unfold connectionChar
  split
  · exact ⟨hok, by simp, by simp⟩
  · split
    · exact ⟨hok, by simp, by simp⟩
    · exact ⟨hok, h⟩

omit hok in
theorem contentLengthChar_cases (c : Parser) (ch : UInt8) :
    (∃ c', contentLengthChar c ch = .ok c') ∨ ∃ e, e ≠ .ok ∧ contentLengthChar c ch = .bad e := by
  unfold contentLengthChar
  split
  · exact Or.inl ⟨_, rfl⟩
  · split
    · exact Or.inr ⟨_, by decide, rfl⟩
    · split
      · exact Or.inr ⟨_, by decide, rfl⟩
      · exact Or.inl ⟨_, rfl⟩

theorem valueChar_inv (h : c.headerState ≠ .connection ∧ c.headerState ≠ .transferEncoding)
    (ch : UInt8) :
    (∃ c', valueChar c ch = .ok c' ∧ ValueInv c') ∨
      ∃ e, e ≠ .ok ∧ valueChar c ch = .bad e := by
  have hmatch : ∀ name (matched mismatched : HeaderState),
      matched ≠ .connection ∧ matched ≠ .transferEncoding →
      mismatched ≠ .connection ∧ mismatched ≠ .transferEncoding →
      ValueInv (matchName name matched mismatched c (lower ch)) := by
    intro name matched mismatched hm hmis
    refine ⟨hok, ?_⟩
    simp only [matchName, matchState]
    split_ifs
    · exact hmis
    · exact hm
    · exact h
  have hnumber : ∀ c' : Parser, c'.Ok → c'.headerState = .contentLengthNum →
      (∃ c'', contentLengthChar c' ch = .ok c'' ∧ ValueInv c'') ∨
        ∃ e, e ≠ .ok ∧ contentLengthChar c' ch = .bad e := by
    intro c' hok' hh
    rcases contentLengthChar_cases c' ch with ⟨c'', hc''⟩ | hbad
    · exact Or.inl ⟨c'', hc'', contentLengthChar_inv hok' hc'' hh⟩
    · exact Or.inr hbad
  have hself : ValueInv c := ⟨hok, h⟩
  unfold valueChar
  cases hh : c.headerState <;> simp only
  case connection => exact absurd hh h.1
  case transferEncoding => exact absurd hh h.2
  case general => exact Or.inl ⟨c, rfl, hself⟩
  case contentLength =>
    split
    · exact Or.inl ⟨c, rfl, hself⟩
    · exact hnumber _ (by exact hok) rfl
  case contentLengthNum => exact hnumber c hok hh
  case contentLengthWs =>
    split
    · exact Or.inl ⟨c, rfl, hself⟩
    · exact Or.inr ⟨_, by decide, rfl⟩
  case matchingTransferEncodingChunked => exact Or.inl ⟨_, rfl, hmatch _ _ _ (by simp) (by simp)⟩
  case matchingConnectionTokenStart =>
    refine Or.inl ⟨_, rfl, hok, firstConnectionState_ne ?_⟩
    split_ifs <;> simp
  case matchingConnectionKeepAlive => exact Or.inl ⟨_, rfl, hmatch _ _ _ (by simp) (by simp)⟩
  case matchingConnectionClose => exact Or.inl ⟨_, rfl, hmatch _ _ _ (by simp) (by simp)⟩
  case matchingConnectionUpgrade => exact Or.inl ⟨_, rfl, hmatch _ _ _ (by simp) (by simp)⟩
  case matchingConnectionToken | transferEncodingChunked =>
    refine Or.inl ⟨_, rfl, ?_⟩
    split
    · exact ⟨hok, by simp, by simp⟩
    · exact hself
  case connectionKeepAlive => exact Or.inl ⟨_, rfl, connectionChar_inv hok _ ch h⟩
  case connectionClose => exact Or.inl ⟨_, rfl, connectionChar_inv hok _ ch h⟩
  case connectionUpgrade => exact Or.inl ⟨_, rfl, connectionChar_inv hok _ ch h⟩
  all_goals exact Or.inl ⟨_, rfl, hok, by simp, by simp⟩

theorem sound_valueStep (hs : c.state = .headerValue)
    (h : c.headerState ≠ .connection ∧ c.headerState ≠ .transferEncoding) {ch : UInt8} :
    (valueStep c ch).Sound := by
  unfold valueStep
  split
  · exact sound_plain (by exact hok) (by simp) (by exact True.intro)
  · split
    · exact sound_headerAlmostDone (by exact hok)
    · split
      · exact sound_fail (by simp)
      · rcases valueChar_inv hok h ch with ⟨c', hc', hinv⟩ | ⟨e, hne, he⟩
        · have hs' : c'.state = .headerValue := by rw [valueChar_frame hs hc']; exact hs
          rw [hc']
          refine sound_plain hinv.1 (by simp [hs']) ?_
          simpa only [StateInv, hs'] using hinv.2
        · rw [he]
          exact sound_fail hne

end States

/-! ## The `switch` -/

theorem running_count {c : Parser} (h : Running c) (hs : c.state ≠ .chunkSizeStart) (n : Nat) :
    Running (c.count n) := by
  refine ⟨h.fine, ?_, h.notUpgraded⟩
  have hinv := h.state
  unfold StateInv at hinv ⊢
  rw [count_state]
  cases hstate : c.state <;> rw [hstate] at hinv <;> try exact hinv
  exact absurd hstate hs

/-- **No assertion fails**, and the invariant is kept. -/
theorem sound_step {c : Parser} (h : Running c) (ch : UInt8) : (step (countByte c) ch).Sound := by
  have hcount : c.state ≠ .chunkSizeStart → Running (countByte c) := by
    intro hs
    unfold countByte
    split
    · exact running_count h hs 1
    · exact h
  have hinv := h.state
  unfold StateInv at hinv
  cases hs : c.state <;> simp only [hs] at hinv hcount <;>
    simp only [step, move, countByte_state, hs]
  case chunkSizeStart =>
    refine sound_chunkSizeStart ?_ ?_ ?_
    · rw [countByte_header (by rw [hs]; rfl)]
      exact h.fine
    · rw [countByte_header (by rw [hs]; rfl)]
      exact hinv.1
    · rw [countByte_header (by rw [hs]; rfl), count_nread, hinv.2]
  all_goals
    have hrun := hcount (by simp)
    have hok := hrun.fine
    have hstate : (countByte c).state = _ := (countByte_state c).trans hs
    have hinv' := hrun.state
    simp only [StateInv, hstate] at hinv'
  case startReq => exact sound_startReq hrun
  case reqMethod => exact sound_reqMethod hok hstate hinv'
  case reqUrl s => exact sound_reqUrl hok hrun
  case headerFieldStart => exact sound_headerFieldStart hok
  case headerField => exact sound_fieldStep hok hstate hinv'
  case headerValueDiscardWs => exact sound_headerValueDiscardWs hok hrun
  case headerValueDiscardLws => exact sound_headerValueDiscardLws hok
  case headerValueStart => exact sound_headerValueStart hok
  case headerValue => exact sound_valueStep hok hstate hinv'
  case headerValueLws => exact sound_headerValueLws hok
  case headerAlmostDone => exact sound_headerAlmostDone hok
  case chunkSize => exact sound_chunkSize hok hstate hinv'.1 hinv'.2
  case chunkParameters => exact sound_chunkParameters hok hrun hstate
  case chunkSizeAlmostDone => exact sound_chunkSizeAlmostDone hok hinv'.1 hinv'.2
  case headersAlmostDone => exact sound_headersAlmostDone hok
  case headersDone => exact sound_headersDone hok
  case chunkData => exact sound_chunkStep hok hstate hinv'.1 hinv'.2.1 hinv'.2.2
  case chunkDataAlmostDone => exact sound_chunkDataAlmostDone hok hinv'.1 hinv'.2
  case chunkDataDone => exact sound_chunkDataDone hok hinv'
  case bodyIdentity => exact sound_bodyStep hok hstate hinv'.1 hinv'.2
  case messageDone => exact sound_messageDone hok (completes_pass [] _ _)
  case reqHttpStart =>
    unfold sReqHttpStart
    split_ifs
    · exact sound_go hrun
    · exact sound_plain (by exact hok) (by simp) (by exact True.intro)
    · exact sound_plain (by exact hok) (by simp) (by exact True.intro)
    · exact sound_fail (by simp)
  case reqHttpMajor =>
    unfold sReqHttpMajor
    split
    · exact sound_fail (by simp)
    · exact sound_plain (by exact hok) (by simp) (by exact True.intro)
  case reqHttpDot =>
    unfold sReqHttpDot
    split
    · exact sound_fail (by simp)
    · exact sound_plain (by exact hok) (by simp) (by exact True.intro)
  case reqHttpMinor =>
    unfold sReqHttpMinor
    split
    · exact sound_fail (by simp)
    · exact sound_plain (by exact hok) (by simp) (by exact True.intro)
  case reqHttpEnd =>
    unfold sReqHttpEnd
    split
    · exact sound_plain (by exact hok) (by simp) (by exact True.intro)
    · split
      · exact sound_plain (by exact hok) (by simp) (by exact True.intro)
      · exact sound_fail (by simp)
  case reqLineAlmostDone =>
    unfold sReqLineAlmostDone
    split
    · exact sound_fail (by simp)
    · exact sound_plain (by exact hok) (by simp) (by exact True.intro)
  -- the letters of `HTTP` and the line end behind an empty value
  all_goals exact sound_plain (by exact hok) (by simp) (by exact True.intro)

theorem byteStep_eq {c : Parser} {ch : UInt8} {ops : List Op} {c' : Parser}
    (h : byteStep c ch = some (ops, c')) :
    upgraded c = false ∧ tooLong c = false ∧ (step (countByte c) ch).ops = ops ∧
      (step (countByte c) ch).parser = c' ∧
      ((step (countByte c) ch).out = .next ∨ (step (countByte c) ch).out = .ret) := by
  unfold byteStep at h
  split at h
  · cases h
  · rename_i hgo
    simp only [Bool.or_eq_true, not_or, Bool.not_eq_true] at hgo
    simp only at h
    split at h <;> cases h
    rename_i hout
    exact ⟨hgo.1, hgo.2, rfl, rfl, hout⟩

/-- A parser behind what it has parsed. -/
def Alive (c : Parser) : Prop := Running c ∨ upgraded c = true ∧ c.Ok

theorem Alive.ok {c : Parser} (h : Alive c) : c.Ok := h.elim (·.fine) (·.2)

theorem Alive.running {c : Parser} (h : Alive c) (hup : upgraded c = false) : Running c :=
  h.resolve_right fun hup' => by rw [hup] at hup'; cases hup'.1

theorem running_byteStep {c c' : Parser} {ch : UInt8} {ops : List Op} (h : Running c)
    (hb : byteStep c ch = some (ops, c')) : Alive c' := by
  obtain ⟨-, -, -, rfl, hout⟩ := byteStep_eq hb
  have hsound := sound_step h ch
  rcases hout with hout | hout <;> simp only [Move.Sound, hout] at hsound
  · exact Or.inl hsound
  · exact Or.inr ⟨hsound.1, hsound.2.1⟩

/-- Bytes are left to another protocol only behind a message. -/
theorem completes_byteStep {c c' : Parser} {ch : UInt8} {ops : List Op} (h : Running c)
    (hb : byteStep c ch = some (ops, c')) (hup : upgraded c' = true) : Completes ops := by
  obtain ⟨-, -, rfl, rfl, hout⟩ := byteStep_eq hb
  have hsound := sound_step h ch
  rcases hout with hout | hout <;> simp only [Move.Sound, hout] at hsound
  · rw [hsound.notUpgraded] at hup
    cases hup
  · exact hsound.2.2

/-- **The invariant** holds behind every input that is parsed. -/
theorem running_scan {c c' : Parser} {p : Bytes} {ops : List Op} (h : Alive c)
    (hp : scan byteStep c p = some (ops, c')) : Alive c' := by
  refine Scan.scan_invariant byteStep (fun c _ => Alive c) ?_ c [] p h ops c' hp
  intro c es ch fs c' h hb
  exact running_byteStep (h.running (byteStep_eq hb).1) hb

theorem completes_scan {c c' : Parser} {p : Bytes} {ops : List Op} (h : Running c)
    (hp : scan byteStep c p = some (ops, c')) (hup : upgraded c' = true) : Completes ops := by
  induction p generalizing c ops with
  | nil =>
    simp only [scan, Option.some.injEq, Prod.mk.injEq] at hp
    rw [← hp.2, h.notUpgraded] at hup
    cases hup
  | cons ch p ih =>
    obtain ⟨first, c₁, rest, hb, hrest, rfl⟩ := Scan.scan_cons_some byteStep hp
    have halive := running_byteStep h hb
    cases hup₁ : upgraded c₁ with
    | true =>
      -- no byte is parsed behind it
      cases p with
      | nil =>
        simp only [scan, Option.some.injEq, Prod.mk.injEq] at hrest
        rw [← hrest.1, List.append_nil]
        exact completes_byteStep h hb hup₁
      | cons b p =>
        obtain ⟨_, _, _, hb', -, -⟩ := Scan.scan_cons_some byteStep hrest
        rw [(byteStep_eq hb').1] at hup₁
        cases hup₁
    | false =>
      obtain ⟨q, hends⟩ := ih (halive.running hup₁) hrest
      exact ⟨q, hends.append first⟩

end Ehttp.Http
