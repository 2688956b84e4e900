import Ehttp.Http.Marking

/-!
# A pass through the `switch` is the steps of its bytes

* `scan_chunkData`, `scan_bodyIdentity`: the bodies, as the loops over names and
  values before them;
* `turn_scan`: a pass through the `switch`;
* `loop_scan`: the loop over a buffer.
-/

namespace Ehttp.Http

open Lib

/-! ## Bodies -/

/-- What a body byte is marked and passed with. -/
def bodyOps (c : Parser) (b : UInt8) : List Op := [c.mark .body, .pass [b]]

theorem byteStep_chunkData {c : Parser} (hs : c.state = .chunkData) (hc : c.flags.chunked = true)
    (hzero : c.contentLength ≠ 0) (hmax : c.contentLength ≠ ULLONG_MAX) (b : UInt8) :
    byteStep c b = some (bodyOps c b, { c with
      contentLength := c.contentLength - 1
      state := if c.contentLength - 1 = 0 then .chunkDataAlmostDone else .chunkData }) := by
  rw [byteStep_body (by rw [hs]; rfl)]
  simp only [step, hs, chunkStep, hc, hzero, hmax, Bool.not_true, Bool.false_eq_true, or_self,
    ↓reduceIte]
  split
  · rename_i hend
    simp [hend, bodyOps]
  · rename_i hmore
    simp [bodyOps]

/-- A part of a chunk, up to all of it. -/
theorem scan_chunkData {c : Parser} (hs : c.state = .chunkData) (hc : c.flags.chunked = true)
    (hmax : c.contentLength < ULLONG_MAX) (u : Bytes) (hu : u ≠ [])
    (hle : u.length ≤ c.contentLength) :
    scan byteStep c u = some (u.flatMap (bodyOps c), { c with
      contentLength := c.contentLength - u.length
      state := if c.contentLength - u.length = 0 then .chunkDataAlmostDone else .chunkData }) := by
  induction u generalizing c with
  | nil => exact absurd rfl hu
  | cons b u ih =>
    simp only [List.length_cons] at hle
    rw [Scan.scan_cons, byteStep_chunkData hs hc (by omega) (by omega)]
    cases u with
    | nil => simp [scan]
    | cons b' u =>
      simp only [List.length_cons] at hle
      have hmore : c.contentLength - 1 ≠ 0 := by omega
      simp only [hmore, ↓reduceIte, Option.bind_some]
      rw [ih (by rfl) (by exact hc) (by simp only; omega) (by simp)
        (by simp only [List.length_cons]; omega)]
      have harith : c.contentLength - 1 - (b' :: u).length = c.contentLength - (b :: b' :: u).length := by
        simp only [List.length_cons]
        omega
      simp only [Option.map_some, harith]
      rfl

theorem byteStep_bodyIdentity {c : Parser} (hs : c.state = .bodyIdentity)
    (hmax : c.contentLength ≠ ULLONG_MAX) (b : UInt8) (hone : 1 < c.contentLength) :
    byteStep c b = some (bodyOps c b, { c with contentLength := c.contentLength - 1 }) := by
  have hmore : c.contentLength - 1 ≠ 0 := by omega
  have hzero : c.contentLength ≠ 0 := by omega
  rw [byteStep_body (by rw [hs]; rfl)]
  simp [step, hs, bodyStep, hzero, hmax, hmore, bodyOps]

/-- The operations behind the last byte of a body. -/
def bodyDoneOps (c : Parser) : List Op :=
  [.flush (.body, c.toHttpParser) (-1), .notify (c.toHttpParser, .messageComplete) 0]

theorem byteStep_bodyDone {c : Parser} (hs : c.state = .bodyIdentity) (b : UInt8)
    (hone : c.contentLength = 1) :
    byteStep c b = some (bodyOps c b ++ bodyDoneOps c,
      { c with contentLength := 0, state := .startReq }) := by
  have hmax : c.contentLength ≠ ULLONG_MAX := by rw [hone]; decide
  rw [byteStep_body (by rw [hs]; rfl)]
  cases hup : c.upgrade <;>
    simp [step, hs, bodyStep, hone, ULLONG_MAX, sMessageDone, bodyOps, bodyDoneOps, hup]

/-- A part of a body. -/
theorem scan_bodyIdentity {c : Parser} (hs : c.state = .bodyIdentity)
    (hmax : c.contentLength < ULLONG_MAX) (u : Bytes) (hlt : u.length < c.contentLength) :
    scan byteStep c u =
      some (u.flatMap (bodyOps c), { c with contentLength := c.contentLength - u.length }) := by
  induction u generalizing c with
  | nil => rfl
  | cons b u ih =>
    simp only [List.length_cons] at hlt
    rw [Scan.scan_cons, byteStep_bodyIdentity hs (by omega) b (by omega), Option.bind_some,
      ih (by exact hs) (by simp only; omega) (by simp only; omega)]
    have harith : c.contentLength - 1 - u.length = c.contentLength - (b :: u).length := by
      simp only [List.length_cons]
      omega
    simp only [Option.map_some, harith]
    rfl

/-- All of it. -/
theorem scan_bodyDone {c : Parser} (hs : c.state = .bodyIdentity)
    (hmax : c.contentLength < ULLONG_MAX) (u : Bytes) (hu : u ≠ []) (hlen : u.length = c.contentLength) :
    scan byteStep c u =
      some (u.flatMap (bodyOps c) ++ bodyDoneOps c, { c with contentLength := 0, state := .startReq }) := by
  obtain ⟨front, b, rfl⟩ : ∃ front b, u = front ++ [b] :=
    ⟨_, _, (List.dropLast_concat_getLast hu).symm⟩
  simp only [List.length_append, List.length_cons, List.length_nil] at hlen
  rw [Scan.scan_append, scan_bodyIdentity hs hmax front (by omega), Option.bind_some,
    Scan.scan_cons, byteStep_bodyDone (by exact hs) b (by simp only; omega)]
  simp [scan, List.flatMap_append, bodyDoneOps, bodyOps]
  rfl

/-! ## The `switch` -/

/-- The turn read `u` off the front of `p`, as the steps of its bytes do. -/
structure Turn.Scanned (t : Turn) (c : Parser) (p u : Bytes) : Prop where
  split : p = u ++ t.p
  out : t.out = if upgraded t.parser then .ret else .next
  steps : ∃ ops, scan byteStep c u = some (ops, t.parser) ∧ MarkOp.Alike channel Prod.fst t.ops ops

/-- Operations up to an error: tidy, over bytes at the front of the rest, and
without a notice. -/
structure Ending (c : Parser) (ops : List Op) (rest : Bytes) : Prop where
  passed : MarkOp.passed ops <+: rest
  tidy : ∀ d, Marked c d → ∀ n, MarkOp.TidyOps channel Prod.fst ops (d, n)
  muted : MarkOp.Muted ops

theorem ending_nil {c : Parser} {rest : Bytes} : Ending c [] rest :=
  ⟨List.nil_prefix, fun _ _ _ => trivial, MarkOp.muted_nil⟩

/-- The turn ended in an error, and so do the steps.  What it made before is
the steps of some bytes and an ending. -/
structure Turn.Failed (t : Turn) (c : Parser) (p : Bytes) : Prop where
  out : t.out = .error
  stopped : t.p ≠ []
  errno : t.parser.httpErrno ≠ .ok
  steps : scan byteStep c p = none
  made : ∃ u rest ops c' last, p = u ++ rest ∧ rest ≠ [] ∧ scan byteStep c u = some (ops, c') ∧
    MarkOp.Alike channel Prod.fst t.ops (ops ++ last) ∧ Ending c' last rest

theorem made_now {c : Parser} {p : Bytes} {ops : List Op} (hp : p ≠ []) (h : Ending c ops p) :
    ∃ u rest as c' last, p = u ++ rest ∧ rest ≠ [] ∧ scan byteStep c u = some (as, c') ∧
      MarkOp.Alike channel Prod.fst ops (as ++ last) ∧ Ending c' last rest :=
  ⟨[], p, [], c, ops, rfl, hp, rfl, fun _ => rfl, h⟩

theorem scan_stop {c c' : Parser} {u : Bytes} {ops : List Op} {ch : UInt8} (rest : Bytes)
    (hu : scan byteStep c u = some (ops, c')) (hch : byteStep c' ch = none) :
    scan byteStep c (u ++ ch :: rest) = none := by
  rw [Scan.scan_append, hu, Option.bind_some, Scan.scan_cons, hch]
  rfl

theorem scan_stop_front {c : Parser} {u : Bytes} (rest : Bytes) (hu : scan byteStep c u = none) :
    scan byteStep c (u ++ rest) = none := by
  rw [Scan.scan_append, hu]
  rfl

/-- A turn over one byte. -/
theorem move_scan {c : Parser} (h : Running c) (hfit : tooLong c = false) (ch : UInt8) (rest : Bytes)
    (hstep : step (countByte c) ch = move (countByte c) ch) :
    ((move (countByte c) ch).turn ch rest).Scanned c (ch :: rest) [ch] ∨
      ((move (countByte c) ch).turn ch rest).Failed c (ch :: rest) := by
  have hsound := sound_step h ch
  have hbyte : byteStep c ch =
      if (move (countByte c) ch).out = .next ∨ (move (countByte c) ch).out = .ret then
        some ((move (countByte c) ch).ops, (move (countByte c) ch).parser) else none := by
    simp [byteStep, h.notUpgraded, hfit, hstep]
  have htracked := fun d (hd : Marked c d) => tracked_step (marked_countByte hd) ch
  rw [hstep] at hsound htracked
  generalize move (countByte c) ch = m at hsound hbyte htracked
  obtain ⟨c', ops, out⟩ := m
  cases out with
  | next =>
    refine Or.inl ⟨rfl, ?_, ops, ?_, fun _ => rfl⟩
    · simp only [Move.turn, Running.notUpgraded hsound, Bool.false_eq_true, ↓reduceIte]
    · simp [hbyte, scan, Move.turn]
  | ret =>
    refine Or.inl ⟨rfl, ?_, ops, ?_, fun _ => rfl⟩
    · simp only [Move.turn, hsound.1, ↓reduceIte]
    · simp [hbyte, scan, Move.turn]
  | error =>
    have htidied := fun d (hd : Marked c d) => (htracked d hd).tidied rfl
    refine Or.inr ⟨rfl, by simp [Move.turn], hsound, by simp [Scan.scan_cons, hbyte],
      made_now (by simp) ⟨?_, fun d hd => (htidied d hd).tidy, (htidied _ (marked_entry c)).muted⟩⟩
    rw [Move.turn, (htidied _ (marked_entry c)).passed]
    exact List.nil_prefix
  | abort => exact absurd hsound id

/-! ## The loops over names and values -/

theorem overflows_count (c : Parser) (n : Nat) :
    (c.count n).overflows = true ↔ ¬ c.nread + n ≤ maxHeaderSize := by
  rw [Nat.not_le]
  exact decide_eq_true_iff

/-- What the loops over names and values do with the bytes they pass. -/
def Passes (c c' : Parser) (passed : Bytes) : Prop :=
  c'.nread = c.nread ∧
    scan byteStep c passed =
      if c.nread + passed.length ≤ maxHeaderSize then
        some (passed.map fun b => .pass [b], c'.count passed.length)
      else none

/-- The buffer ends inside a name or a value. -/
theorem more_scan {c c' : Parser} {p : Bytes} (hp : p ≠ []) (h : Passes c c' p)
    (hs : c'.state ≠ .startReq) (t : Turn)
    (hlong : (c'.count p.length).overflows = true →
      t.out = .error ∧ t.p ≠ [] ∧ t.parser.httpErrno ≠ .ok ∧ Ending c t.ops p)
    (hfit : (c'.count p.length).overflows = false →
      t = ⟨c'.count p.length, [.pass p], [], .next⟩) :
    (∃ u, u ≠ [] ∧ t.Scanned c p u) ∨ t.Failed c p := by
  obtain ⟨hnread, hscan⟩ := h
  have hover := overflows_count c' p.length
  rw [hnread] at hover
  cases hcase : (c'.count p.length).overflows with
  | true =>
    obtain ⟨hout, hstop, herr, hending⟩ := hlong hcase
    exact Or.inr ⟨hout, hstop, herr, by rw [hscan, if_neg (hover.mp hcase)], made_now hp hending⟩
  | false =>
    have hle : c.nread + p.length ≤ maxHeaderSize := by
      by_contra hle
      rw [hover.mpr hle] at hcase
      cases hcase
    obtain rfl := hfit hcase
    refine Or.inl ⟨p, hp, by simp, ?_, _, by rw [hscan, if_pos hle], MarkOp.alike_pass channel Prod.fst p⟩
    exact (if_neg (by rw [upgraded_of_ne (by exact hs)]; decide)).symm

/-- They stop at `b`, which the `switch` takes (`good`) or refuses. -/
theorem stop_scan {c c' d : Parser} {passed : Bytes} {b : UInt8} {rest : Bytes} {ops : List Op}
    {good : Prop} [Decidable good] (h : Passes c c' passed)
    (hb : byteStep (c'.count passed.length) b =
      if (c'.count passed.length).nread + 1 ≤ maxHeaderSize ∧ good then some (ops, d) else none)
    (hs : d.state ≠ .startReq) (t : Turn)
    (hlong : (c'.count (1 + passed.length)).overflows = true → t.out = .error ∧ t.p ≠ [] ∧
      t.parser.httpErrno ≠ .ok ∧ Ending c t.ops (passed ++ b :: rest))
    (hbad : ¬ good → t.out = .error ∧ t.p ≠ [] ∧
      t.parser.httpErrno ≠ .ok ∧ Ending c t.ops (passed ++ b :: rest))
    (hgood : (c'.count (1 + passed.length)).overflows = false → good →
      t = ⟨d, .pass passed :: ops, rest, .next⟩) :
    (∃ u, u ≠ [] ∧ t.Scanned c (passed ++ b :: rest) u) ∨ t.Failed c (passed ++ b :: rest) := by
  obtain ⟨hnread, hscan⟩ := h
  have hover := overflows_count c' (1 + passed.length)
  rw [hnread, Nat.add_comm 1, ← Nat.add_assoc] at hover
  rw [count_nread, hnread] at hb
  by_cases hok : c.nread + passed.length + 1 ≤ maxHeaderSize ∧ good
  · rw [if_pos hok] at hb
    rw [if_pos (by omega)] at hscan
    have hfits : (c'.count (1 + passed.length)).overflows = false := by
      rw [Bool.eq_false_iff, Ne, Nat.add_comm 1, hover]
      exact fun hle => hle hok.1
    obtain rfl := hgood hfits hok.2
    refine Or.inl ⟨passed ++ [b], by simp, by simp, ?_, passed.map (fun b => .pass [b]) ++ ops, ?_, ?_⟩
    · exact (if_neg (by rw [upgraded_of_ne (by exact hs)]; decide)).symm
    · rw [Scan.scan_append, hscan, Option.bind_some, Scan.scan_cons, hb]
      simp [scan]
    · exact MarkOp.Alike.append (MarkOp.alike_pass channel Prod.fst passed) (fun _ => rfl)
  · rw [if_neg hok] at hb
    have herr : t.out = .error ∧ t.p ≠ [] ∧ t.parser.httpErrno ≠ .ok ∧
        Ending c t.ops (passed ++ b :: rest) := by
      by_cases hgood' : good
      · apply hlong
        rw [Nat.add_comm 1, hover]
        exact fun hle => hok ⟨hle, hgood'⟩
      · exact hbad hgood'
    refine Or.inr ⟨herr.1, herr.2.1, herr.2.2.1, ?_, made_now (by simp) herr.2.2.2⟩
    by_cases hpassed : c.nread + passed.length ≤ maxHeaderSize
    · exact scan_stop rest (by rw [hscan, if_pos hpassed]) hb
    · exact scan_stop_front _ (by rw [hscan, if_neg hpassed])

theorem fieldLoop_ofField {c : Parser} (h : c.headerState.ofField = true) (p : Bytes) :
    ∃ r, fieldLoop c p = some r := by
  induction p generalizing c with
  | nil => exact ⟨_, rfl⟩
  | cons ch rest ih =>
    by_cases ht : token ch = 0
    · exact ⟨_, fieldLoop_stop c ch rest ht⟩
    · obtain ⟨c', hc', hof⟩ := fieldChar_ofField h ch (token ch)
      obtain ⟨r, hr⟩ := ih hof
      exact ⟨_, by rw [fieldLoop_char c ch rest ht, hc', Option.bind_some, hr]; rfl⟩

/-- The byte behind a name. -/
theorem byteStep_fieldEnd {c : Parser} (hs : c.state = .headerField) {ch : UInt8}
    (ht : token ch = 0) :
    byteStep c ch =
      if c.nread + 1 ≤ maxHeaderSize ∧ ch = 58 then
        some ([c.callbackData .headerField, .pass [ch]],
          { c.count 1 with state := .headerValueDiscardWs })
      else none := by
  rw [byteStep_header (by rw [hs]; rfl) (upgraded_of_ne (by rw [hs]; decide))]
  simp only [step, count_state, hs, fieldStep, ht, ↓reduceIte]
  by_cases h : ch = 58
  · simp [h]; rfl
  · simp [h]

theorem headerField_scan {c : Parser} (h : Running c) (hs : c.state = .headerField)
    (hfit : tooLong c = false) (ch : UInt8) (rest : Bytes) :
    (∃ u, u ≠ [] ∧ (sHeaderField (c.count 1) (ch :: rest)).Scanned c (ch :: rest) u) ∨
      (sHeaderField (c.count 1) (ch :: rest)).Failed c (ch :: rest) := by
  have hn : c.nread + 1 ≤ maxHeaderSize := by
    rw [Bool.eq_false_iff, Ne, tooLong_header (by rw [hs]; rfl)] at hfit
    omega
  have hinv := h.state
  simp only [StateInv, hs] at hinv
  obtain ⟨⟨c', passed, p⟩, hr⟩ := fieldLoop_ofField hinv (ch :: rest)
  obtain ⟨hframe, hp, hstop⟩ := fieldLoop_frame hr
  have hscan := scan_fieldLoop hs (by omega) hr
  have hrun : fieldLoop (c.count 1) (ch :: rest) = some ⟨c'.count 1, passed, p⟩ := by
    rw [fieldLoop_count, hr]
    rfl
  simp only at hframe hp hstop hscan
  have hstate : c'.state = .headerField := by
    rw [hframe]
    exact hs
  have hpasses : Passes c c' passed := ⟨by rw [hframe], hscan⟩
  cases p with
  | nil =>
    rw [List.append_nil] at hp
    have hlen : 1 + (passed.length - 1) = passed.length := by
      rw [← hp, List.length_cons]
      omega
    simp only [sHeaderField, hrun, count_count, hlen]
    rw [hp]
    have hlast : passed.drop (passed.length - 1) ≠ [] := by
      rw [Ne, List.drop_eq_nil_iff, ← hp, List.length_cons]
      omega
    refine more_scan (by rw [← hp]; simp) hpasses (by rw [hstate]; decide) _ ?_ ?_
    · intro hover
      rw [if_pos hover]
      exact ⟨rfl, hlast, by simp, ending_nil⟩
    · intro hover
      simp [hover]
  | cons b rest' =>
    simp only [sHeaderField, hrun, count_count]
    rw [hp]
    refine stop_scan hpasses (byteStep_fieldEnd (by exact hstate) (hstop b rest' rfl)) (by simp) _ ?_ ?_ ?_
    · intro hover
      rw [if_pos hover]
      exact ⟨rfl, by simp, by simp, ending_nil⟩
    · intro hb
      rw [if_neg hb]
      split <;> exact ⟨rfl, by simp, by simp, ending_nil⟩
    · intro hover hb
      rw [if_neg (by simp [hover]), if_pos hb, Nat.add_comm 1]
      rfl

/-- No assertion failed. -/
def ValueEnd.Safe : ValueEnd → Prop
  | .abort => False
  | .bad e => e ≠ .ok
  | _ => True

theorem valueLoop_safe {c : Parser} (h : ValueInv c) (p : Bytes) : (valueLoop c p).out.Safe := by
  induction p generalizing c with
  | nil => trivial
  | cons ch rest ih =>
    by_cases hcr : ch = CR
    · rw [valueLoop, if_pos hcr]
      trivial
    · by_cases hlf : ch = LF
      · rw [valueLoop, if_neg hcr, if_pos hlf]
        trivial
      · cases hchar : isHeaderChar ch with
        | false =>
          rw [valueLoop, if_neg hcr, if_neg hlf, if_pos (by simp [hchar])]
          exact (by decide : Errno.invalidHeaderToken ≠ .ok)
        | true =>
          rcases valueChar_inv h.1 h.2 ch with ⟨c', hc', hinv'⟩ | ⟨e, hne, he⟩
          · rw [valueLoop_char rest hcr hlf hchar hc']
            exact ih hinv'
          · rw [valueLoop, if_neg hcr, if_neg hlf, if_neg (by simp [hchar]), he]
            exact hne

theorem byteStep_cr {c : Parser} (hs : c.state = .headerValue) :
    byteStep c CR =
      if c.nread + 1 ≤ maxHeaderSize ∧ True then
        some ([c.callbackData .headerValue, .pass [CR]], { c.count 1 with state := .headerAlmostDone })
      else none := by
  rw [byteStep_value hs, valueStep, if_pos rfl]
  simp
  rfl

theorem byteStep_lf {c : Parser} (hs : c.state = .headerValue) :
    byteStep c LF =
      if c.nread + 1 ≤ maxHeaderSize ∧ True then
        some ([c.callbackDataNoadvance .headerValue, .pass [LF]],
          { c.count 1 with state := .headerValueLws })
      else none := by
  have hstep : valueStep (c.count 1) LF =
      Parser.go { c.count 1 with state := .headerValueLws } LF
        [c.callbackDataNoadvance .headerValue] := by
    unfold valueStep sHeaderAlmostDone
    rw [if_neg (by decide), if_pos rfl, if_neg (by simp)]
    rfl
  rw [byteStep_value hs, hstep]
  simp

theorem count_withState (c : Parser) (s : State) (n k : Nat) :
    Parser.count { c.count n with state := s } k = { c.count (n + k) with state := s } := by
  simp [Parser.count, Nat.add_assoc]

theorem headerValue_scan {c : Parser} (h : Running c) (hs : c.state = .headerValue)
    (hfit : tooLong c = false) (ch : UInt8) (rest : Bytes) :
    (∃ u, u ≠ [] ∧ (sHeaderValue (c.count 1) (ch :: rest)).Scanned c (ch :: rest) u) ∨
      (sHeaderValue (c.count 1) (ch :: rest)).Failed c (ch :: rest) := by
  have hn : c.nread + 1 ≤ maxHeaderSize := by
    rw [Bool.eq_false_iff, Ne, tooLong_header (by rw [hs]; rfl)] at hfit
    omega
  have hscan := scan_valueLoop (ch :: rest) hs (by omega)
  have hrun := valueLoop_count c 1 (ch :: rest)
  have hinv := h.state
  simp only [StateInv, hs] at hinv
  have hsafe := valueLoop_safe ⟨h.fine, hinv⟩ (ch :: rest)
  obtain ⟨hframe, hp, hstop⟩ := valueLoop_frame hs (ch :: rest)
  generalize valueLoop c (ch :: rest) = r at hscan hrun hframe hp hstop hsafe
  obtain ⟨c', passed, p, out⟩ := r
  simp only at hscan hrun hframe hp hsafe
  have hstate : c'.state = .headerValue := by
    rw [hframe]
    exact hs
  have hpasses : Passes c c' passed := ⟨by rw [hframe], hscan⟩
  cases out with
  | abort => exact absurd hsafe id
  | more =>
    obtain rfl : p = [] := hstop
    rw [List.append_nil] at hp
    have hlen : 1 + (passed.length - 1) = passed.length := by
      rw [← hp, List.length_cons]
      omega
    simp only [sHeaderValue, hrun, count_count, hlen]
    rw [hp]
    have hlast : passed.drop (passed.length - 1) ≠ [] := by
      rw [Ne, List.drop_eq_nil_iff, ← hp, List.length_cons]
      omega
    refine more_scan (by rw [← hp]; simp) hpasses (by rw [hstate]; decide) _ ?_ ?_
    · intro hover
      rw [if_pos hover]
      exact ⟨rfl, hlast, by simp, ending_nil⟩
    · intro hover
      simp [hover]
  | cr =>
    obtain ⟨rest', rfl⟩ : ∃ rest, p = CR :: rest := hstop
    simp only [sHeaderValue, hrun, count_withState]
    rw [hp]
    refine stop_scan hpasses (byteStep_cr (by exact hstate)) (by simp) _ ?_ (by simp) ?_
    · intro hover
      rw [if_pos (by exact hover)]
      refine ⟨rfl, by simp, by simp, by simp [MarkOp.passed, Parser.callbackData], fun d hd n => ?_,
        by simp [MarkOp.Muted, Parser.callbackData]⟩
      rw [Marked, hs] at hd
      obtain rfl : d = some (channel (.headerValue, c.toHttpParser)) := hd
      have hparser : c'.toHttpParser = c.toHttpParser := by rw [hframe]
      exact ⟨trivial, fun y hy _ => by rw [← Option.some.inj hy, ← hparser]; rfl, trivial⟩
    · intro hover _
      rw [if_neg (by exact Bool.eq_false_iff.mp hover), Nat.add_comm 1]
      rfl
  | lf =>
    obtain ⟨rest', rfl⟩ : ∃ rest, p = LF :: rest := hstop
    simp only [sHeaderValue, hrun, count_withState]
    rw [hp]
    refine stop_scan hpasses (byteStep_lf (by exact hstate)) (by simp) _ ?_ (by simp) ?_
    · intro hover
      rw [if_pos (by exact hover)]
      exact ⟨rfl, by simp, by simp, ending_nil⟩
    · intro hover _
      rw [if_neg (by exact Bool.eq_false_iff.mp hover), Nat.add_comm 1]
      rfl
  | bad e =>
    obtain ⟨b, rest', rfl, hbad⟩ : ∃ b rest, p = b :: rest ∧ badChar c' b := hstop
    simp only [sHeaderValue, hrun]
    rw [hp]
    refine Or.inr ⟨rfl, by simp, by exact hsafe, ?_, made_now (by simp) ending_nil⟩
    by_cases hpassed : c.nread + passed.length ≤ maxHeaderSize
    · exact scan_stop rest' (by rw [hscan, if_pos hpassed])
        (byteStep_badChar (by exact hstate) (badChar_count hbad _))
    · exact scan_stop_front _ (by rw [hscan, if_neg hpassed])

/-! ## The loop over a buffer -/

/-- A body is read as far as the buffer goes. -/
theorem body_alike (c : Parser) {u : Bytes} (hu : u ≠ []) :
    MarkOp.Alike channel Prod.fst [c.mark .body, .pass u] (u.flatMap (bodyOps c)) :=
  MarkOp.alike_mark_pass channel Prod.fst (.body, c.toHttpParser) u hu

theorem take_ne_nil {n : Nat} (hn : n ≠ 0) (ch : UInt8) (rest : Bytes) :
    (ch :: rest).take (min n (ch :: rest).length) ≠ [] := by
  intro h
  have hlen := congrArg List.length h
  simp only [List.length_take, List.length_cons, List.length_nil] at hlen
  omega

theorem chunkData_scan {c : Parser} (h : Running c) (hs : c.state = .chunkData) (ch : UInt8)
    (rest : Bytes) :
    ∃ u, u ≠ [] ∧ (sChunkData c (ch :: rest)).Scanned c (ch :: rest) u := by
  have hinv := h.state
  simp only [StateInv, hs] at hinv
  have hmax := lt_of_le_of_ne h.fine.1 hinv.2.2
  have hne := take_ne_nil hinv.2.1 ch rest
  have hlen : ((ch :: rest).take (min c.contentLength (ch :: rest).length)).length =
      min c.contentLength (ch :: rest).length := by
    rw [List.length_take]
    omega
  have hscan := scan_chunkData hs hinv.1 hmax _ hne (by rw [hlen]; omega)
  rw [hlen] at hscan
  refine ⟨_, hne, ?_⟩
  unfold sChunkData
  rw [if_neg (by simp [hinv.1, hinv.2.1, hinv.2.2])]
  refine ⟨by simp, ?_, _, ?_, body_alike c hne⟩
  · refine (if_neg ?_).symm
    rw [upgraded_of_ne (by simp only; split <;> simp [hs])]
    decide
  · rw [hscan]
    simp only
    split <;> simp [hs]

theorem bodyIdentity_scan {c : Parser} (h : Running c) (hs : c.state = .bodyIdentity) (ch : UInt8)
    (rest : Bytes) :
    ∃ u, u ≠ [] ∧ (sBodyIdentity c (ch :: rest)).Scanned c (ch :: rest) u := by
  have hinv := h.state
  simp only [StateInv, hs] at hinv
  have hmax := lt_of_le_of_ne h.fine.1 hinv.2
  have hne := take_ne_nil hinv.1 ch rest
  have hlen : ((ch :: rest).take (min c.contentLength (ch :: rest).length)).length =
      min c.contentLength (ch :: rest).length := by
    rw [List.length_take]
    omega
  refine ⟨_, hne, ?_⟩
  unfold sBodyIdentity
  rw [if_neg (by simp [hinv.1, hinv.2])]
  simp only
  by_cases hend : c.contentLength - min c.contentLength (ch :: rest).length = 0
  · have hscan := scan_bodyDone hs hmax _ hne (by rw [hlen]; omega)
    rw [if_pos hend]
    refine ⟨by simp, ?_, _, by rw [hscan, ← hend]; rfl, ?_⟩
    · simp [sMessageDone, upgraded]
    · exact MarkOp.Alike.append (body_alike c hne) (fun _ => rfl)
  · have hscan := scan_bodyIdentity hs hmax _ (by rw [hlen]; omega)
    rw [hlen] at hscan
    rw [if_neg hend]
    refine ⟨by simp, ?_, _, hscan, body_alike c hne⟩
    refine (if_neg ?_).symm
    rw [upgraded_of_ne (by simp [hs])]
    decide

/-- **A pass through the `switch`** is the steps of the bytes it reads. -/
theorem turn_scan {c : Parser} (h : Running c) (hfit : tooLong c = false) (ch : UInt8)
    (rest : Bytes) :
    (∃ u, u ≠ [] ∧ (turn (countByte c) ch rest).Scanned c (ch :: rest) u) ∨
      (turn (countByte c) ch rest).Failed c (ch :: rest) := by
  have hmove : step (countByte c) ch = move (countByte c) ch →
      turn (countByte c) ch rest = (move (countByte c) ch).turn ch rest →
      (∃ u, u ≠ [] ∧ (turn (countByte c) ch rest).Scanned c (ch :: rest) u) ∨
        (turn (countByte c) ch rest).Failed c (ch :: rest) := by
    intro hstep hturn
    rw [hturn]
    exact (move_scan h hfit ch rest hstep).imp_left fun hscanned => ⟨[ch], by simp, hscanned⟩
  cases hs : c.state
  case headerField =>
    have hturn : turn (countByte c) ch rest = sHeaderField (c.count 1) (ch :: rest) := by
      rw [countByte_header (by rw [hs]; rfl)]
      simp only [turn, count_state, hs]
    rw [hturn]
    exact headerField_scan h hs hfit ch rest
  case headerValue =>
    have hturn : turn (countByte c) ch rest = sHeaderValue (c.count 1) (ch :: rest) := by
      rw [countByte_header (by rw [hs]; rfl)]
      simp only [turn, count_state, hs]
    rw [hturn]
    exact headerValue_scan h hs hfit ch rest
  case bodyIdentity =>
    have hturn : turn (countByte c) ch rest = sBodyIdentity c (ch :: rest) := by
      rw [countByte_body (by rw [hs]; rfl)]
      simp only [turn, hs]
    rw [hturn]
    exact Or.inl (bodyIdentity_scan h hs ch rest)
  case chunkData =>
    have hturn : turn (countByte c) ch rest = sChunkData c (ch :: rest) := by
      rw [countByte_body (by rw [hs]; rfl)]
      simp only [turn, hs]
    rw [hturn]
    exact Or.inl (chunkData_scan h hs ch rest)
  all_goals exact hmove (by simp only [step, countByte_state, hs]) (by simp only [turn, countByte_state, hs])

/-- **The loop** is the steps of the bytes of the buffer, to its end unless the
rest is for another protocol. -/
theorem loop_scan {c : Parser} (h : Running c) (fuel : Nat) (p : Bytes) (hfuel : p.length ≤ fuel) :
    (∃ u, (loop fuel c p).Scanned c p u ∧ ((loop fuel c p).out = .next → (loop fuel c p).p = [])) ∨
      (loop fuel c p).Failed c p := by
  have hnil : ∀ fuel, loop fuel c [] = ⟨c, [], [], .next⟩ := by
    intro fuel
    cases fuel <;> rfl
  induction fuel generalizing c p with
  | zero =>
    obtain rfl : p = [] := List.eq_nil_of_length_eq_zero (Nat.le_zero.mp hfuel)
    rw [hnil]
    exact Or.inl ⟨[], ⟨rfl, by simp [h.notUpgraded], [], rfl, fun _ => rfl⟩, fun _ => rfl⟩
  | succ fuel ih =>
    cases p with
    | nil =>
      rw [hnil]
      exact Or.inl ⟨[], ⟨rfl, by simp [h.notUpgraded], [], rfl, fun _ => rfl⟩, fun _ => rfl⟩
    | cons ch rest =>
      rw [loop]
      cases hfit : tooLong c with
      | true =>
        refine Or.inr ⟨rfl, by simp, by simp, ?_, made_now (by simp) ending_nil⟩
        simp [Scan.scan_cons, byteStep, hfit]
      | false =>
        simp only [Bool.false_eq_true, ↓reduceIte]
        rcases turn_scan h hfit ch rest with ⟨u, hu, hturn⟩ | hturn
        · obtain ⟨hsplit, hout, ops, hscan, halike⟩ := hturn
          generalize turn (countByte c) ch rest = t at hsplit hout hscan halike
          have halive := running_scan (Or.inl h) hscan
          cases hup : upgraded t.parser with
          | true =>
            rw [hup] at hout
            simp only [↓reduceIte] at hout
            simp only [hout, reduceCtorEq, ↓reduceIte]
            exact Or.inl ⟨u, ⟨hsplit, by simp [hout, hup], ops, hscan, halike⟩, fun hno => by cases hno⟩
          | false =>
            rw [hup] at hout
            simp only [Bool.false_eq_true, ↓reduceIte] at hout
            simp only [hout, ↓reduceIte]
            have hshort : t.p.length ≤ fuel := by
              have hlen := congrArg List.length hsplit
              have hpos := List.length_pos_iff.mpr hu
              simp only [List.length_cons, List.length_append] at hlen hfuel
              omega
            have hrun := halive.running hup
            rcases ih hrun t.p hshort (fun fuel => by cases fuel <;> rfl) with ⟨v, hrest, hend⟩ | hrest
            · obtain ⟨hsplit', hout', ops', hscan', halike'⟩ := hrest
              refine Or.inl ⟨u ++ v, ⟨?_, hout', ops ++ ops', ?_, halike.append halike'⟩, hend⟩
              · rw [List.append_assoc, ← hsplit']
                exact hsplit
              · rw [Scan.scan_append, hscan, Option.bind_some, hscan', Option.map_some]
            · obtain ⟨u', rest', ops', c', last, hsplit', hmore, hscan', halike', hending⟩ := hrest.made
              refine Or.inr ⟨hrest.out, hrest.stopped, hrest.errno, ?_, u ++ u', rest', ops ++ ops',
                c', last, ?_, hmore, ?_, ?_, hending⟩
              · rw [hsplit, Scan.scan_append, hscan, Option.bind_some, hrest.steps]
                rfl
              · rw [List.append_assoc, ← hsplit']
                exact hsplit
              · rw [Scan.scan_append, hscan, Option.bind_some, hscan', Option.map_some]
              · rw [List.append_assoc]
                exact halike.append halike'
        · simp only [hturn.out, reduceCtorEq, ↓reduceIte]
          exact Or.inr hturn

end Ehttp.Http
