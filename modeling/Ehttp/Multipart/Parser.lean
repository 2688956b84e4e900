import Ehttp.Lib.Callbacks
import Ehttp.Lib.CString
import Ehttp.Lib.Scan

/-!
# `multipart_parser.c`

The state machine of the vendored multipart parser.  A step reports the
callbacks it makes, in order; `none` is `return i`.  The two states that put
the current byte back (`mark = i --`) report the look-behind bytes and take the
byte again as part data in the same step.

* `step_last`: what the `is_last` branches add is a function of the state;
* `execute_stopped`: a parser that stops does not return the length of the body;
* `execute_log`: one that does not stop makes the callbacks of its log, and its
  return tells whether one of them failed.
-/

namespace Ehttp

open Lib

inductive MultipartState
  | sStart | sStartBoundary
  | sHeaderFieldStart | sHeaderField | sHeadersAlmostDone
  | sHeaderValueStart | sHeaderValue | sHeaderValueAlmostDone
  | sPartDataStart | sPartData | sPartDataAlmostBoundary | sPartDataBoundary
  | sPartDataAlmostEnd | sPartDataEnd | sPartDataFinalHyphen | sEnd
  deriving DecidableEq, Repr

/-- The callbacks of `multipart_parser_settings`. -/
inductive MultipartEvent
  | partDataBegin
  | headerField (s : Bytes)
  | headerValue (s : Bytes)
  | headersComplete
  | partData (s : Bytes)
  | partDataEnd
  | bodyEnd
  deriving DecidableEq, Repr

/-- `seg` is `buf + mark` up to the current byte, in the states that use `mark`. -/
structure MultipartParser where
  multipartBoundary : Bytes
  index : Nat := 0
  state : MultipartState := .sStart
  lookbehind : Bytes := []
  seg : Bytes := []
  deriving DecidableEq, Repr

/-- `multipart_parser_init(boundary.c_str(), settings)`. -/
def multipartParserInit (boundary : Bytes) : MultipartParser :=
  { multipartBoundary := cStr boundary }

namespace MultipartParser

open MultipartState MultipartEvent

def stepStartBoundary (p : MultipartParser) (c : UInt8) :
    Option (List MultipartEvent × MultipartParser) :=
  if p.index = p.multipartBoundary.length then
    if c ≠ CR then none else some ([], { p with index := p.index + 1 })
  else if p.index = p.multipartBoundary.length + 1 then
    if c ≠ LF then none
    else some ([partDataBegin], { p with index := 0, state := sHeaderFieldStart })
  else if p.multipartBoundary[p.index]? ≠ some c then none
  else some ([], { p with index := p.index + 1 })

/-- `c` is 45 for `'-'`, 58 for `':'`; the letters are 97 to 122. -/
def stepHeaderField (p : MultipartParser) (c : UInt8) (isLast : Bool) :
    Option (List MultipartEvent × MultipartParser) :=
  if c = CR then some ([], { p with state := sHeadersAlmostDone })
  else if c = 58 then some ([headerField p.seg], { p with state := sHeaderValueStart })
  else if c ≠ 45 ∧ (tolower c < 97 ∨ 122 < tolower c) then none
  else some (if isLast then [headerField (p.seg ++ [c])] else [], { p with seg := p.seg ++ [c] })

def stepHeaderValue (p : MultipartParser) (c : UInt8) (isLast : Bool) :
    List MultipartEvent × MultipartParser :=
  if c = CR then ([headerValue p.seg], { p with state := sHeaderValueAlmostDone })
  else (if isLast then [headerValue (p.seg ++ [c])] else [], { p with seg := p.seg ++ [c] })

def stepPartData (p : MultipartParser) (c : UInt8) (isLast : Bool) :
    List MultipartEvent × MultipartParser :=
  if c = CR then
    ([partData p.seg], { p with state := sPartDataAlmostBoundary, lookbehind := [CR] })
  else (if isLast then [partData (p.seg ++ [c])] else [], { p with seg := p.seg ++ [c] })

/-- `EMIT_DATA_CB(part_data, p->lookbehind, n); mark = i --`, and the byte
again in `s_part_data`. -/
def putBack (p : MultipartParser) (n : Nat) (c : UInt8) (isLast : Bool) :
    List MultipartEvent × MultipartParser :=
  let (es, p') := stepPartData { p with state := sPartData, seg := [] } c isLast
  (partData (p.lookbehind.take n) :: es, p')

/-- One round of the loop in `multipart_parser_execute`. -/
def step (p : MultipartParser) (c : UInt8) (isLast : Bool) :
    Option (List MultipartEvent × MultipartParser) :=
  match p.state with
  | sStart => stepStartBoundary { p with index := 0, state := sStartBoundary } c
  | sStartBoundary => stepStartBoundary p c
  | sHeaderFieldStart => stepHeaderField { p with seg := [], state := sHeaderField } c isLast
  | sHeaderField => stepHeaderField p c isLast
  | sHeadersAlmostDone => if c ≠ LF then none else some ([], { p with state := sPartDataStart })
  | sHeaderValueStart =>
    if c = 32 then some ([], p)
    else some (stepHeaderValue { p with seg := [], state := sHeaderValue } c isLast)
  | sHeaderValue => some (stepHeaderValue p c isLast)
  | sHeaderValueAlmostDone =>
    if c ≠ LF then none else some ([], { p with state := sHeaderFieldStart })
  | sPartDataStart =>
    let (es, p') := stepPartData { p with seg := [], state := sPartData } c isLast
    some (headersComplete :: es, p')
  | sPartData => some (stepPartData p c isLast)
  | sPartDataAlmostBoundary =>
    if c = LF then
      some ([], { p with
        state := sPartDataBoundary, lookbehind := p.lookbehind.take 1 ++ [LF], index := 0 })
    else some (putBack p 1 c isLast)
  | sPartDataBoundary =>
    if p.multipartBoundary[p.index]? ≠ some c then some (putBack p (2 + p.index) c isLast)
    else
      let p := { p with lookbehind := p.lookbehind.take (2 + p.index) ++ [c], index := p.index + 1 }
      if p.index = p.multipartBoundary.length then
        some ([partDataEnd], { p with state := sPartDataAlmostEnd })
      else some ([], p)
  | sPartDataAlmostEnd =>
    if c = 45 then some ([], { p with state := sPartDataFinalHyphen })
    else if c = CR then some ([], { p with state := sPartDataEnd })
    else none
  | sPartDataFinalHyphen => if c = 45 then some ([bodyEnd], { p with state := sEnd }) else none
  | sPartDataEnd =>
    if c = LF then some ([partDataBegin], { p with state := sHeaderFieldStart }) else none
  | sEnd => some ([], p)

end MultipartParser

/-- `i` counts the bytes consumed, which is what the function returns. -/
def multipartParserExecute {σ : Type} (cb : MultipartEvent → σ → Exit × σ) :
    MultipartParser → Bytes → Nat → σ → Exit × σ
  | _, [], i, s => (.ret i, s)
  | p, c :: buf, i, s =>
    match p.step c buf.isEmpty with
    | none => (.ret i, s)
    | some (es, p') =>
      match runAll cb es s with
      | (none, s') => multipartParserExecute cb p' buf (i + 1) s'
      | (some (_, .ret _), s') => (.ret i, s')
      | (some (_, .thrown), s') => (.thrown, s')

/-! ## The log -/

namespace MultipartParser

open MultipartState MultipartEvent

/-- The callbacks of the `is_last` branches. -/
def flush (p : MultipartParser) : List MultipartEvent :=
  match p.state with
  | sHeaderField => [headerField p.seg]
  | sHeaderValue => [headerValue p.seg]
  | sPartData => [partData p.seg]
  | _ => []

theorem stepStartBoundary_flush (p : MultipartParser) (c : UInt8) (hs : p.state = sStartBoundary) :
    p.stepStartBoundary c = (p.stepStartBoundary c).map fun r => (r.1 ++ r.2.flush, r.2) := by
  unfold stepStartBoundary
  split <;> split <;> (try split) <;> simp [flush, hs]

theorem stepHeaderField_last (p : MultipartParser) (c : UInt8) (hs : p.state = sHeaderField) :
    p.stepHeaderField c true =
      (p.stepHeaderField c false).map fun r => (r.1 ++ r.2.flush, r.2) := by
  unfold stepHeaderField
  split
  · simp [flush]
  · split
    · simp [flush]
    · split <;> simp [flush, hs]

theorem stepHeaderValue_last (p : MultipartParser) (c : UInt8) (hs : p.state = sHeaderValue) :
    p.stepHeaderValue c true =
      ((p.stepHeaderValue c false).1 ++ (p.stepHeaderValue c false).2.flush,
        (p.stepHeaderValue c false).2) := by
  unfold stepHeaderValue
  split <;> simp [flush, hs]

theorem stepPartData_last (p : MultipartParser) (c : UInt8) (hs : p.state = sPartData) :
    p.stepPartData c true =
      ((p.stepPartData c false).1 ++ (p.stepPartData c false).2.flush,
        (p.stepPartData c false).2) := by
  unfold stepPartData
  split <;> simp [flush, hs]

/-- **The last byte** adds the callbacks of `flush` and nothing else. -/
theorem step_last (p : MultipartParser) (c : UInt8) :
    p.step c true = (p.step c false).map fun r => (r.1 ++ r.2.flush, r.2) := by
  have hback : ∀ n, p.putBack n c true =
      ((p.putBack n c false).1 ++ (p.putBack n c false).2.flush, (p.putBack n c false).2) := by
    intro n
    simp only [putBack, stepPartData_last { p with state := sPartData, seg := [] } c rfl,
      List.cons_append]
  cases hp : p.state with
  | sStart =>
    simp only [step, hp]
    exact stepStartBoundary_flush _ c rfl
  | sStartBoundary =>
    simp only [step, hp]
    exact stepStartBoundary_flush p c hp
  | sHeaderFieldStart =>
    simp only [step, hp]
    exact stepHeaderField_last _ c rfl
  | sHeaderField =>
    simp only [step, hp]
    exact stepHeaderField_last p c hp
  | sHeadersAlmostDone => simp only [step, hp]; split <;> simp [flush]
  | sHeaderValueStart =>
    simp only [step, hp]
    split
    · simp [flush, hp]
    · simp only [stepHeaderValue_last { p with seg := [], state := sHeaderValue } c rfl,
        Option.map_some]
  | sHeaderValue => simp only [step, hp, stepHeaderValue_last p c hp, Option.map_some]
  | sHeaderValueAlmostDone => simp only [step, hp]; split <;> simp [flush]
  | sPartDataStart =>
    simp only [step, hp, stepPartData_last { p with seg := [], state := sPartData } c rfl,
      Option.map_some, List.cons_append]
  | sPartData => simp only [step, hp, stepPartData_last p c hp, Option.map_some]
  | sPartDataAlmostBoundary =>
    simp only [step, hp]
    split
    · simp [flush]
    · simp only [hback, Option.map_some]
  | sPartDataBoundary =>
    simp only [step, hp]
    split
    · simp only [hback, Option.map_some]
    · split <;> simp [flush]
  | sPartDataAlmostEnd =>
    simp only [step, hp]
    split
    · simp [flush]
    · split <;> simp [flush]
  | sPartDataFinalHyphen => simp only [step, hp]; split <;> simp [flush]
  | sPartDataEnd => simp only [step, hp]; split <;> simp [flush]
  | sEnd => simp [step, hp, flush]

/-- The loop as a scan, with no byte taken as the last. -/
def read (p : MultipartParser) (buf : Bytes) : Option (List MultipartEvent × MultipartParser) :=
  scan (fun p c => p.step c false) p buf

/-- The callbacks for a whole body and the state behind it; `none` if the
parser stops at a byte it does not accept. -/
def log (p : MultipartParser) (buf : Bytes) : Option (List MultipartEvent × MultipartParser) :=
  (p.read buf).map fun r => (r.1 ++ r.2.flush, r.2)

theorem log_one (p : MultipartParser) (c : UInt8) : p.log [c] = p.step c true := by
  rw [step_last, log, read, Scan.scan_cons]
  cases p.step c false <;> simp [scan]

theorem log_cons (p : MultipartParser) (c d : UInt8) (buf : Bytes) :
    p.log (c :: d :: buf) = (p.step c false).bind fun r =>
      (r.2.log (d :: buf)).map fun t => (r.1 ++ t.1, t.2) := by
  rw [log, read, Scan.scan_cons]
  cases p.step c false with
  | none => rfl
  | some r =>
    simp only [Option.bind_some, log, read, Option.map_map]
    cases scan (fun p c => step p c false) r.2 (d :: buf) <;> simp

end MultipartParser

section Execute

variable {σ : Type} (cb : MultipartEvent → σ → Exit × σ)

theorem execute_stop (p : MultipartParser) (c : UInt8) (buf : Bytes) (i : Nat) (s : σ)
    (h : p.step c buf.isEmpty = none) :
    multipartParserExecute cb p (c :: buf) i s = (.ret i, s) := by
  simp only [multipartParserExecute, h]

theorem execute_ok (p p' : MultipartParser) (c : UInt8) (buf : Bytes) (i : Nat) (s s' : σ)
    (es : List MultipartEvent) (h : p.step c buf.isEmpty = some (es, p'))
    (hr : runAll cb es s = (none, s')) :
    multipartParserExecute cb p (c :: buf) i s = multipartParserExecute cb p' buf (i + 1) s' := by
  rw [multipartParserExecute, h]
  simp only [hr]

theorem execute_fail (p p' : MultipartParser) (c : UInt8) (buf : Bytes) (i : Nat) (s s' : σ)
    (es : List MultipartEvent) (e : MultipartEvent) (x : Exit)
    (h : p.step c buf.isEmpty = some (es, p')) (hr : runAll cb es s = (some (e, x), s')) :
    multipartParserExecute cb p (c :: buf) i s =
      (if x = .thrown then .thrown else .ret i, s') := by
  rw [multipartParserExecute, h]
  simp only [hr]
  cases x <;> simp

/-- What every callback keeps, the whole execution keeps. -/
theorem execute_frame (I : σ → Prop) (hstep : ∀ e s, I s → I (cb e s).2) (p : MultipartParser)
    (buf : Bytes) (i : Nat) (s : σ) (hs : I s) : I (multipartParserExecute cb p buf i s).2 := by
  induction buf generalizing p i s with
  | nil => exact hs
  | cons c buf ih =>
    cases hc : p.step c buf.isEmpty with
    | none => rwa [execute_stop cb p c buf i s hc]
    | some r =>
      obtain ⟨es, p'⟩ := r
      have hrun := RunAll.runAll_frame cb I es (fun e _ s h => hstep e s h) s hs
      cases hr : runAll cb es s with
      | mk stop s' =>
        rw [hr] at hrun
        cases stop with
        | none =>
          rw [execute_ok cb p p' c buf i s s' es hc hr]
          exact ih p' (i + 1) s' hrun
        | some stop =>
          rw [execute_fail cb p p' c buf i s s' es stop.1 stop.2 hc hr]
          exact hrun

/-- What the parser returns for a body that ends at `n`, by where its callbacks
stopped. -/
def Consumes (n : Nat) : Option (MultipartEvent × Exit) → Exit → Prop
  | none, x => x = .ret n
  | some (_, .thrown), x => x = .thrown
  | some (_, .ret _), x => ∃ j : Nat, j < n ∧ x = .ret j

theorem consumes_fail (n i : Nat) (e : MultipartEvent) (x : Exit) (h : i < n) :
    Consumes n (some (e, x)) (if x = .thrown then .thrown else .ret i) := by
  cases x with
  | thrown => rfl
  | ret code => exact ⟨i, h, rfl⟩

/-- A parser that stops does not return the length of the body. -/
theorem execute_stopped (p : MultipartParser) (c : UInt8) (buf : Bytes) (i : Nat) (s : σ)
    (h : p.log (c :: buf) = none) :
    (multipartParserExecute cb p (c :: buf) i s).1 ≠ .ret (i + (c :: buf).length : Nat) := by
  have hlt : ∀ n : Nat, Exit.ret i ≠ .ret (i + (n + 1) : Nat) := by
    intro n e
    injection e with e
    omega
  induction buf generalizing p c i s with
  | nil =>
    rw [MultipartParser.log_one] at h
    rw [execute_stop cb p c [] i s h]
    exact hlt 0
  | cons d buf ih =>
    rw [MultipartParser.log_cons] at h
    cases hc : p.step c false with
    | none =>
      rw [execute_stop cb p c (d :: buf) i s hc]
      exact hlt _
    | some r =>
      obtain ⟨es, p'⟩ := r
      simp only [hc, Option.bind_some, Option.map_eq_none_iff] at h
      cases hr : runAll cb es s with
      | mk e s' =>
        cases e with
        | none =>
          have hne := ih p' d (i + 1) s' h (by intro n e; injection e with e; omega)
          rw [execute_ok cb p p' c (d :: buf) i s s' es hc hr]
          rw [List.length_cons, ← Nat.add_assoc, Nat.add_right_comm]
          exact hne
        | some r =>
          obtain ⟨e, x⟩ := r
          rw [execute_fail cb p p' c (d :: buf) i s s' es e x hc hr]
          cases x with
          | thrown => simp
          | ret code => exact hlt _

/-- **Execution and log.**  When the parser does not stop, its return tells
where the callbacks of the log stopped, and the user data is what they made
of it. -/
theorem execute_log (p : MultipartParser) (c : UInt8) (buf : Bytes) (i : Nat) (s : σ)
    (es : List MultipartEvent) (p' : MultipartParser) (h : p.log (c :: buf) = some (es, p')) :
    (multipartParserExecute cb p (c :: buf) i s).2 = (runAll cb es s).2 ∧
      Consumes (i + (c :: buf).length) (runAll cb es s).1
        (multipartParserExecute cb p (c :: buf) i s).1 := by
  induction buf generalizing p c i s es with
  | nil =>
    rw [MultipartParser.log_one] at h
    cases hr : runAll cb es s with
    | mk e s' =>
      cases e with
      | none =>
        rw [execute_ok cb p p' c [] i s s' es h hr]
        exact ⟨rfl, rfl⟩
      | some r =>
        obtain ⟨e, x⟩ := r
        rw [execute_fail cb p p' c [] i s s' es e x h hr]
        exact ⟨rfl, consumes_fail _ _ e x (by simp)⟩
  | cons d buf ih =>
    rw [MultipartParser.log_cons] at h
    cases hc : p.step c false with
    | none => simp [hc] at h
    | some r =>
      obtain ⟨fs, q⟩ := r
      cases hl : q.log (d :: buf) with
      | none => simp [hc, hl] at h
      | some t =>
        obtain ⟨gs, q'⟩ := t
        simp only [hc, hl, Option.bind_some, Option.map_some, Option.some.injEq,
          Prod.mk.injEq] at h
        obtain ⟨rfl, rfl⟩ := h
        have happ := RunAll.runAll_append cb fs gs s
        cases hr : runAll cb fs s with
        | mk e s' =>
          rw [hr] at happ
          cases e with
          | none =>
            simp only [↓reduceIte] at happ
            rw [happ, execute_ok cb p q c (d :: buf) i s s' fs hc hr, List.length_cons,
              ← Nat.add_assoc, Nat.add_right_comm]
            exact ih q d (i + 1) s' gs hl
          | some r =>
            obtain ⟨e, x⟩ := r
            simp only [reduceCtorEq, ↓reduceIte] at happ
            rw [happ, execute_fail cb p q c (d :: buf) i s s' fs e x hc hr]
            exact ⟨rfl, consumes_fail _ _ e x (by simp)⟩

end Execute

end Ehttp
