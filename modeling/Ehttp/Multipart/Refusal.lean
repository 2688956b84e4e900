import Ehttp.Multipart.Callbacks

/-!
# Which logs the callbacks refuse

Whether a callback fails depends on the parse state of the last item alone.

* `parseStateCallback`: the callbacks on that state;
* `refused_iff`: they fail where the callbacks on the body do;
* `log_ends`: the parser calls `on_body_end` last, when it reaches its last state;
* `params_bodyEnd`: that callback, and no other, enters the items among the params.
-/

namespace Ehttp

open Lib

/-- The parse state of the last item, if there is an item. -/
def lastParseState (b : RequestBody) : Option Bool := b.fileItems.getLast?.map (·.parseState)

/-- A callback, as far as its return goes. -/
def parseStateCallback (e : MultipartEvent) (state : Option Bool) : Exit × Option Bool :=
  match e with
  | .headerField s =>
    if s = bytes "Content-Disposition" then (.ret 0, some false)
    else if s = bytes "Content-Type" then
      if state = none then (.ret 1, none) else (.ret 0, some true)
    else (.ret 0, state)
  | .headerValue s =>
    match state with
    | none => (.ret (-1), none)
    | some true => (.ret 0, some true)
    | some false => ((ssParseMultiDisposition s {}).1, some false)
  | .partData s =>
    if s = [] then (.ret 0, state) else if state = none then (.ret 1, none) else (.ret 0, state)
  | .partDataEnd => if state = none then (.ret 1, none) else (.ret 0, some true)
  | .partDataBegin | .headersComplete | .bodyEnd => (.ret 0, state)

/-- The log makes a callback fail with a code: a value, data or the end of a
part comes before any `Content-Disposition`, or a disposition is malformed. -/
def Refused (log : List MultipartEvent) : Prop :=
  ∃ e code, (runAll parseStateCallback log none).1 = some (e, .ret code)

section Simulation

/-- The return does not depend on the item, and the parse state stays. -/
theorem disposition_item (s : Bytes) (item item' : FileItem) :
    (ssParseMultiDisposition s item).1 = (ssParseMultiDisposition s item').1 ∧
      (ssParseMultiDisposition s item).2.parseState = item.parseState := by
  unfold ssParseMultiDisposition
  rcases ssSplitStr s 59 with _ | ⟨first, _ | ⟨token, posTokens⟩⟩
  · exact ⟨rfl, rfl⟩
  · exact ⟨rfl, rfl⟩
  · by_cases h : (ssParseDispositionValue token).1 = .ret 0
    · cases posTokens with
      | nil => simp [h, FileItem.setName]
      | cons token' rest =>
        by_cases h' : (ssParseDispositionValue token').1 = .ret 0
        · simp [h, h', FileItem.setName, FileItem.setIsFile, FileItem.setFilename]
        · simp [h, h', FileItem.setName, FileItem.setIsFile]
    · simp [h]

theorem onValue_true (s : Bytes) (item : FileItem) (h : item.parseState = true) :
    item.onValue s = (.ret 0, item.setContentType s) := by
  simp [FileItem.onValue, FileItem.getParseState, h, PARSE_MULTI_DISPOSITION,
    PARSE_MULTI_CONTENT_TYPE]

theorem onValue_false (s : Bytes) (item : FileItem) (h : item.parseState = false) :
    item.onValue s = ssParseMultiDisposition s item := by
  have hstate := (disposition_item s item item).2
  rw [h] at hstate
  simp only [FileItem.onValue, FileItem.getParseState, h, PARSE_MULTI_DISPOSITION,
    PARSE_MULTI_CONTENT_TYPE]
  cases hx : ssParseMultiDisposition s item with
  | mk x item' =>
    rw [hx] at hstate
    simp only at hstate
    by_cases h0 : x = .ret 0
    · simp [h0, hstate]
    · simp [h0]

theorem lastParseState_updateBack (b : RequestBody) (f : FileItem → FileItem) (item : FileItem)
    (h : b.fileItems.getLast? = some item) :
    lastParseState { b with fileItems := updateBack f b.fileItems } =
      some (f item).parseState := by
  obtain ⟨front, hfront⟩ := List.getLast?_eq_some_iff.mp h
  simp [lastParseState, hfront, updateBack_snoc]

theorem lastParseState_none (b : RequestBody) : lastParseState b = none ↔ b.fileItems = [] := by
  simp [lastParseState]

/-- **The callbacks refine** those on the parse state. -/
theorem parseStateCallback_eq (e : MultipartEvent) (b : RequestBody) :
    parseStateCallback e (lastParseState b) =
      ((multipartCallback e b).1, lastParseState (multipartCallback e b).2) := by
  cases e with
  | partDataBegin => rfl
  | headersComplete => rfl
  | bodyEnd => rfl
  | headerField s =>
    have hcd : bytes "Content-Disposition" ≠ bytes "Content-Type" := by decide
    have hstate : PARSE_MULTI_CONTENT_TYPE ≠ 0 := by decide
    simp only [parseStateCallback, multipartCallback, ssOnMultipartName, lastParseState_none]
    by_cases h : s = bytes "Content-Disposition"
    · simp [h, hcd, lastParseState, FileItem.setParseState, PARSE_MULTI_DISPOSITION]
    · by_cases h' : s = bytes "Content-Type"
      · rcases List.eq_nil_or_concat b.fileItems with hnil | ⟨front, item, hsnoc⟩
        · simp [hcd.symm, h', hnil, lastParseState]
        · simp [hcd.symm, h', hsnoc, lastParseState, updateBack_snoc, FileItem.setParseState, hstate]
      · simp [h, h']
  | headerValue s =>
    simp only [multipartCallback, ssOnMultipartValue]
    cases hl : b.fileItems.getLast? with
    | none => simp [parseStateCallback, lastParseState, hl]
    | some item =>
      have hlast := lastParseState_updateBack b (fun item => (item.onValue s).2) item hl
      have hstate : lastParseState b = some item.parseState := by simp [lastParseState, hl]
      simp only [hlast, hstate]
      cases hp : item.parseState with
      | true => simp [parseStateCallback, onValue_true s item hp, FileItem.setContentType, hp]
      | false =>
        obtain ⟨hret, hkeep⟩ := disposition_item s item {}
        simp [parseStateCallback, onValue_false s item hp, hret, hkeep, hp]
  | partData s =>
    simp only [parseStateCallback, multipartCallback, ssOnMultipartData, lastParseState_none]
    by_cases h : s = []
    · simp [h]
    · rcases List.eq_nil_or_concat b.fileItems with hnil | ⟨front, item, hsnoc⟩
      · simp [h, hnil, lastParseState]
      · simp [h, hsnoc, lastParseState, updateBack_snoc, FileItem.appendData]
  | partDataEnd =>
    have hstate : PARSE_MULTI_OVER ≠ 0 := by decide
    simp only [parseStateCallback, multipartCallback, ssOnMultipartDataOver, lastParseState_none]
    rcases List.eq_nil_or_concat b.fileItems with hnil | ⟨front, item, hsnoc⟩
    · simp [hnil, lastParseState]
    · simp [hsnoc, lastParseState, updateBack_snoc, FileItem.setParseState, hstate]

end Simulation

/-- A log is refused exactly if a callback on the body fails with a code. -/
theorem refused_iff (log : List MultipartEvent) (b : RequestBody) (hb : b.fileItems = []) :
    Refused log ↔ ∃ e code, (runAll multipartCallback log b).1 = some (e, .ret code) := by
  have hsim := RunAll.runAll_simulation multipartCallback parseStateCallback lastParseState log b
    parseStateCallback_eq
  rw [(lastParseState_none b).mpr hb] at hsim
  rw [Refused, hsim]

/-! ## The params -/

/-- Only the end of the body writes the params. -/
theorem reqParams_callback (e : MultipartEvent) (he : e ≠ .bodyEnd) (b : RequestBody) :
    (multipartCallback e b).2.reqParams = b.reqParams := by
  cases e with
  | partDataBegin => rfl
  | headersComplete => rfl
  | bodyEnd => exact absurd rfl he
  | headerField s =>
    simp only [multipartCallback, ssOnMultipartName, apply_ite Prod.snd,
      apply_ite RequestBody.reqParams, ite_self]
  | headerValue s =>
    simp only [multipartCallback, ssOnMultipartValue]
    split <;> rfl
  | partData s =>
    simp only [multipartCallback, ssOnMultipartData]
    split
    · rfl
    · split <;> rfl
  | partDataEnd =>
    simp only [multipartCallback, ssOnMultipartDataOver]
    split <;> rfl

theorem reqParams_run (es : List MultipartEvent) (he : .bodyEnd ∉ es) (b : RequestBody)
    (hok : (runAll multipartCallback es b).1 = none) :
    (runAll multipartCallback es b).2.reqParams = b.reqParams := by
  apply RunAll.runAll_invariant multipartCallback (fun t => t.reqParams = b.reqParams) es _ b rfl hok
  intro e hmem t ht _
  rw [reqParams_callback e (by rintro rfl; exact he hmem), ht]

theorem addParamPairs (items : List FileItem) (r : RequestParam) :
    (items.foldl (fun p item => p.addParamPair item.name item.data) r).params =
      r.params ++ items.map fun item => (item.name, item.data) := by
  induction items generalizing r with
  | nil => simp
  | cons item items ih =>
    rw [List.foldl_cons, ih]
    simp [RequestParam.addParamPair, StdMultimap.insert]

/-- **Params** behind the end of the body: those of the items. -/
theorem params_bodyEnd (es : List MultipartEvent) (he : .bodyEnd ∉ es) (b : RequestBody)
    (hok : (runAll multipartCallback (es ++ [.bodyEnd]) b).1 = none) :
    (runAll multipartCallback (es ++ [.bodyEnd]) b).2.reqParams.params =
      b.reqParams.params ++ (runAll multipartCallback (es ++ [.bodyEnd]) b).2.fileItems.map
        fun item => (item.name, item.data) := by
  obtain ⟨-, hafter⟩ := RunAll.runAll_middle multipartCallback es [] .bodyEnd b hok
  have hes := RunAll.runAll_append_none multipartCallback es [.bodyEnd] b hok
  rw [hafter]
  show (RequestBody.parseMultiParams _).2.reqParams.params = _
  rw [RequestBody.parseMultiParams]
  simp only [addParamPairs, reqParams_run es he b hes]
  rfl

namespace MultipartParser

open MultipartState MultipartEvent

/-- A step reports the end of the body when it reaches the last state. -/
theorem step_end (p p' : MultipartParser) (c : UInt8) (es : List MultipartEvent)
    (h : p.step c false = some (es, p')) :
    (p.state = sEnd → es = [] ∧ p' = p) ∧
      (p.state ≠ sEnd → p'.state ≠ sEnd → bodyEnd ∉ es) ∧
      (p.state ≠ sEnd → p'.state = sEnd → es = [bodyEnd]) := by
  cases hs : p.state <;> simp only [step, hs] at h <;>
    grind [stepStartBoundary, stepHeaderField, stepHeaderValue, stepPartData, putBack]

/-- What the log says of the end of the body. -/
def Ends (p : MultipartParser) (es : List MultipartEvent) : Prop :=
  if p.state = sEnd then ∃ front, es = front ++ [bodyEnd] ∧ bodyEnd ∉ front else bodyEnd ∉ es

/-- **The end of the body** is reported once, as the last callback, by parsers
that reach their last state. -/
theorem log_ends (boundary : Bytes) (l : Bytes) (es : List MultipartEvent) (p : MultipartParser)
    (h : (multipartParserInit boundary).log l = some (es, p)) : p.Ends es := by
  obtain ⟨⟨fs, q⟩, hread, heq⟩ := Option.map_eq_some_iff.mp h
  simp only [Prod.mk.injEq] at heq
  obtain ⟨rfl, rfl⟩ := heq
  have hrun : q.Ends fs := by
    refine Scan.scan_invariant (fun (p : MultipartParser) c => p.step c false) Ends ?_
      (multipartParserInit boundary) [] l
      (by simp [Ends, multipartParserInit]) fs q hread
    intro p es c gs p' hp hstep
    obtain ⟨hend, hno, hreach⟩ := step_end p p' c gs hstep
    unfold Ends at hp ⊢
    by_cases hs : p.state = sEnd
    · obtain ⟨rfl, rfl⟩ := hend hs
      simpa using hp
    · rw [if_neg hs] at hp
      split
      · rename_i hs'
        exact ⟨es, by rw [hreach hs hs'], hp⟩
      · rename_i hs'
        simp [hp, hno hs hs']
  unfold Ends at hrun ⊢
  split
  · rename_i hs
    rw [if_pos hs] at hrun
    simpa [flush, hs] using hrun
  · rename_i hs
    rw [if_neg hs] at hrun
    have hflush : bodyEnd ∉ q.flush := by
      unfold flush
      split <;> simp
    simp [hrun, hflush]

end MultipartParser

end Ehttp
