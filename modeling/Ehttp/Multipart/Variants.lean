import Ehttp.Multipart.Headers
import Ehttp.Multipart.Items

/-!
# Header lines in any order, spelling and number

A part varies when its lines are permuted, their names written in other letters
or lines with other names put among them.  The callbacks see the spelling and
the place of a line.

* `run_leading`, `run_own`: what the lines before `Content-Disposition` do, and
  those from it on;
* `Kept`: what the lines of the varied parts have to say for the plain items to
  come out.
-/

namespace Ehttp

open Lib

/-! ## Parts and their variants -/

/-- The texts behind `Content-Disposition:` and `Content-Type:`, and the data. -/
structure FormPart where
  disposition : Bytes
  contentType : Option Bytes
  data : Bytes
  deriving DecidableEq, Repr

def dispositionName : Bytes := bytes "Content-Disposition"

def typeName : Bytes := bytes "Content-Type"

def FormPart.typeLine (p : FormPart) : List (Bytes × Bytes) :=
  match p.contentType with
  | none => []
  | some text => [(typeName, text)]

/-- The part with its header lines in order. -/
def FormPart.headed (p : FormPart) : HeadedPart where
  headers := (dispositionName, p.disposition) :: p.typeLine
  data := p.data

def lowerName (h : Bytes × Bytes) : Bytes × Bytes := (ssStrTolower h.1, h.2)

/-- A header line that is neither of the two. -/
structure IsExtra (h : Bytes × Bytes) : Prop where
  name : h.1 ≠ [] ∧ h.1.all MultipartParser.fieldChar
  text : CR ∉ h.2 ∧ LF ∉ h.2
  unknown : ssStrTolower h.1 ≠ ssStrTolower dispositionName ∧
    ssStrTolower h.1 ≠ ssStrTolower typeName

/-- `v` is `p` with its header lines permuted, their names in other letters, and
others among them. -/
structure Varies (p : FormPart) (v : HeadedPart) : Prop where
  data : v.data = p.data
  headers : ∃ extras : List (Bytes × Bytes), (∀ h ∈ extras, IsExtra h) ∧
    (v.headers.map lowerName).Perm ((p.headed.headers ++ extras).map lowerName)

structure FormPart.Legal (boundary : Bytes) (p : FormPart) : Prop where
  disposition : CR ∉ p.disposition ∧ LF ∉ p.disposition
  contentType : ∀ text ∈ p.contentType, CR ∉ text ∧ LF ∉ text
  data : ¬ crlf ++ bytes "--" ++ boundary <:+: p.data

/-! ## The lines of a part, by what the callbacks make of them -/

namespace HeadedPart

variable (v : HeadedPart)

/-- The lines before the first one named exactly `Content-Disposition`. -/
def leading : List (Bytes × Bytes) := v.headers.takeWhile (·.1 ≠ dispositionName)

/-- The lines from there on. -/
def own : List (Bytes × Bytes) := v.headers.dropWhile (·.1 ≠ dispositionName)

/-- Those of them before one named exactly `Content-Type`. -/
def described : List (Bytes × Bytes) := v.own.takeWhile (·.1 ≠ typeName)

def typed : List (Bytes × Bytes) := v.own.dropWhile (·.1 ≠ typeName)

theorem leading_append_own : v.leading ++ v.own = v.headers := List.takeWhile_append_dropWhile

theorem described_append_typed : v.described ++ v.typed = v.own :=
  List.takeWhile_append_dropWhile

/-- No other line has the name. -/
def Once : Prop := ∀ h ∈ v.own.tail, h.1 ≠ dispositionName

end HeadedPart

/-- The item a `Content-Disposition` adds. -/
def freshItem : FileItem := FileItem.setParseState {} PARSE_MULTI_DISPOSITION

/-- A value read as a disposition, if it is not refused. -/
def readDisposition (item : FileItem) (h : Bytes × Bytes) : Option FileItem :=
  if (ssParseMultiDisposition (lineValue h) item).1 = .ret 0 then
    some (ssParseMultiDisposition (lineValue h) item).2
  else none

/-- Dispositions read one after the other. -/
def readDispositions (hs : List (Bytes × Bytes)) : Option FileItem :=
  hs.foldlM readDisposition freshItem

/-- The last value, or `c` if there is none. -/
def lastValue (c : Bytes) (hs : List (Bytes × Bytes)) : Bytes :=
  (hs.map lineValue).getLast?.getD c

/-- What the part says it is; `none` if its disposition is refused. -/
def FormPart.described (p : FormPart) : Option FileItem :=
  readDisposition freshItem (dispositionName, p.disposition)

def FormPart.type (p : FormPart) : Bytes := lastValue [] p.typeLine

/-- The lines in front of the first part's `Content-Disposition`. -/
def leadingOf : List (FormPart × HeadedPart) → List (Bytes × Bytes)
  | [] => []
  | (_, v) :: _ => v.leading

/-- Each part has a line named exactly `Content-Disposition`; the lines up to one
named exactly `Content-Type` say again what it says, and the last value from that
line to the next part's `Content-Disposition` is the content type.  Behind a part
whose disposition is refused nothing is asked for. -/
def Kept : List (FormPart × HeadedPart) → Prop
  | [] => True
  | (p, v) :: rest => v.own ≠ [] ∧ (p.described ≠ none →
      readDispositions v.described = p.described ∧
      lastValue [] (v.typed ++ leadingOf rest) = p.type ∧ Kept rest)

theorem lastValue_cons (c : Bytes) (h : Bytes × Bytes) (hs : List (Bytes × Bytes)) :
    lastValue c (h :: hs) = lastValue (lineValue h) hs := by
  simp [lastValue, List.getLast?_cons]

theorem lastValue_append (c : Bytes) (hs ks : List (Bytes × Bytes)) :
    lastValue c (hs ++ ks) = lastValue (lastValue c hs) ks := by
  induction hs generalizing c with
  | nil => rfl
  | cons h hs ih => rw [List.cons_append, lastValue_cons, lastValue_cons, ih]

/-- Reading a disposition sets the name, the flag and the filename. -/
theorem ssParseMultiDisposition_frame (value : Bytes) (item : FileItem) :
    (ssParseMultiDisposition value item).2.parseState = item.parseState ∧
      (ssParseMultiDisposition value item).2.contentType = item.contentType ∧
      (ssParseMultiDisposition value item).2.data = item.data := by
  unfold ssParseMultiDisposition
  split
  · simp only
    split
    · exact ⟨rfl, rfl, rfl⟩
    · split
      · exact ⟨rfl, rfl, rfl⟩
      · split <;> exact ⟨rfl, rfl, rfl⟩
  · exact ⟨rfl, rfl, rfl⟩

theorem readDisposition_eq_some (item item' : FileItem) (h : Bytes × Bytes) :
    readDisposition item h = some item' ↔
      ssParseMultiDisposition (lineValue h) item = (.ret 0, item') := by
  unfold readDisposition
  constructor
  · intro hr
    split at hr
    · rename_i h0
      exact Prod.ext h0 (Option.some.inj hr)
    · exact nomatch hr
  · intro hr
    simp [hr]

theorem foldlM_frame (hs : List (Bytes × Bytes)) (item item' : FileItem)
    (hr : hs.foldlM readDisposition item = some item') :
    item'.parseState = item.parseState ∧ item'.contentType = item.contentType ∧
      item'.data = item.data := by
  induction hs generalizing item with
  | nil =>
    rw [List.foldlM_nil] at hr
    obtain rfl := Option.some.inj hr
    exact ⟨rfl, rfl, rfl⟩
  | cons h hs ih =>
    rw [List.foldlM_cons] at hr
    obtain ⟨next, hnext, hr⟩ := Option.bind_eq_some_iff.mp hr
    obtain ⟨hs₁, hc₁, hd₁⟩ := ssParseMultiDisposition_frame (lineValue h) item
    rw [(readDisposition_eq_some item next h).mp hnext] at hs₁ hc₁ hd₁
    obtain ⟨hs₂, hc₂, hd₂⟩ := ih next hr
    exact ⟨hs₂.trans hs₁, hc₂.trans hc₁, hd₂.trans hd₁⟩

/-! ## The callbacks for header lines -/

theorem headerEvents_cons (h : Bytes × Bytes) (hs : List (Bytes × Bytes)) :
    headerEvents (h :: hs) = [.headerField h.1, .headerValue (lineValue h)] ++ headerEvents hs :=
  rfl

section Callbacks

variable (b : RequestBody) (item : FileItem)

/-- **A line behind the content type**, or of a part that is over: its value is
the content type. -/
theorem run_over (h : Bytes × Bytes) (hname : h.1 ≠ dispositionName)
    (hs : item.parseState = true) :
    runAll multipartCallback [.headerField h.1, .headerValue (lineValue h)] (b.push item) =
      (none, b.push { item with contentType := lineValue h }) := by
  have hcd : h.1 ≠ bytes "Content-Disposition" := hname
  have hstate : (PARSE_MULTI_CONTENT_TYPE ≠ 0) = True := by decide
  have hfield : ssOnMultipartName h.1 (b.push item) = (.ret 0, b.push item) := by
    simp only [ssOnMultipartName, hcd, ↓reduceIte]
    split
    · have hsame : item.setParseState PARSE_MULTI_CONTENT_TYPE = item := by
        simp only [FileItem.setParseState, hstate, decide_true, ← hs]
      simp [RequestBody.push, updateBack_snoc, hsame]
    · rfl
  have hvalue : ssOnMultipartValue (lineValue h) (b.push item) =
      (.ret 0, b.push { item with contentType := lineValue h }) := by
    simp [ssOnMultipartValue, RequestBody.push, updateBack_snoc, FileItem.onValue,
      FileItem.getParseState, hs, PARSE_MULTI_DISPOSITION, PARSE_MULTI_CONTENT_TYPE,
      FileItem.setContentType]
  simp [runAll, multipartCallback, hfield, hvalue]

/-- **A value read as a disposition**: that of `Content-Disposition`, or of a
line between the two. -/
theorem run_described (b₀ : RequestBody) (name value : Bytes)
    (hfield : ssOnMultipartName name b₀ = (.ret 0, b.push item)) (hs : item.parseState = false)
    (es : List MultipartEvent) :
    runAll multipartCallback ([.headerField name, .headerValue value] ++ es) b₀ =
      if (ssParseMultiDisposition value item).1 = .ret 0 then
        runAll multipartCallback es (b.push (ssParseMultiDisposition value item).2)
      else (some (.headerValue value, (ssParseMultiDisposition value item).1),
        b.push (ssParseMultiDisposition value item).2) := by
  have hvalue : ssOnMultipartValue value (b.push item) =
      ((ssParseMultiDisposition value item).1,
        b.push (ssParseMultiDisposition value item).2) := by
    have hstate : item.getParseState = PARSE_MULTI_DISPOSITION := by
      simp [FileItem.getParseState, hs, PARSE_MULTI_DISPOSITION]
    have hframe := (ssParseMultiDisposition_frame value item).1
    rw [hs] at hframe
    have hitem : item.onValue value = ssParseMultiDisposition value item := by
      cases hr : ssParseMultiDisposition value item with
      | mk ret item' =>
        rw [hr] at hframe
        by_cases h0 : ret = .ret 0
        · have hnext : item'.getParseState ≠ PARSE_MULTI_CONTENT_TYPE := by
            simp only at hframe
            simp [FileItem.getParseState, hframe, PARSE_MULTI_CONTENT_TYPE]
          simp [FileItem.onValue, hstate, hr, h0, hnext]
        · simp [FileItem.onValue, hstate, hr, h0]
    simp [ssOnMultipartValue, RequestBody.push, updateBack_snoc, hitem]
  have hcall : multipartCallback (.headerField name) b₀ = (.ret 0, b.push item) := hfield
  have hcall' : multipartCallback (.headerValue value) (b.push item) =
      ((ssParseMultiDisposition value item).1,
        b.push (ssParseMultiDisposition value item).2) := hvalue
  rw [List.cons_append, RunAll.runAll_cons_ok _ _ _ _ (by rw [hcall]), hcall, List.cons_append,
    List.nil_append]
  split
  · rename_i h0
    rw [RunAll.runAll_cons_ok _ _ _ _ (by rw [hcall']; exact h0), hcall']
  · rename_i h0
    rw [RunAll.runAll_cons_fail _ _ _ _ (by rw [hcall']; exact h0), hcall']

theorem onName_other (name : Bytes) (hname : name ≠ dispositionName) (htype : name ≠ typeName) :
    ssOnMultipartName name b = (.ret 0, b) := by
  have hcd : name ≠ bytes "Content-Disposition" := hname
  have hct : name ≠ bytes "Content-Type" := htype
  simp [ssOnMultipartName, hcd, hct]

theorem onName_disposition : ssOnMultipartName dispositionName b = (.ret 0, b.push freshItem) := by
  have hct : bytes "Content-Disposition" ≠ bytes "Content-Type" := by decide
  simp only [ssOnMultipartName, dispositionName, hct, ↓reduceIte]
  rfl

/-- The lines between the two, read one after the other. -/
theorem run_between (hs : List (Bytes × Bytes)) (hnames : ∀ h ∈ hs, h.1 ≠ dispositionName)
    (htypes : ∀ h ∈ hs, h.1 ≠ typeName) (hstate : item.parseState = false)
    (es : List MultipartEvent) :
    (∀ item', hs.foldlM readDisposition item = some item' →
      runAll multipartCallback (headerEvents hs ++ es) (b.push item) =
        runAll multipartCallback es (b.push item')) ∧
    (hs.foldlM readDisposition item = none →
      (runAll multipartCallback (headerEvents hs ++ es) (b.push item)).1 ≠ none) := by
  induction hs generalizing item with
  | nil =>
    constructor
    · intro item' hr
      obtain rfl := Option.some.inj hr
      rfl
    · exact nofun
  | cons h hs ih =>
    have hother := onName_other (b.push item) h.1 (hnames h (List.mem_cons_self ..))
      (htypes h (List.mem_cons_self ..))
    have hrun := run_described b item (b.push item) h.1 (lineValue h) hother hstate
      (headerEvents hs ++ es)
    have hframe := (ssParseMultiDisposition_frame (lineValue h) item).1
    have ih := ih (ssParseMultiDisposition (lineValue h) item).2
      (fun k hk => hnames k (List.mem_cons_of_mem _ hk))
      (fun k hk => htypes k (List.mem_cons_of_mem _ hk)) (hframe.trans hstate)
    rw [headerEvents_cons, List.append_assoc, hrun, List.foldlM_cons]
    by_cases h0 : (ssParseMultiDisposition (lineValue h) item).1 = .ret 0
    · simpa [readDisposition, h0] using ih
    · simp [readDisposition, h0]

/-- **The lines behind the content type.** -/
theorem run_typed (hs : List (Bytes × Bytes)) (hnames : ∀ h ∈ hs, h.1 ≠ dispositionName)
    (hstate : item.parseState = true) :
    runAll multipartCallback (headerEvents hs) (b.push item) =
      (none, b.push { item with contentType := lastValue item.contentType hs }) := by
  induction hs generalizing item with
  | nil => rfl
  | cons h hs ih =>
    have hover := run_over b item h (hnames h (List.mem_cons_self ..)) hstate
    rw [headerEvents_cons, RunAll.runAll_append_ok _ _ _ _ (by rw [hover]), hover,
      ih { item with contentType := lineValue h } (fun k hk => hnames k (List.mem_cons_of_mem _ hk))
        hstate, lastValue_cons]

/-- Without an item the first value is refused, and so is `Content-Type`. -/
theorem run_no_item (hs : List (Bytes × Bytes)) (hne : hs ≠ [])
    (hnames : ∀ h ∈ hs, h.1 ≠ dispositionName) (hb : b.fileItems = [])
    (es : List MultipartEvent) :
    (runAll multipartCallback (headerEvents hs ++ es) b).1 ≠ none := by
  obtain ⟨h, hs, rfl⟩ := List.exists_cons_of_ne_nil hne
  have hcd : h.1 ≠ bytes "Content-Disposition" := hnames h (List.mem_cons_self ..)
  rw [headerEvents_cons, List.append_assoc, List.cons_append]
  by_cases hct : h.1 = bytes "Content-Type"
  · have hne : bytes "Content-Type" ≠ bytes "Content-Disposition" := hct ▸ hcd
    have hfail : (multipartCallback (.headerField h.1) b).1 = .ret 1 := by
      simp [multipartCallback, ssOnMultipartName, hct, hne, hb]
    rw [RunAll.runAll_cons_fail _ _ _ _ (by rw [hfail]; decide)]
    simp
  · have hpass : multipartCallback (.headerField h.1) b = (.ret 0, b) :=
      onName_other b h.1 hcd hct
    have hfail : (multipartCallback (.headerValue (lineValue h)) b).1 = .ret (-1) := by
      simp [multipartCallback, ssOnMultipartValue, hb]
    rw [RunAll.runAll_cons_ok _ _ _ _ (by rw [hpass]), hpass, List.cons_append,
      RunAll.runAll_cons_fail _ _ _ _ (by rw [hfail]; decide)]
    simp

end Callbacks

/-! ## The callbacks for a part -/

namespace HeadedPart

variable (v : HeadedPart)

theorem name_leading : ∀ h ∈ v.leading, h.1 ≠ dispositionName := by
  intro h hh
  simpa using List.mem_takeWhile_imp hh

/-- What is left of a list of lines starts with the name looked for. -/
theorem dropWhile_name (name : Bytes) (hs : List (Bytes × Bytes))
    (hne : hs.dropWhile (·.1 ≠ name) ≠ []) :
    ∃ text back, hs.dropWhile (·.1 ≠ name) = (name, text) :: back := by
  obtain ⟨⟨n, text⟩, back, hcons⟩ := List.exists_cons_of_ne_nil hne
  have hhead := List.head?_dropWhile_not (fun h : Bytes × Bytes => decide (h.1 ≠ name)) hs
  rw [hcons] at hhead
  simp only [List.head?_cons, decide_eq_false_iff_not, ne_eq, Decidable.not_not] at hhead
  exact ⟨text, back, by rw [hcons, hhead]⟩

/-- The item of a part whose lines were accepted, once it is over. -/
def finished (item : FileItem) : FileItem :=
  { item with parseState := true, contentType := lastValue [] v.typed, data := v.data }

/-- The lines read as dispositions, from `Content-Disposition` on. -/
theorem run_dispositions (hne : v.own ≠ []) (honce : v.Once) (b : RequestBody)
    (es : List MultipartEvent) :
    (∀ item, readDispositions v.described = some item →
      runAll multipartCallback (headerEvents v.described ++ es) b =
        runAll multipartCallback es (b.push item)) ∧
    (readDispositions v.described = none →
      (runAll multipartCallback (headerEvents v.described ++ es) b).1 ≠ none) := by
  obtain ⟨text, back, hown⟩ := dropWhile_name dispositionName v.headers hne
  have hnames : dispositionName ≠ typeName := by decide
  have hdescribed : v.described = (dispositionName, text) :: back.takeWhile (·.1 ≠ typeName) := by
    rw [described, own, hown]
    simp [hnames]
  have honce : ∀ h ∈ back, h.1 ≠ dispositionName := by
    intro h hh
    exact honce h (by rw [own, hown]; exact hh)
  have hfresh : freshItem.parseState = false := rfl
  have hrun := run_described b freshItem b dispositionName (lineValue (dispositionName, text))
    (onName_disposition b) hfresh (headerEvents (back.takeWhile (·.1 ≠ typeName)) ++ es)
  have hframe := (ssParseMultiDisposition_frame (lineValue (dispositionName, text)) freshItem).1
  have hrest := run_between b
    (ssParseMultiDisposition (lineValue (dispositionName, text)) freshItem).2
    (back.takeWhile (·.1 ≠ typeName)) (fun h hh => honce h ((List.takeWhile_sublist _).subset hh))
    (fun h hh => by simpa using List.mem_takeWhile_imp hh) (hframe.trans hfresh) es
  rw [hdescribed, readDispositions, List.foldlM_cons, headerEvents_cons, List.append_assoc, hrun]
  by_cases h0 : (ssParseMultiDisposition (lineValue (dispositionName, text)) freshItem).1 = .ret 0
  · simpa [readDisposition, h0] using hrest
  · simp [readDisposition, h0]

theorem name_typed (honce : v.Once) : ∀ h ∈ v.typed, h.1 ≠ dispositionName := by
  intro h hh
  by_cases hnil : v.own = []
  · simp [typed, hnil] at hh
  · obtain ⟨text, back, hown⟩ := dropWhile_name dispositionName v.headers hnil
    have hnames : dispositionName ≠ typeName := by decide
    have htail : v.typed = back.dropWhile (·.1 ≠ typeName) := by
      rw [typed, own, hown]
      simp [hnames]
    rw [htail] at hh
    exact honce h (by rw [own, hown]; exact (List.dropWhile_sublist _).subset hh)

/-- The events from `Content-Disposition` on. -/
def ownEvents (datas : List Bytes) : List MultipartEvent :=
  headerEvents v.own ++ (.headersComplete :: datas.map .partData ++ [.partDataEnd])

/-- The content type, and the data. -/
theorem run_typed_data (honce : v.Once) (b : RequestBody) (item : FileItem)
    (hitem : readDispositions v.described = some item) (datas : List Bytes)
    (hdatas : datas.flatten = v.data) :
    runAll multipartCallback (headerEvents v.typed ++
      (.headersComplete :: datas.map .partData ++ [.partDataEnd])) (b.push item) =
        (none, b.push (v.finished item)) := by
  obtain ⟨-, htype, hdata⟩ := foldlM_frame _ _ _ hitem
  have htyped : ∃ state, runAll multipartCallback (headerEvents v.typed) (b.push item) =
      (none, b.push { item with parseState := state, contentType := lastValue [] v.typed }) := by
    by_cases hnil : v.typed = []
    · have hempty : item.contentType = [] := htype
      refine ⟨item.parseState, ?_⟩
      rw [hnil, lastValue, List.map_nil, List.getLast?_nil, Option.getD_none, ← hempty]
      rfl
    · obtain ⟨text, back, hback⟩ := dropWhile_name typeName v.own hnil
      have htyped : v.typed = (typeName, text) :: back := hback
      have hnames := v.name_typed honce
      rw [htyped] at hnames ⊢
      have hfirst : runAll multipartCallback
          [.headerField typeName, .headerValue (lineValue (typeName, text))] (b.push item) =
            (none, b.push { item with
              parseState := true, contentType := lineValue (typeName, text) }) :=
        run_contentType b item (lineValue (typeName, text))
      refine ⟨true, ?_⟩
      rw [headerEvents_cons, RunAll.runAll_append_ok _ _ _ _ (by rw [hfirst]), hfirst,
        run_typed b _ back (fun h hh => hnames h (List.mem_cons_of_mem _ hh)) rfl, lastValue_cons]
  obtain ⟨state, hrun⟩ := htyped
  rw [RunAll.runAll_append_ok _ _ _ _ (by rw [hrun]), hrun, run_partData]
  have hempty : item.data = [] := hdata
  simp [finished, hdatas, hempty]

/-- **From `Content-Disposition` on.** -/
theorem run_own (hne : v.own ≠ []) (honce : v.Once) (datas : List Bytes)
    (hdatas : datas.flatten = v.data) (b : RequestBody) (fs : List MultipartEvent) :
    (∀ item, readDispositions v.described = some item →
      runAll multipartCallback (v.ownEvents datas ++ fs) b =
        runAll multipartCallback fs (b.push (v.finished item))) ∧
    (readDispositions v.described = none →
      (runAll multipartCallback (v.ownEvents datas ++ fs) b).1 ≠ none) := by
  have hown : v.ownEvents datas ++ fs = headerEvents v.described ++ ((headerEvents v.typed ++
      (.headersComplete :: datas.map .partData ++ [.partDataEnd])) ++ fs) := by
    rw [ownEvents, ← v.described_append_typed, headerEvents, headerEvents, headerEvents,
      List.flatMap_append]
    simp only [List.append_assoc]
  rw [hown]
  obtain ⟨hok, hfail⟩ := v.run_dispositions hne honce b ((headerEvents v.typed ++
    (.headersComplete :: datas.map .partData ++ [.partDataEnd])) ++ fs)
  refine ⟨?_, hfail⟩
  intro item hitem
  have hrun := v.run_typed_data honce b item hitem datas hdatas
  rw [hok item hitem, RunAll.runAll_append_ok _ _ _ _ (by rw [hrun]), hrun]

/-- The lines before `Content-Disposition` come first. -/
theorem run_split (es : List MultipartEvent) (hes : v.Events es) :
    ∃ datas : List Bytes, datas.flatten = v.data ∧ ∀ (b : RequestBody) (fs : List MultipartEvent),
      runAll multipartCallback (es ++ fs) b =
        runAll multipartCallback (headerEvents v.leading ++ (v.ownEvents datas ++ fs)) b := by
  obtain ⟨datas, hdatas, rfl⟩ := hes
  refine ⟨datas, hdatas, ?_⟩
  intro b fs
  have hbegin : multipartCallback .partDataBegin b = (.ret 0, b) := rfl
  rw [List.cons_append, RunAll.runAll_cons_ok _ _ _ _ (by rw [hbegin]), hbegin, ownEvents,
    ← v.leading_append_own, headerEvents, headerEvents, headerEvents, List.flatMap_append]
  simp only [List.append_assoc]

/-- **Behind an item that is over**, its content type is written again. -/
theorem run_leading (b : RequestBody) (item : FileItem) (hs : item.parseState = true)
    (es : List MultipartEvent) :
    runAll multipartCallback (headerEvents v.leading ++ es) (b.push item) =
      runAll multipartCallback es
        (b.push { item with contentType := lastValue item.contentType v.leading }) := by
  have hrun := run_typed b item v.leading v.name_leading hs
  rw [RunAll.runAll_append_ok _ _ _ _ (by rw [hrun]), hrun]

/-- A part without the name gives its data to the item before it. -/
theorem run_hidden (hnil : v.own = []) (datas : List Bytes) (hdatas : datas.flatten = v.data)
    (b : RequestBody) (item : FileItem) (hs : item.parseState = true)
    (fs : List MultipartEvent) :
    runAll multipartCallback (v.ownEvents datas ++ fs) (b.push item) =
      runAll multipartCallback fs (b.push { item with data := item.data ++ v.data }) := by
  have hrun := run_partData b item datas
  rw [ownEvents, hnil, headerEvents, List.flatMap_nil, List.nil_append,
    RunAll.runAll_append_ok _ _ _ _ (by rw [hrun]), hrun, hdatas, ← hs]

end HeadedPart

end Ehttp
