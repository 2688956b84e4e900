import Mathlib.Data.List.Basic
import Ehttp.Lib.HttpResponse
import Ehttp.Parse.RoundTrip

/-!
# The Content-Type a body is decoded by

`on_message_complete` compares the header value with the form type, searches it
for the multipart type and cuts it at `';'` and `'='`.

* `multipartBoundary_text`: the values a delimiter is found in;
* `decoder_follows_iff`: the Content-Type values the decoder follows;
* `feed_decodes`: what this means for a parsed message.
-/

namespace Ehttp

open Lib

/-! ## Content-Type values -/

/-- A tab, or a character from the space on that is not DEL. -/
def isQuotable (c : UInt8) : Bool := c = 9 || (32 ≤ c && c ≠ 127)

/-- The flag of a quoted character says that a backslash stands before it. -/
inductive ParamValue
  | token (value : Bytes) (legal : isToken value = true)
  | quoted (chars : List (Bool × UInt8))
      (legal : ∀ x ∈ chars, isQuotable x.2 = true ∧ (x.1 = false → x.2 ≠ 34 ∧ x.2 ≠ 92))

/-- What the value stands for. -/
def ParamValue.value : ParamValue → Bytes
  | token value _ => value
  | quoted chars _ => chars.map (·.2)

def ParamValue.text : ParamValue → Bytes
  | token value _ => value
  | quoted chars _ => Ehttp.quoted (chars.flatMap fun x => if x.1 then [92, x.2] else [x.2])

/-- `spaces` stand between the `';'` and the name. -/
structure TypeParam where
  spaces : Nat
  name : Bytes
  value : ParamValue
  legal : isToken name = true

def TypeParam.text (p : TypeParam) : Bytes :=
  59 :: (List.replicate p.spaces 32 ++ p.name ++ 61 :: p.value.text)

structure ContentType where
  type : Bytes
  subtype : Bytes
  params : List TypeParam
  legal : isToken type = true ∧ isToken subtype = true

namespace ContentType

/-- 47 is `'/'`. -/
def mediaType (ct : ContentType) : Bytes := ct.type ++ 47 :: ct.subtype

def text (ct : ContentType) : Bytes := ct.mediaType ++ ct.params.flatMap TypeParam.text

def IsForm (ct : ContentType) : Prop :=
  ssStrTolower ct.mediaType = bytes "application/x-www-form-urlencoded"

def IsMultipart (ct : ContentType) : Prop :=
  ssStrTolower ct.mediaType = bytes "multipart/form-data"

/-- The value of the first parameter `boundary`. -/
def boundary (ct : ContentType) : Option Bytes :=
  (ct.params.find? fun p => ssStrTolower p.name = bytes "boundary").map (·.value.value)

end ContentType

/-! ## The characters of a value -/

theorem isQuotable_tchar {c : UInt8} (h : isTchar c = true) : isQuotable c = true := by
  have hctl : isTchar 127 = false := by decide
  have hne : c ≠ 127 := by
    rintro rfl
    rw [hctl] at h
    exact absurd h (by decide)
  have hle : 32 ≤ c := by
    simp only [isTchar, isDigit, Bool.or_eq_true, Bool.and_eq_true, decide_eq_true_eq,
      List.contains_eq_mem, List.mem_cons, List.not_mem_nil, or_false, UInt8.le_iff_toNat_le] at h ⊢
    rcases h with ((h | h) | h) | h
    · exact Nat.le_trans (by decide) h.1
    · exact Nat.le_trans (by decide) h.1
    · exact Nat.le_trans (by decide) h.1
    · rcases h with h | h | h | h | h | h | h | h | h | h | h | h | h | h | h <;> rw [h] <;> decide
  simp [isQuotable, hne, hle]

namespace ParamValue

theorem isQuotable_text (v : ParamValue) : ∀ c ∈ v.text, isQuotable c = true := by
  cases v with
  | token value legal =>
    intro c hc
    simp only [isToken, Bool.and_eq_true, List.all_eq_true] at legal
    exact isQuotable_tchar (legal.2 c hc)
  | quoted chars legal =>
    intro c hc
    simp only [text, Ehttp.quoted, List.mem_cons, List.mem_append, List.mem_flatMap,
      List.not_mem_nil, or_false] at hc
    rcases hc with rfl | ⟨x, hx, hc⟩ | rfl
    · decide
    · have hlegal := (legal x hx).1
      split at hc
      · rcases List.mem_cons.mp hc with rfl | hc
        · decide
        · rw [List.mem_singleton.mp hc]
          exact hlegal
      · rw [List.mem_singleton.mp hc]
        exact hlegal
    · decide

theorem isQuotable_value (v : ParamValue) : ∀ c ∈ v.value, isQuotable c = true := by
  cases v with
  | token value legal => exact (token value legal).isQuotable_text
  | quoted chars legal =>
    intro c hc
    obtain ⟨x, hx, rfl⟩ := List.mem_map.mp hc
    exact (legal x hx).1

/-- A value ends in a token character or in a quote. -/
theorem text_snoc (v : ParamValue) : ∃ front c, v.text = front ++ [c] ∧ c ≠ 59 ∧ c ≠ 61 := by
  cases v with
  | token value legal =>
    rcases List.eq_nil_or_concat value with rfl | ⟨front, c, rfl⟩
    · exact absurd rfl (token_ne_nil legal)
    · refine ⟨front, c, List.concat_eq_append, ?_, ?_⟩
      · rintro rfl
        have h59 : isTchar 59 = false := by decide
        exact not_mem_token legal h59 (by simp)
      · rintro rfl
        have h61 : isTchar 61 = false := by decide
        exact not_mem_token legal h61 (by simp)
  | quoted chars legal =>
    refine ⟨34 :: chars.flatMap fun x => if x.1 then [92, x.2] else [x.2], 34, rfl, ?_, ?_⟩
    · decide
    · decide

theorem text_ne_nil (v : ParamValue) : v.text ≠ [] := by
  obtain ⟨front, c, h, -⟩ := v.text_snoc
  simp [h]

/-- The quotes are part of the text and not of the value. -/
theorem text_eq_value (v : ParamValue) :
    v.text = v.value ↔ ∃ value legal, v = token value legal := by
  cases v with
  | token value legal => exact ⟨fun _ => ⟨value, legal, rfl⟩, fun _ => rfl⟩
  | quoted chars legal =>
    constructor
    · intro h
      have hle : ∀ chars : List (Bool × UInt8), (chars.map (·.2)).length ≤
          (chars.flatMap fun x => if x.1 then [92, x.2] else [x.2]).length := by
        intro chars
        induction chars with
        | nil => exact Nat.le_refl 0
        | cons x chars ih =>
          rw [List.map_cons, List.flatMap_cons, List.length_cons, List.length_append]
          split
          · simp only [List.length_cons]
            omega
          · simp only [List.length_cons]
            omega
      have hlen := congrArg List.length h
      simp only [text, value, Ehttp.quoted, List.length_cons, List.length_append] at hlen
      have hchars := hle chars
      omega
    · rintro ⟨value, legal, h⟩
      cases h

end ParamValue

/-! ## The delimiter -/

/-- Both splits give two pieces. -/
theorem multipartBoundary_eq_some (ct boundary : Bytes) :
    multipartBoundary ct = some boundary ↔
      ∃ a t key w, ssSplitStr ct 59 = [a, t] ∧ ssSplitStr t 61 = [key, w] ∧
        bytes "--" ++ w = boundary := by
  unfold multipartBoundary
  constructor
  · intro h
    split at h
    · rename_i a t ht
      split at h
      · rename_i key w hw
        exact ⟨a, t, key, w, ht, hw, Option.some.inj h⟩
      · exact nomatch h
    · exact nomatch h
  · rintro ⟨a, t, key, w, ht, hw, rfl⟩
    simp only [ht, hw]

namespace ContentType

variable (ct : ContentType)

theorem not_mem_mediaType {c : UInt8} (hc : isTchar c = false) (hne : c ≠ 47) :
    c ∉ ct.mediaType := by
  simp only [mediaType, List.mem_append, List.mem_cons, not_or]
  exact ⟨not_mem_token ct.legal.1 hc, hne, not_mem_token ct.legal.2 hc⟩

/-- The text of a value with parameters does not end in a `';'`. -/
theorem params_snoc (ps : List TypeParam) (hne : ps ≠ []) :
    ∃ front c, ps.flatMap TypeParam.text = front ++ [c] ∧ c ≠ 59 := by
  rcases List.eq_nil_or_concat ps with rfl | ⟨qs, p, rfl⟩
  · exact absurd rfl hne
  · obtain ⟨front, c, hv, hc, -⟩ := p.value.text_snoc
    refine ⟨qs.flatMap TypeParam.text ++
      59 :: (List.replicate p.spaces 32 ++ p.name ++ 61 :: front), c, ?_, hc⟩
    simp [List.concat_eq_append, TypeParam.text, hv]

theorem field_not_mem (p : TypeParam) (c : UInt8) (hc : isTchar c = false) (hne : c ≠ 32) :
    c ∉ List.replicate p.spaces 32 ++ p.name := by
  simp only [List.mem_append, List.mem_replicate, not_or, not_and]
  exact ⟨fun _ => hne, not_mem_token p.legal hc⟩

/-- **The delimiter found**: there is one parameter, and no `';'` or `'='` in
the text of its value. -/
theorem multipartBoundary_text (boundary : Bytes) :
    multipartBoundary ct.text = some boundary ↔
      ∃ p, ct.params = [p] ∧ 59 ∉ p.value.text ∧ 61 ∉ p.value.text ∧
        boundary = bytes "--" ++ p.value.text := by
  have hmedia : 59 ∉ ct.mediaType := ct.not_mem_mediaType (by decide) (by decide)
  rw [multipartBoundary_eq_some]
  constructor
  · rintro ⟨a, t, key, w, ht, hw, rfl⟩
    obtain ⟨ha, ht59, htext⟩ := (ssSplitStr_pair _ 59 _ _).mp ht
    obtain ⟨hkey, hw61, hfield⟩ := (ssSplitStr_pair _ 61 _ _).mp hw
    cases hps : ct.params with
    | nil =>
      have hnone : ct.text = ct.mediaType := by simp [text, hps]
      rw [hnone] at htext
      rcases htext with ⟨h, -⟩ | h
      · exact absurd (h ▸ by simp) hmedia
      · exact absurd (h ▸ by simp) hmedia
    | cons p ps =>
      have hcut : ct.text = ct.mediaType ++ 59 ::
          (List.replicate p.spaces 32 ++ p.name ++ 61 :: p.value.text ++
            ps.flatMap TypeParam.text) := by
        simp [text, hps, TypeParam.text]
      obtain ⟨front, c, hlast, hc⟩ := params_snoc ct.params (by simp [hps])
      rcases htext with ⟨h, -⟩ | h
      · -- the second piece is the parameters, so there is one
        obtain ⟨-, hrest⟩ := StringStream.token_unique 59 _ _ _ _ hmedia ha (hcut.symm.trans h)
        have hnil : ps = [] := by
          cases ps with
          | nil => rfl
          | cons q qs => exact absurd (hrest ▸ by simp [TypeParam.text]) ht59
        subst hnil
        rw [List.flatMap_nil, List.append_nil] at hrest
        have hvalue : 59 ∉ p.value.text := by
          intro hm
          exact ht59 (hrest ▸ by simp [hm])
        have hname := field_not_mem p 61 (by decide) (by decide)
        rcases hfield with ⟨hfield, -⟩ | hfield
        · obtain ⟨-, hw'⟩ := StringStream.token_unique 61 _ _ _ _ hname hkey (hrest.trans hfield)
          exact ⟨p, rfl, hvalue, hw' ▸ hw61, by rw [hw']⟩
        · obtain ⟨-, hw'⟩ := StringStream.token_unique 61 _ _ _ _ hname hkey (hrest.trans hfield)
          obtain ⟨front, c, hv, -, hc⟩ := p.value.text_snoc
          rw [hv] at hw'
          exact absurd (List.append_inj' hw' rfl).2 (by simpa using hc)
      · have hend : ct.mediaType ++ front ++ [c] = (a ++ 59 :: t) ++ [59] := by
          rw [List.append_assoc, ← hlast]
          simpa [text] using h
        exact absurd (List.append_inj' hend rfl).2 (by simpa using hc)
  · rintro ⟨p, hps, h59, h61, rfl⟩
    refine ⟨ct.mediaType, List.replicate p.spaces 32 ++ p.name ++ 61 :: p.value.text,
      List.replicate p.spaces 32 ++ p.name, p.value.text, ?_, ?_, rfl⟩
    · have hcut : ct.text = ct.mediaType ++ 59 ::
          (List.replicate p.spaces 32 ++ p.name ++ 61 :: p.value.text) := by
        simp [text, hps, TypeParam.text]
      rw [hcut]
      refine ssSplitStr_two _ _ 59 hmedia ?_ (by simp)
      have hname := field_not_mem p 59 (by decide) (by decide)
      rw [List.mem_append, List.mem_cons, not_or, not_or]
      exact ⟨hname, by decide, h59⟩
    · exact ssSplitStr_two _ _ 61 (field_not_mem p 61 (by decide) (by decide)) h61
        p.value.text_ne_nil

end ContentType

/-! ## A body taken apart at a delimiter -/

/-- A parser in the first delimiter accepts the rest of it and nothing else. -/
theorem prefix_of_read (done rest l : Bytes) (hcr : CR ∉ l) (p : MultipartParser)
    (hs : p.state = .sStartBoundary) (hb : p.multipartBoundary = done ++ rest)
    (hi : p.index = done.length) (h : p.read l ≠ none) : l <+: rest := by
  induction l generalizing done rest p with
  | nil => exact List.nil_prefix
  | cons c l ih =>
    rw [List.mem_cons, not_or] at hcr
    cases rest with
    | nil =>
      have hstep : p.step c false = none := by
        have hc : c ≠ CR := fun e => hcr.1 e.symm
        have hlen : p.index = p.multipartBoundary.length := by simp [hi, hb]
        simp [MultipartParser.step, hs, MultipartParser.stepStartBoundary, hlen, hc]
      simp [MultipartParser.read, Scan.scan_cons, hstep] at h
    | cons d rest =>
      have hget : p.multipartBoundary[p.index]? = some d := by simp [hb, hi]
      have hlt : p.index < p.multipartBoundary.length := (List.getElem?_eq_some_iff.mp hget).1
      have h1 : p.index ≠ p.multipartBoundary.length := by omega
      have h2 : p.index ≠ p.multipartBoundary.length + 1 := by omega
      by_cases heq : d = c
      · subst heq
        have hstep : p.step d false = some ([], { p with index := p.index + 1 }) := by
          simp [MultipartParser.step, hs, MultipartParser.stepStartBoundary, h1, h2, hget]
        rw [MultipartParser.read_cons p _ d l [] hstep] at h
        refine (List.prefix_cons_inj d).mpr (ih (done ++ [d]) rest hcr.2
          { p with index := p.index + 1 } hs (by simp [hb]) (by simp [hi]) ?_)
        intro hnone
        simp [hnone] at h
      · have hstep : p.step c false = none := by
          simp [MultipartParser.step, hs, MultipartParser.stepStartBoundary, h1, h2, hget, heq]
        simp [MultipartParser.read, Scan.scan_cons, hstep] at h

/-- A body that is accepted and no longer than a line starts the delimiter. -/
theorem prefix_of_accepted (boundary body : Bytes) (hd : IsDelimiter boundary) (hne : body ≠ [])
    (hcr : CR ∉ body) (h : (parsePartsWith boundary { rawString := body }).1 = .ret 0) :
    body <+: boundary := by
  have hinit := multipartParserInit_eq boundary hd.2.1
  have hread : (multipartParserInit boundary).read body ≠ none := by
    intro hread
    exact parsePartsWith_stopped boundary { rawString := body } hne
      (by simp only [MultipartParser.log, hread, Option.map_none]) h
  rw [hinit] at hread
  obtain ⟨c, l, rfl⟩ := List.exists_cons_of_ne_nil hne
  have hstart : MultipartParser.read { multipartBoundary := boundary } (c :: l) =
      MultipartParser.read { multipartBoundary := boundary, state := .sStartBoundary } (c :: l) :=
    MultipartParser.read_congr _ _ c l rfl
  rw [hstart] at hread
  exact prefix_of_read [] boundary (c :: l) hcr _ rfl rfl rfl hread

/-- The delimiter alone is accepted as a body. -/
theorem accepts_delimiter (boundary : Bytes) (hd : IsDelimiter boundary) :
    parsePartsWith boundary { rawString := boundary } = (.ret 0, { rawString := boundary }) := by
  obtain ⟨p, hread, hs, -⟩ := MultipartParser.read_start boundary hd.1
    (multipartParserInit boundary) (by rw [multipartParserInit_eq boundary hd.2.1]) rfl
  have hlog : (multipartParserInit boundary).log boundary = some ([], p) := by
    simp [MultipartParser.log, hread, MultipartParser.flush, hs]
  rw [parsePartsWith_log boundary { rawString := boundary } hd.1 [] p hlog]
  rfl

/-- **The delimiter shows**: two parsers with different delimiters differ on
some body. -/
theorem parsePartsWith_injective (d e : Bytes) (hd : IsDelimiter d) (he : IsDelimiter e)
    (h : ∀ body, body ≠ [] →
      parsePartsWith d { rawString := body } = parsePartsWith e { rawString := body }) :
    d = e := by
  have hde : d <+: e := prefix_of_accepted e d he hd.1 hd.2.2
    (by rw [← h d hd.1, accepts_delimiter d hd])
  have hed : e <+: d := prefix_of_accepted d e hd he.1 he.2.2
    (by rw [h e he.1, accepts_delimiter e he])
  exact hde.eq_of_length (Nat.le_antisymm hde.length_le hed.length_le)

/-! ## The decoder -/

namespace ContentType

variable (ct : ContentType)

/-- The media type, and the boundary parameter behind it, say what `out` is. -/
def Decodes (body : Bytes) (out : Exit × RequestBody) : Prop :=
  (ct.IsForm → out.2.reqParams = (({} : RequestParam).parseQueryUrl body).2) ∧
  (ct.IsMultipart → body ≠ [] → ∀ v ∈ ct.boundary,
    out = parsePartsWith (bytes "--" ++ v) { rawString := body }) ∧
  (¬ ct.IsForm → ¬ ct.IsMultipart → out.2.reqParams = {} ∧ out.2.fileItems = [])

/-- Every POST with this Content-Type and body is decoded so. -/
def Follows (body : Bytes) : Prop :=
  ∀ r : Request, r.getMethod = bytes "POST" → r.header (bytes "Content-Type") = ct.text →
    r.body = { rawString := body } →
    ct.Decodes body ((ssOnMessageComplete r).1, (ssOnMessageComplete r).2.body)

/-- A form type with nothing around it, a multipart type with one unquoted
parameter, or another type in which no delimiter is found. -/
def Plain : Prop :=
  (ct.IsForm → ct.text = bytes "application/x-www-form-urlencoded") ∧
  (ct.IsMultipart → ct.boundary ≠ none → ct.mediaType = bytes "multipart/form-data" ∧
    ∃ p value legal, ct.params = [p] ∧ p.value = .token value legal) ∧
  (¬ ct.IsForm → ¬ ct.IsMultipart → ¬ (contains (bytes "multipart/form-data") ct.text = true ∧
    ∃ p, ct.params = [p] ∧ 59 ∉ p.value.text ∧ 61 ∉ p.value.text))

theorem follows_iff (body : Bytes) :
    ct.Follows body ↔ ct.Decodes body (messageBody ct.text { rawString := body }) := by
  have hout : ∀ r : Request, r.header (bytes "Content-Type") = ct.text →
      r.body = { rawString := body } →
      ((ssOnMessageComplete r).1, (ssOnMessageComplete r).2.body) =
        messageBody ct.text { rawString := body } := by
    intro r hct hbody
    rw [ssOnMessageComplete_eq, hct, hbody]
  constructor
  · intro h
    have hkey : ssStrTolower (bytes "Content-Type") = bytes "content-type" := by decide
    have hr := h { line := { method := bytes "POST" }
                   headers := [(bytes "content-type", ct.text)]
                   body := { rawString := body } } rfl
      (by rw [Request.header_eq, hkey]; simp [StdMap.find]) rfl
    rwa [hout _ (by rw [Request.header_eq, hkey]; simp [StdMap.find]) rfl] at hr
  · intro h r _ hct hbody
    rwa [hout r hct hbody]

/-! ### The media types -/

theorem isForm_of_text (h : ct.text = bytes "application/x-www-form-urlencoded") :
    ct.IsForm ∧ contains (bytes "multipart/form-data") ct.text = false := by
  have hsemi : 59 ∉ bytes "application/x-www-form-urlencoded" := by decide
  have hlower : ssStrTolower (bytes "application/x-www-form-urlencoded") =
      bytes "application/x-www-form-urlencoded" := by decide
  have hfind : contains (bytes "multipart/form-data")
      (bytes "application/x-www-form-urlencoded") = false := by decide
  refine ⟨?_, by rw [h, hfind]⟩
  cases hps : ct.params with
  | nil =>
    have hmedia : ct.text = ct.mediaType := by simp [text, hps]
    rw [IsForm, ← hmedia, h, hlower]
  | cons p ps =>
    rw [← h] at hsemi
    exact absurd (by simp [text, hps, TypeParam.text]) hsemi

theorem not_isForm (h : ct.IsMultipart) : ¬ ct.IsForm := by
  intro hform
  have hne : bytes "multipart/form-data" ≠ bytes "application/x-www-form-urlencoded" := by decide
  exact hne (h.symm.trans hform)

theorem messageBody_unmatched (b : RequestBody)
    (hform : ct.text ≠ bytes "application/x-www-form-urlencoded")
    (hmulti : contains (bytes "multipart/form-data") ct.text = false) :
    messageBody ct.text b = (.ret 0, b) := by
  simp [messageBody, parseFormBody, hform, hmulti]

/-- A value in which no delimiter is found, or that is not searched. -/
theorem messageBody_undelimited (b : RequestBody)
    (hform : ct.text ≠ bytes "application/x-www-form-urlencoded") (hne : b.rawString ≠ [])
    (h : ¬ (contains (bytes "multipart/form-data") ct.text = true ∧
      ∃ p, ct.params = [p] ∧ 59 ∉ p.value.text ∧ 61 ∉ p.value.text)) :
    messageBody ct.text b = (.ret 0, b) := by
  cases hmulti : contains (bytes "multipart/form-data") ct.text with
  | false => exact ct.messageBody_unmatched b hform hmulti
  | true =>
    rw [messageBody_multipart _ _ hmulti hne, parseMultipartBody_eq]
    cases hb : multipartBoundary ct.text with
    | none => rfl
    | some boundary =>
      obtain ⟨p, hps, h59, h61, -⟩ := (ct.multipartBoundary_text boundary).mp hb
      exact absurd ⟨hmulti, p, hps, h59, h61⟩ h

/-- A value with a delimiter. -/
theorem messageBody_delimited (b : RequestBody) (hne : b.rawString ≠ [])
    (hmulti : contains (bytes "multipart/form-data") ct.text = true) (p : TypeParam)
    (hps : ct.params = [p]) (h59 : 59 ∉ p.value.text) (h61 : 61 ∉ p.value.text) :
    messageBody ct.text b = parsePartsWith (bytes "--" ++ p.value.text) b := by
  have hb := (ct.multipartBoundary_text _).mpr ⟨p, hps, h59, h61, rfl⟩
  rw [messageBody_multipart _ _ hmulti hne, parseMultipartBody_eq, hb]

/-! ### Where the decoder follows -/

theorem isDelimiter_quotable (s : Bytes) (h : ∀ c ∈ s, isQuotable c = true) :
    IsDelimiter (bytes "--" ++ s) := by
  apply isDelimiter_hyphens
  intro c hc
  have hquotable := h c hc
  simpa [isQuotable] using hquotable

/-- The parser stops at once when the body does not start with a hyphen. -/
theorem parsePartsWith_letter (s : Bytes) :
    parsePartsWith (bytes "--" ++ s) { rawString := [120] } =
      (.ret (-1), { rawString := [120] }) := by
  have hhyphens : bytes "--" = [45, 45] := by decide
  simp [parsePartsWith, multipartParserExecute, multipartParserInit, cStr, hhyphens,
    MultipartParser.step, MultipartParser.stepStartBoundary]

theorem form_iff (h : ct.IsForm) :
    (∀ body, body ≠ [] → ct.Decodes body (messageBody ct.text { rawString := body })) ↔
      ct.text = bytes "application/x-www-form-urlencoded" := by
  constructor
  · intro hall
    by_contra hform
    have hparams := (hall [120] (by simp)).1 h
    have hnone : (messageBody ct.text { rawString := [120] }).2.reqParams = {} := by
      by_cases hfound : contains (bytes "multipart/form-data") ct.text = true ∧
          ∃ p, ct.params = [p] ∧ 59 ∉ p.value.text ∧ 61 ∉ p.value.text
      · obtain ⟨hmulti, p, hps, h59, h61⟩ := hfound
        rw [ct.messageBody_delimited _ (by simp) hmulti p hps h59 h61, parsePartsWith_letter]
      · rw [ct.messageBody_undelimited _ hform (by simp) hfound]
    rw [hnone] at hparams
    exact absurd hparams (by decide)
  · intro htext body hne
    obtain ⟨-, hmulti⟩ := ct.isForm_of_text htext
    rw [htext] at hmulti
    refine ⟨fun _ => ?_, fun hm => absurd h (ct.not_isForm hm), fun hn => absurd h hn⟩
    have hlen : body.length ≠ 0 := fun e => hne (List.length_eq_zero_iff.mp e)
    simp [messageBody, parseFormBody, htext, hmulti, hlen]

theorem not_mem_lower (s : Bytes) (h : 47 ∉ s) : 47 ∉ s.map tolower := by
  intro hm
  obtain ⟨c, hc, hlower⟩ := List.mem_map.mp hm
  apply h
  unfold tolower at hlower
  split at hlower
  · rename_i hupper
    simp only [UInt8.le_iff_toNat_le, UInt8.toNat_ofNat] at hupper
    have hnat := congrArg UInt8.toNat hlower
    simp only [UInt8.toNat_add, UInt8.toNat_ofNat] at hnat
    omega
  · exact hlower ▸ hc

/-- The one `'/'` outside of quotes is that of the media type. -/
theorem mediaType_of_contains (h : ct.IsMultipart) (p : TypeParam) (hps : ct.params = [p])
    (hslash : 47 ∉ p.value.text)
    (hmulti : contains (bytes "multipart/form-data") ct.text = true) :
    ct.mediaType = bytes "multipart/form-data" := by
  have hlit : bytes "multipart/form-data" = bytes "multipart" ++ 47 :: bytes "form-data" := by
    decide
  have htype : 47 ∉ ct.type := not_mem_token ct.legal.1 (by decide)
  have hparam : 47 ∉ p.text := by
    have hname := field_not_mem p 47 (by decide) (by decide)
    simp only [TypeParam.text, List.mem_cons, List.mem_append, not_or] at hname ⊢
    exact ⟨by decide, hname, by decide, hslash⟩
  have hsub : 47 ∉ ct.subtype ++ p.text := by
    rw [List.mem_append, not_or]
    exact ⟨not_mem_token ct.legal.2 (by decide), hparam⟩
  -- up to case, each half is as long as it is in the literal
  have hlen : ct.type.length = 9 ∧ ct.subtype.length = 9 := by
    have hlower : ct.type.map tolower ++ 47 :: ct.subtype.map tolower =
        bytes "multipart" ++ 47 :: bytes "form-data" := by
      rw [← hlit, ← h]
      simp [mediaType, ssStrTolower, show tolower 47 = 47 from by decide]
    obtain ⟨hl, hr⟩ := StringStream.token_unique 47 _ _ _ _ (not_mem_lower _ htype) (by decide) hlower
    have hl := congrArg List.length hl
    have hr := congrArg List.length hr
    rw [List.length_map] at hl hr
    exact ⟨hl.trans (by decide), hr.trans (by decide)⟩
  obtain ⟨x, y, hxy⟩ := (contains_iff _ _).mp hmulti
  have hcut : ct.type ++ 47 :: (ct.subtype ++ p.text) =
      (x ++ bytes "multipart") ++ 47 :: (bytes "form-data" ++ y) := by
    rw [hlit] at hxy
    simpa [text, hps, mediaType] using hxy.symm
  obtain ⟨hl, -, hr⟩ := (List.append_cons_inj_of_notMem htype hsub).mp hcut
  have hx : x = [] := by
    have hnine : (bytes "multipart").length = 9 := by decide
    have hsum := congrArg List.length hl
    rw [List.length_append, hlen.1, hnine] at hsum
    exact List.length_eq_zero_iff.mp (by omega)
  have hsubtype : ct.subtype = bytes "form-data" :=
    (List.append_inj hr (hlen.2.trans (by decide))).1
  rw [mediaType, hl, hx, hsubtype, hlit, List.nil_append]

theorem multipart_iff (h : ct.IsMultipart) :
    (∀ body, body ≠ [] → ct.Decodes body (messageBody ct.text { rawString := body })) ↔
      (ct.boundary ≠ none → ct.mediaType = bytes "multipart/form-data" ∧
        ∃ p value legal, ct.params = [p] ∧ p.value = .token value legal) := by
  have hform : ct.text ≠ bytes "application/x-www-form-urlencoded" :=
    fun e => ct.not_isForm h (ct.isForm_of_text e).1
  have hboundary : ∀ p, ct.params = [p] → ∀ v ∈ ct.boundary, v = p.value.value := by
    intro p hps v hv
    simp only [boundary, hps, List.find?_singleton, Option.mem_def] at hv
    split at hv
    · simpa using hv.symm
    · simp at hv
  constructor
  · intro hall hsome
    obtain ⟨v, hv⟩ := Option.ne_none_iff_exists'.mp hsome
    have hwith : ∀ body, body ≠ [] → messageBody ct.text { rawString := body } =
        parsePartsWith (bytes "--" ++ v) { rawString := body } :=
      fun body hne => (hall body hne).2.1 h hne v hv
    by_cases hfound : contains (bytes "multipart/form-data") ct.text = true ∧
        ∃ p, ct.params = [p] ∧ 59 ∉ p.value.text ∧ 61 ∉ p.value.text
    · obtain ⟨hmulti, p, hps, h59, h61⟩ := hfound
      have hvalue := hboundary p hps v hv
      subst hvalue
      have hsame : bytes "--" ++ p.value.text = bytes "--" ++ p.value.value := by
        apply parsePartsWith_injective
        · exact isDelimiter_quotable _ p.value.isQuotable_text
        · exact isDelimiter_quotable _ p.value.isQuotable_value
        · intro body hne
          rw [← hwith body hne, ct.messageBody_delimited _ hne hmulti p hps h59 h61]
      obtain ⟨value, legal, htoken⟩ := p.value.text_eq_value.mp (List.append_cancel_left hsame)
      refine ⟨ct.mediaType_of_contains h p hps ?_ hmulti, p, value, legal, hps, htoken⟩
      rw [htoken]
      exact not_mem_token legal (by decide)
    · have hx := hwith [120] (by simp)
      rw [ct.messageBody_undelimited _ hform (by simp) hfound, parsePartsWith_letter] at hx
      simp at hx
  · intro hplain body hne
    refine ⟨fun hf => absurd hf (ct.not_isForm h), fun _ _ v hv => ?_, fun _ hn => absurd h hn⟩
    have hsome : ct.boundary ≠ none := by
      rw [Option.mem_def.mp hv]
      simp
    obtain ⟨hmedia, p, value, legal, hps, htoken⟩ := hplain hsome
    have hmulti : contains (bytes "multipart/form-data") ct.text = true :=
      (contains_iff _ _).mpr ⟨[], ct.params.flatMap TypeParam.text, by simp [text, hmedia]⟩
    have hmem : ∀ c, isTchar c = false → c ∉ p.value.text := by
      rw [htoken]
      exact fun c hc => not_mem_token legal hc
    rw [ct.messageBody_delimited _ hne hmulti p hps (hmem 59 (by decide)) (hmem 61 (by decide)),
      hboundary p hps v hv, htoken]
    rfl

/-- A part of the form that shows that the body was taken apart. -/
def emptyPart : MultipartPart := ⟨bytes "a", none, none, []⟩

theorem emptyPart_legal (B : Bytes) : emptyPart.Legal B := by
  constructor
  · unfold MultipartPart.LegalName
    decide +kernel
  · exact nofun
  · exact nofun
  · intro h
    have hle := h.length_le
    simp [emptyPart, crlf] at hle

theorem other_iff (hform : ¬ ct.IsForm) (hm : ¬ ct.IsMultipart) :
    (∀ body, body ≠ [] → ct.Decodes body (messageBody ct.text { rawString := body })) ↔
      ¬ (contains (bytes "multipart/form-data") ct.text = true ∧
        ∃ p, ct.params = [p] ∧ 59 ∉ p.value.text ∧ 61 ∉ p.value.text) := by
  have htext : ct.text ≠ bytes "application/x-www-form-urlencoded" :=
    fun e => hform (ct.isForm_of_text e).1
  constructor
  · rintro hall ⟨hmulti, p, hps, h59, h61⟩
    have hB : LegalBoundary p.value.text := by
      refine ⟨p.value.text_ne_nil, fun c hc => ⟨?_, ?_, ?_⟩⟩
      · have hquotable := p.value.isQuotable_text c hc
        simpa [isQuotable] using hquotable
      · exact ne_of_mem_of_not_mem hc h59
      · exact ne_of_mem_of_not_mem hc h61
    have hne : encodeParts p.value.text [emptyPart] ≠ [] := by
      have hhyphens : bytes "--" ≠ [] := by decide
      simp [encodeParts_eq, hhyphens]
    have hdecode := parseMultipartBody_encodeParts ct.text p.value.text [] hB
      ((ct.multipartBoundary_text _).mpr ⟨p, hps, h59, h61, rfl⟩)
      { rawString := encodeParts p.value.text [emptyPart] } [emptyPart] (by simp)
      (fun q hq => by rw [List.mem_singleton.mp hq]; exact emptyPart_legal _)
      (fun q hq => by rw [List.mem_singleton.mp hq]; decide) (by simp)
    have hitems := ((hall _ hne).2.2 hform hm).2
    rw [messageBody_multipart _ _ hmulti hne, hdecode] at hitems
    simp [RequestBody.parseMultiParams] at hitems
  · intro hfound body hne
    rw [ct.messageBody_undelimited _ htext hne hfound]
    exact ⟨fun h => absurd h hform, fun h => absurd h hm, fun _ _ => ⟨rfl, rfl⟩⟩

/-- Of an empty body nothing is made, which is not what `parse_query_url` makes of it. -/
theorem empty_iff : ct.Decodes [] (messageBody ct.text { rawString := [] }) ↔ ¬ ct.IsForm := by
  rw [messageBody_empty]
  constructor
  · intro h hform
    exact absurd (h.1 hform) (by decide)
  · intro hform
    exact ⟨fun h => absurd h hform, fun _ h => absurd rfl h, fun _ _ => ⟨rfl, rfl⟩⟩

/-- **Where the decoder follows the Content-Type**; `feed_decodes` says it of a
parsed message. -/
theorem decoder_follows_iff :
    ((∀ body, body ≠ [] → ct.Follows body) ↔ ct.Plain) ∧ (ct.Follows [] ↔ ¬ ct.IsForm) := by
  refine ⟨?_, by rw [ct.follows_iff, ct.empty_iff]⟩
  simp only [follows_iff]
  by_cases hform : ct.IsForm
  · have hm : ¬ ct.IsMultipart := fun hm => ct.not_isForm hm hform
    rw [ct.form_iff hform]
    exact ⟨fun h => ⟨fun _ => h, fun h => absurd h hm, fun h => absurd hform h⟩, fun h => h.1 hform⟩
  · by_cases hm : ct.IsMultipart
    · rw [ct.multipart_iff hm]
      exact ⟨fun h => ⟨fun h => absurd h hform, fun _ => h, fun _ h => absurd hm h⟩,
        fun h => h.2.1 hm⟩
    · rw [ct.other_iff hform hm]
      exact ⟨fun h => ⟨fun h => absurd h hform, fun h => absurd h hm, fun _ _ => h⟩,
        fun h => h.2.2 hform hm⟩

/-- A form whose charset is named. -/
def formWithCharset : ContentType where
  type := bytes "application"
  subtype := bytes "x-www-form-urlencoded"
  params := [⟨1, bytes "charset", .token (bytes "UTF-8") (by decide), by decide⟩]
  legal := by decide

/-- The params of a form with a charset are lost. -/
theorem charset_loses_params : ¬ formWithCharset.Follows (bytes "a=1") := by
  rw [follows_iff]
  intro h
  have hform : formWithCharset.IsForm := by
    unfold IsForm
    decide
  exact absurd (h.1 hform) (by decide)

/-! ### From the bytes on the wire -/

/-- **A parsed message**: where the decoder follows, the body of the request is
decoded by its Content-Type. -/
theorem feed_decodes (m : Message) (hct : m.header (bytes "Content-Type") = ct.text)
    (hlength : m.header (bytes "Content-Length") ≠ []) (hmax : m.size ≤ MAX_REQ_SIZE)
    (hfollows : ct.Follows m.body) (segs : List Segment) (h : Trace m segs) :
    ∃ ret, (feed {} segs).1.getLast? = some (bodyVerdict ret) ∧
      ct.Decodes m.body (ret, (feed {} segs).2.body) := by
  obtain ⟨hlast, hbody⟩ := m.feed_body (m.headOut_post hlength) hmax segs h
  have hdecodes := (ct.follows_iff m.body).mp hfollows
  rw [hct] at hlast hbody
  exact ⟨_, hlast, by rw [hbody]; exact hdecodes⟩

end ContentType

end Ehttp
