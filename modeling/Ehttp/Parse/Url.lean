import Ehttp.Request

/-!
# The request target: `parse_url_char` and the two splits at `'?'`

The URL states of the vendored `http_parser`, built with `HTTP_PARSER_STRICT=0`,
and the fields that `http_parser_parse_url` reads off them.

* `query_text`: the query field is what stands between the first `'?'` and the
  first `'#'`;
* `parseRequestUrlParams_eq_query`: the query that `parse_query_url` is handed;
* `decomposed_iff`: when path and query are those of the URL.
-/

namespace Ehttp

open Lib

/-! ## `http_parser.c` -/

/-- `s_dead`, and the states from `s_req_spaces_before_url` to `s_req_fragment`. -/
inductive UrlState
  | dead
  | spacesBeforeUrl
  | schema | schemaSlash | schemaSlashSlash
  | serverStart | server | serverWithAt
  | path
  | queryStringStart | queryString
  | fragmentStart | fragment
  deriving DecidableEq, Repr

def isAlpha (c : UInt8) : Bool := 97 ≤ c ||| 32 ∧ c ||| 32 ≤ 122

def isNum (c : UInt8) : Bool := 48 ≤ c ∧ c ≤ 57

/-- `- _ . ! ~ * ' ( )` -/
def isMark (c : UInt8) : Bool := c ∈ [45, 95, 46, 33, 126, 42, 39, 40, 41]

/-- Besides: `% ; : & = + $ ,` -/
def isUserinfoChar (c : UInt8) : Bool :=
  isAlpha c ∨ isNum c ∨ isMark c ∨ c ∈ [37, 59, 58, 38, 61, 43, 36, 44]

/-- `IS_URL_CHAR`: the table `normal_url_char`, and every byte with the high bit.
35 is `'#'` and 63 `'?'`. -/
def isUrlChar (c : UInt8) : Bool := c = 9 ∨ c = 12 ∨ 33 ≤ c ∧ c ≠ 35 ∧ c ≠ 63 ∧ c ≠ 127

/-- The branch shared by the server states. -/
def parseServerChar (ch : UInt8) : UrlState :=
  if ch = 47 then .path
  else if ch = 63 then .queryStringStart
  else if ch = 64 then .serverWithAt
  else if isUserinfoChar ch ∨ ch = 91 ∨ ch = 93 then .server
  else .dead

def parseUrlChar (s : UrlState) (ch : UInt8) : UrlState :=
  if ch = 32 ∨ ch = CR ∨ ch = LF then .dead
  else
    match s with
    | .dead => .dead
    | .spacesBeforeUrl =>
      if ch = 47 ∨ ch = 42 then .path else if isAlpha ch then .schema else .dead
    | .schema => if isAlpha ch then .schema else if ch = 58 then .schemaSlash else .dead
    | .schemaSlash => if ch = 47 then .schemaSlashSlash else .dead
    | .schemaSlashSlash => if ch = 47 then .serverStart else .dead
    | .serverWithAt => if ch = 64 then .dead else parseServerChar ch
    | .serverStart | .server => parseServerChar ch
    | .path =>
      if isUrlChar ch then .path
      else if ch = 63 then .queryStringStart
      else if ch = 35 then .fragmentStart
      else .dead
    | .queryStringStart | .queryString =>
      if isUrlChar ch then .queryString
      else if ch = 63 then .queryString -- allow extra '?' in query string
      else if ch = 35 then .fragmentStart
      else .dead
    | .fragmentStart =>
      if isUrlChar ch then .fragment
      else if ch = 63 then .fragment
      else if ch = 35 then .fragmentStart
      else .dead
    | .fragment => if isUrlChar ch ∨ ch = 63 ∨ ch = 35 then .fragment else .dead

/-- The states in which `http_parser_execute` ends the URL at a space. -/
def UrlState.ends : UrlState → Bool
  | .server | .serverWithAt | .path | .queryStringStart | .queryString | .fragmentStart
  | .fragment => true
  | .dead | .spacesBeforeUrl | .schema | .schemaSlash | .schemaSlashSlash | .serverStart => false

/-- The target is accepted, for every method but CONNECT. -/
def acceptsUrl (url : Bytes) : Bool := (url.foldl parseUrlChar .spacesBeforeUrl).ends

/-- The bytes that lead to a state, as `http_parser_parse_url` collects a field. -/
def urlField (field : UrlState) : UrlState → Bytes → Bytes
  | _, [] => []
  | s, ch :: url =>
    if parseUrlChar s ch = field then ch :: urlField field (parseUrlChar s ch) url
    else urlField field (parseUrlChar s ch) url

/-- The query field behind the `'?'`, if there is one. -/
def queryField : UrlState → Bytes → Option Bytes
  | _, [] => none
  | s, ch :: url =>
    if parseUrlChar s ch = .queryStringStart then some (urlField .queryString .queryStringStart url)
    else queryField (parseUrlChar s ch) url

def urlPath (url : Bytes) : Bytes := urlField .path .spacesBeforeUrl url

def urlQuery (url : Bytes) : Option Bytes := queryField .spacesBeforeUrl url

/-! ## The fields as texts -/

theorem foldl_dead (url : Bytes) : url.foldl parseUrlChar .dead = .dead := by
  induction url with
  | nil => rfl
  | cons c url ih =>
    have hc : parseUrlChar .dead c = .dead := by
      unfold parseUrlChar
      split <;> rfl
    rw [List.foldl_cons, hc, ih]

/-- A run that does not die has not died at its first byte. -/
theorem ne_dead_of_foldl {s : UrlState} {c : UInt8} {url : Bytes}
    (h : (c :: url).foldl parseUrlChar s ≠ .dead) : parseUrlChar s c ≠ .dead := by
  intro hd
  rw [List.foldl_cons, hd, foldl_dead] at h
  exact h rfl

/-- Before the path: scheme and authority. -/
def UrlState.inFront (s : UrlState) : Prop :=
  s ∈ [.schema, .schemaSlash, .schemaSlashSlash, .serverStart, .server, .serverWithAt]

def UrlState.inQuery (s : UrlState) : Prop := s = .queryStringStart ∨ s = .queryString

def UrlState.inFragment (s : UrlState) : Prop := s = .fragmentStart ∨ s = .fragment

theorem isUrlChar_ne {c : UInt8} (h : isUrlChar c = true) : c ≠ 35 ∧ c ≠ 63 := by
  constructor <;> rintro rfl <;> exact absurd h (by decide)

theorem isUserinfoChar_ne {c : UInt8} (h : isUserinfoChar c = true ∨ c = 91 ∨ c = 93) :
    c ≠ 35 ∧ c ≠ 63 := by
  constructor <;> rintro rfl <;> exact absurd h (by decide)

theorem isUrlChar_question : isUrlChar 63 = false := by decide

theorem isUrlChar_hash : isUrlChar 35 = false := by decide

theorem isAlpha_colon : isAlpha 58 = false := by decide

theorem isAlpha_ne {c : UInt8} (h : isAlpha c = true) : c ≠ 35 ∧ c ≠ 63 ∧ c ≠ 47 ∧ c ≠ 42 := by
  refine ⟨?_, ?_, ?_, ?_⟩ <;> rintro rfl <;> exact absurd h (by decide)

theorem parseServerChar_cases (c : UInt8) :
    parseServerChar c = .dead ∨
    ((parseServerChar c).inFront ∧ c ≠ 35 ∧ c ≠ 63) ∨
    (parseServerChar c = .path ∧ c = 47) ∨
    (parseServerChar c = .queryStringStart ∧ c = 63) := by
  unfold parseServerChar
  by_cases hslash : c = 47
  · simp [hslash]
  · by_cases hquery : c = 63
    · simp [hquery]
    · by_cases hat : c = 64
      · simp [hat, UrlState.inFront]
      · by_cases huser : isUserinfoChar c = true ∨ c = 91 ∨ c = 93
        · simp [hslash, hquery, hat, huser, UrlState.inFront, isUserinfoChar_ne huser]
        · simp [hslash, hquery, hat, huser]

/-- What follows the front of the URL. -/
theorem step_front {s : UrlState} (hs : s.inFront) (c : UInt8) :
    parseUrlChar s c = .dead ∨
    ((parseUrlChar s c).inFront ∧ c ≠ 35 ∧ c ≠ 63) ∨
    (parseUrlChar s c = .path ∧ c = 47) ∨
    (parseUrlChar s c = .queryStringStart ∧ c = 63) := by
  unfold parseUrlChar
  by_cases hspace : c = 32 ∨ c = CR ∨ c = LF
  · exact Or.inl (if_pos hspace)
  · rw [if_neg hspace]
    have hserver := parseServerChar_cases c
    cases s with
    | schema =>
      by_cases ha : isAlpha c = true
      · simp [ha, UrlState.inFront, isAlpha_ne ha]
      · by_cases hc : c = 58
        · simp [hc, isAlpha_colon, UrlState.inFront]
        · simp [ha, hc]
    | schemaSlash => by_cases hc : c = 47 <;> simp [hc, UrlState.inFront]
    | schemaSlashSlash => by_cases hc : c = 47 <;> simp [hc, UrlState.inFront]
    | serverStart => exact hserver
    | server => exact hserver
    | serverWithAt =>
      by_cases hc : c = 64
      · simp [hc]
      · simpa [hc] using hserver
    | dead | spacesBeforeUrl | path | queryStringStart | queryString | fragmentStart | fragment =>
      simp [UrlState.inFront] at hs

/-- A byte of the path or the query: text, `'?'`, `'#'`, or none of them. -/
theorem urlChar_cases (c : UInt8) (text question hash other t : UrlState)
    (ht : (if isUrlChar c = true then text else if c = 63 then question
      else if c = 35 then hash else other) = t) :
    (t = text ∧ c ≠ 35 ∧ c ≠ 63) ∨ (t = question ∧ c = 63) ∨ (t = hash ∧ c = 35) ∨ t = other := by
  subst ht
  by_cases hchar : isUrlChar c = true
  · simp [hchar, isUrlChar_ne hchar]
  · by_cases hquery : c = 63
    · simp [hquery, isUrlChar_question]
    · by_cases hhash : c = 35
      · simp [hhash, isUrlChar_hash]
      · simp [hchar, hquery, hhash]

theorem step_path (c : UInt8) :
    parseUrlChar .path c = .dead ∨
    (parseUrlChar .path c = .path ∧ c ≠ 35 ∧ c ≠ 63) ∨
    (parseUrlChar .path c = .queryStringStart ∧ c = 63) ∨
    (parseUrlChar .path c = .fragmentStart ∧ c = 35) := by
  unfold parseUrlChar
  by_cases hspace : c = 32 ∨ c = CR ∨ c = LF
  · exact Or.inl (if_pos hspace)
  · rw [if_neg hspace]
    rcases urlChar_cases c .path .queryStringStart .fragmentStart .dead _ rfl with
      htext | hquery | hhash | hother
    · exact Or.inr (Or.inl htext)
    · exact Or.inr (Or.inr (Or.inl hquery))
    · exact Or.inr (Or.inr (Or.inr hhash))
    · exact Or.inl hother

theorem step_query {s : UrlState} (hs : s.inQuery) (c : UInt8) :
    parseUrlChar s c = .dead ∨
    (parseUrlChar s c = .queryString ∧ c ≠ 35) ∨
    (parseUrlChar s c = .fragmentStart ∧ c = 35) := by
  unfold parseUrlChar
  by_cases hspace : c = 32 ∨ c = CR ∨ c = LF
  · exact Or.inl (if_pos hspace)
  · rw [if_neg hspace]
    have hsame : ∀ t : UrlState, (if isUrlChar c = true then .queryString
        else if c = 63 then .queryString else if c = 35 then .fragmentStart else .dead) = t →
        t = .dead ∨ (t = .queryString ∧ c ≠ 35) ∨ (t = .fragmentStart ∧ c = 35) := by
      intro t ht
      rcases urlChar_cases c _ _ _ _ t ht with ⟨htext, hne, -⟩ | ⟨hquery, rfl⟩ | hhash | hother
      · exact Or.inr (Or.inl ⟨htext, hne⟩)
      · exact Or.inr (Or.inl ⟨hquery, by decide⟩)
      · exact Or.inr (Or.inr hhash)
      · exact Or.inl hother
    rcases hs with rfl | rfl
    · exact hsame _ rfl
    · exact hsame _ rfl

theorem step_fragment {s : UrlState} (hs : s.inFragment ∨ s = .dead) (c : UInt8) :
    (parseUrlChar s c).inFragment ∨ parseUrlChar s c = .dead := by
  unfold parseUrlChar
  by_cases hspace : c = 32 ∨ c = CR ∨ c = LF
  · exact Or.inr (if_pos hspace)
  · rw [if_neg hspace]
    rcases hs with (rfl | rfl) | rfl
    · simp only
      split_ifs <;> simp [UrlState.inFragment]
    · simp only
      split_ifs <;> simp [UrlState.inFragment]
    · exact Or.inr rfl

/-! ## Fields -/

/-- Once in the fragment nothing is added to path or query. -/
theorem field_fragment (field : UrlState) (hf : field ≠ .fragmentStart ∧ field ≠ .fragment ∧ field ≠ .dead)
    (url : Bytes) (s : UrlState) (hs : s.inFragment ∨ s = .dead) : urlField field s url = [] := by
  induction url generalizing s with
  | nil => rfl
  | cons c url ih =>
    have hstep := step_fragment hs c
    have hne : parseUrlChar s c ≠ field := by
      rintro rfl
      rcases hstep with (h | h) | h
      · exact hf.1 h
      · exact hf.2.1 h
      · exact hf.2.2 h
    rw [urlField, if_neg hne]
    exact ih _ hstep

theorem queryField_fragment (url : Bytes) (s : UrlState) (hs : s.inFragment ∨ s = .dead) :
    queryField s url = none := by
  induction url generalizing s with
  | nil => rfl
  | cons c url ih =>
    have hstep := step_fragment hs c
    have hne : parseUrlChar s c ≠ .queryStringStart := by
      intro h
      rw [h] at hstep
      simp [UrlState.inFragment] at hstep
    rw [queryField, if_neg hne]
    exact ih _ hstep

/-- **The query field** ends at the first `'#'`. -/
theorem field_query (url : Bytes) (s : UrlState) (hs : s.inQuery)
    (hend : url.foldl parseUrlChar s ≠ .dead) :
    urlField .queryString s url = url.takeWhile (· ≠ 35) := by
  induction url generalizing s with
  | nil => rfl
  | cons c url ih =>
    rcases step_query hs c with hd | ⟨hq, hc⟩ | ⟨hfrag, rfl⟩
    · exact absurd hd (ne_dead_of_foldl hend)
    · rw [List.foldl_cons, hq] at hend
      rw [urlField, hq, if_pos rfl, ih _ (Or.inr rfl) hend,
        List.takeWhile_cons_of_pos (by simpa using hc)]
    · rw [urlField, hfrag, if_neg (by decide), field_fragment .queryString (by decide) url _
        (Or.inl (Or.inl rfl))]
      simp

/-- No path behind the `'?'`. -/
theorem field_path_query (url : Bytes) (s : UrlState) (hs : s.inQuery) :
    urlField .path s url = [] := by
  induction url generalizing s with
  | nil => rfl
  | cons c url ih =>
    rcases step_query hs c with hd | ⟨hq, -⟩ | ⟨hfrag, -⟩
    · rw [urlField, hd, if_neg (by decide)]
      exact field_fragment .path (by decide) url _ (Or.inr rfl)
    · rw [urlField, hq, if_neg (by decide)]
      exact ih _ (Or.inr rfl)
    · rw [urlField, hfrag, if_neg (by decide)]
      exact field_fragment .path (by decide) url _ (Or.inl (Or.inl rfl))

/-- **The path field** ends at the first `'?'` or `'#'`. -/
theorem field_path (url : Bytes) (hend : url.foldl parseUrlChar .path ≠ .dead) :
    urlField .path .path url = url.takeWhile (fun c => c ≠ 35 ∧ c ≠ 63) := by
  induction url with
  | nil => rfl
  | cons c url ih =>
    rcases step_path c with hd | ⟨hp, hc, hc'⟩ | ⟨hq, rfl⟩ | ⟨hfrag, rfl⟩
    · exact absurd hd (ne_dead_of_foldl hend)
    · rw [List.foldl_cons, hp] at hend
      rw [urlField, hp, if_pos rfl, ih hend, List.takeWhile_cons_of_pos (by simp [hc, hc'])]
    · rw [urlField, hq, if_neg (by decide), field_path_query url _ (Or.inl rfl)]
      simp
    · rw [urlField, hfrag, if_neg (by decide), field_fragment .path (by decide) url _
        (Or.inl (Or.inl rfl))]
      simp

/-- The text between the first `'?'` and the first `'#'`. -/
def queryText : Bytes → Option Bytes
  | [] => none
  | c :: url =>
    if c = 35 then none else if c = 63 then some (url.takeWhile (· ≠ 35)) else queryText url

theorem queryField_front (url : Bytes) (s : UrlState) (hs : s.inFront ∨ s = .path)
    (hend : url.foldl parseUrlChar s ≠ .dead) : queryField s url = queryText url := by
  induction url generalizing s with
  | nil => rfl
  | cons c url ih =>
    have hcases : ((parseUrlChar s c).inFront ∨ parseUrlChar s c = .path) ∧ c ≠ 35 ∧ c ≠ 63 ∨
        parseUrlChar s c = .queryStringStart ∧ c = 63 ∨
        parseUrlChar s c = .fragmentStart ∧ c = 35 := by
      have hd := ne_dead_of_foldl hend
      rcases hs with hs | rfl
      · rcases step_front hs c with h | ⟨h, hc⟩ | ⟨h, rfl⟩ | ⟨h, hc⟩
        · exact absurd h hd
        · exact Or.inl ⟨Or.inl h, hc⟩
        · exact Or.inl ⟨Or.inr h, by decide⟩
        · exact Or.inr (Or.inl ⟨h, hc⟩)
      · rcases step_path c with h | ⟨h, hc⟩ | ⟨h, hc⟩ | ⟨h, hc⟩
        · exact absurd h hd
        · exact Or.inl ⟨Or.inr h, hc⟩
        · exact Or.inr (Or.inl ⟨h, hc⟩)
        · exact Or.inr (Or.inr ⟨h, hc⟩)
    rw [List.foldl_cons] at hend
    rcases hcases with ⟨hs', hc, hc'⟩ | ⟨hq, rfl⟩ | ⟨hfrag, rfl⟩
    · have hne : parseUrlChar s c ≠ .queryStringStart := by
        intro h
        rw [h] at hs'
        simp [UrlState.inFront] at hs'
      rw [queryField, if_neg hne, ih _ hs' hend, queryText, if_neg hc, if_neg hc']
    · rw [hq] at hend
      rw [queryField, hq, if_pos rfl, field_query url _ (Or.inl rfl) hend]
      rfl
    · rw [queryField, hfrag, if_neg (by decide),
        queryField_fragment url _ (Or.inl (Or.inl rfl))]
      rfl

/-- In the front nothing is path; the path begins with a slash. -/
theorem field_path_front (url : Bytes) (s : UrlState) (hs : s.inFront) :
    urlField .path s url = [] ∨ (urlField .path s url).head? = some 47 := by
  induction url generalizing s with
  | nil => exact Or.inl rfl
  | cons c url ih =>
    rcases step_front hs c with hd | ⟨hf, -⟩ | ⟨hp, rfl⟩ | ⟨hq, -⟩
    · left
      rw [urlField, hd, if_neg (by decide)]
      exact field_fragment .path (by decide) url _ (Or.inr rfl)
    · have hne : parseUrlChar s c ≠ .path := by
        intro h
        rw [h] at hf
        simp [UrlState.inFront] at hf
      rw [urlField, if_neg hne]
      exact ih _ hf
    · right
      rw [urlField, if_pos hp]
      rfl
    · left
      rw [urlField, hq, if_neg (by decide)]
      exact field_path_query url _ (Or.inl rfl)

/-- The first byte of a target. -/
theorem step_first (c : UInt8) :
    parseUrlChar .spacesBeforeUrl c = .dead ∨
    (parseUrlChar .spacesBeforeUrl c = .path ∧ (c = 47 ∨ c = 42)) ∨
    (parseUrlChar .spacesBeforeUrl c = .schema ∧ isAlpha c = true) := by
  unfold parseUrlChar
  by_cases hspace : c = 32 ∨ c = CR ∨ c = LF
  · exact Or.inl (if_pos hspace)
  · rw [if_neg hspace]
    by_cases hpath : c = 47 ∨ c = 42
    · exact Or.inr (Or.inl ⟨if_pos hpath, hpath⟩)
    · by_cases halpha : isAlpha c = true
      · exact Or.inr (Or.inr ⟨by simp only [if_neg hpath, if_pos halpha], halpha⟩)
      · exact Or.inl (by simp only [if_neg hpath, if_neg halpha])

/-- An accepted target is in origin form, or begins with a scheme. -/
theorem acceptsUrl_cases (url : Bytes) (h : acceptsUrl url = true) :
    ∃ c rest, url = c :: rest ∧
      ((parseUrlChar .spacesBeforeUrl c = .path ∧ (c = 47 ∨ c = 42) ∧
        rest.foldl parseUrlChar .path ≠ .dead) ∨
      (parseUrlChar .spacesBeforeUrl c = .schema ∧ isAlpha c = true ∧
        rest.foldl parseUrlChar .schema ≠ .dead)) := by
  unfold acceptsUrl at h
  cases url with
  | nil => simp [UrlState.ends] at h
  | cons c rest =>
    refine ⟨c, rest, rfl, ?_⟩
    have hend : (c :: rest).foldl parseUrlChar .spacesBeforeUrl ≠ .dead := by
      intro hd
      rw [hd] at h
      simp [UrlState.ends] at h
    rcases step_first c with hd | ⟨hp, hc⟩ | ⟨hs, hc⟩
    · exact absurd hd (ne_dead_of_foldl hend)
    · rw [List.foldl_cons, hp] at hend
      exact Or.inl ⟨hp, hc, hend⟩
    · rw [List.foldl_cons, hs] at hend
      exact Or.inr ⟨hs, hc, hend⟩

/-- **The query** of an accepted target as a text. -/
theorem query_text (url : Bytes) (h : acceptsUrl url = true) : urlQuery url = queryText url := by
  obtain ⟨c, rest, rfl, ⟨hp, hc, hend⟩ | ⟨hs, hc, hend⟩⟩ := acceptsUrl_cases url h
  · rw [urlQuery, queryField, hp, if_neg (by decide),
      queryField_front rest .path (Or.inr rfl) hend]
    rcases hc with rfl | rfl
    · rfl
    · rfl
  · obtain ⟨hhash, hquery, -⟩ := isAlpha_ne hc
    rw [urlQuery, queryField, hs, if_neg (by decide),
      queryField_front rest .schema (Or.inl (by simp [UrlState.inFront])) hend, queryText,
      if_neg hhash, if_neg hquery]

/-! ## The two splits at `'?'` -/

/-- What `parse_request_url_params` hands to `parse_query_url`, if it calls it. -/
def RequestLine.queryUrl (l : RequestLine) : Option Bytes :=
  let ss := ((StringStream.ofBuf l.requestUrl).getline 63).2
  if ss.good then some (ss.getline 63).1 else none

theorem parseRequestUrlParams_eq_query (l : RequestLine) :
    l.parseRequestUrlParams =
      match l.queryUrl with
      | none => (0, l)
      | some query => (0, { l with param := (l.param.parseQueryUrl query).2 }) := by
  unfold RequestLine.parseRequestUrlParams RequestLine.queryUrl
  cases h : (((StringStream.ofBuf l.requestUrl).getline 63).2).good with
  | true => simp [h]
  | false => simp [h]

theorem getRequestUri_eq (l : RequestLine) :
    l.getRequestUri = l.requestUrl.takeWhile (· ≠ 63) :=
  StringStream.getline_fst (StringStream.ofBuf l.requestUrl) 63 rfl

theorem queryUrl_some (l : RequestLine) (uri tail : Bytes) (h : l.requestUrl = uri ++ 63 :: tail)
    (huri : 63 ∉ uri) : l.queryUrl = some (tail.takeWhile (· ≠ 63)) := by
  obtain ⟨ss, hss⟩ : ∃ ss, StringStream.ofBuf l.requestUrl = ss := ⟨_, rfl⟩
  have hrest : ss.rest = uri ++ 63 :: tail := by rw [← hss, ← h]; rfl
  have hgood : ss.good = true := by rw [← hss]; rfl
  have htail := StringStream.rest_advance ss 63 uri tail hrest
  unfold RequestLine.queryUrl
  rw [hss, StringStream.getline_token ss 63 uri tail hgood hrest huri]
  have hgood' : StringStream.good { ss with gpos := ss.gpos + uri.length + 1 } = true := hgood
  simp only [hgood', ↓reduceIte, Option.some.injEq]
  rw [StringStream.getline_fst _ _ hgood', htail]

theorem queryUrl_none (l : RequestLine) (h : 63 ∉ l.requestUrl) : l.queryUrl = none := by
  unfold RequestLine.queryUrl
  rw [StringStream.getline_last (StringStream.ofBuf l.requestUrl) 63 rfl h]
  rfl

/-- The URI is the path of the URL, and the query is handed over whole. -/
structure Decomposed (l : RequestLine) : Prop where
  path : l.getRequestUri = urlPath l.requestUrl
  query : l.queryUrl = urlQuery l.requestUrl

/-- No scheme and authority, no fragment, one `'?'` at most. -/
structure PlainUrl (url : Bytes) : Prop where
  origin : url.head? = some 47 ∨ url.head? = some 42
  fragment : 35 ∉ url
  query : url.count 63 ≤ 1

/-- Two cuts agree only where there is nothing to cut at. -/
theorem takeWhile_ne_eq {a b : UInt8} (hab : a ≠ b) (l : Bytes)
    (h : l.takeWhile (· ≠ a) = l.takeWhile (· ≠ b)) : a ∉ l ∧ b ∉ l := by
  induction l with
  | nil => simp
  | cons c l ih =>
    by_cases ha : c = a
    · subst ha
      simp [hab] at h
    · by_cases hb : c = b
      · subst hb
        simp [ha] at h
      · rw [List.takeWhile_cons_of_pos (by simpa using ha),
          List.takeWhile_cons_of_pos (by simpa using hb), List.cons.injEq] at h
        obtain ⟨hna, hnb⟩ := ih h.2
        simp [hna, hnb, Ne.symm ha, Ne.symm hb]

theorem queryText_some (uri tail : Bytes) (hhash : 35 ∉ uri) (hquery : 63 ∉ uri) :
    queryText (uri ++ 63 :: tail) = some (tail.takeWhile (· ≠ 35)) := by
  induction uri with
  | nil => rfl
  | cons c uri ih =>
    simp only [List.mem_cons, not_or] at hhash hquery
    rw [List.cons_append, queryText, if_neg (Ne.symm hhash.1), if_neg (Ne.symm hquery.1),
      ih hhash.2 hquery.2]

theorem queryText_none (url : Bytes) (h : 63 ∉ url) : queryText url = none := by
  induction url with
  | nil => rfl
  | cons c url ih =>
    simp only [List.mem_cons, not_or] at h
    rw [queryText, if_neg (Ne.symm h.1), ih h.2]
    split <;> rfl

/-- The path of a target in origin form. -/
theorem urlPath_origin (c : UInt8) (rest : Bytes) (hp : parseUrlChar .spacesBeforeUrl c = .path)
    (hc : c = 47 ∨ c = 42) (hend : rest.foldl parseUrlChar .path ≠ .dead) :
    urlPath (c :: rest) = (c :: rest).takeWhile (fun c => c ≠ 35 ∧ c ≠ 63) := by
  have hne : c ≠ 35 ∧ c ≠ 63 := by
    rcases hc with rfl | rfl <;> decide
  rw [urlPath, urlField, hp, if_pos rfl, field_path rest hend,
    List.takeWhile_cons_of_pos (by simp [hne])]

/-- In origin form the splits are right when there is no `'#'` and one `'?'` at
most. -/
theorem decomposed_origin (l : RequestLine)
    (hpath : urlPath l.requestUrl = l.requestUrl.takeWhile (fun c => c ≠ 35 ∧ c ≠ 63))
    (hquery : urlQuery l.requestUrl = queryText l.requestUrl) :
    Decomposed l ↔ 35 ∉ l.requestUrl ∧ l.requestUrl.count 63 ≤ 1 := by
  have hclean : ∀ url : Bytes, 35 ∉ url.takeWhile (fun c => c ≠ 35 ∧ c ≠ 63) := by
    intro url hmem
    have hp := List.mem_takeWhile_imp hmem
    simp at hp
  by_cases hq : 63 ∈ l.requestUrl
  · obtain ⟨uri, tail, hurl, huri⟩ := List.eq_append_cons_of_mem hq
    have hcode := queryUrl_some l uri tail hurl huri
    have hcodeUri : l.getRequestUri = uri := by
      rw [getRequestUri_eq, hurl, StringStream.takeWhile_token 63 uri tail huri]
    constructor
    · intro h
      have hhash : 35 ∉ uri := by
        rw [← hcodeUri, h.path, hpath]
        exact hclean _
      have htail := h.query
      rw [hcode, hquery, hurl, queryText_some uri tail hhash huri, Option.some.injEq] at htail
      obtain ⟨hq', hh'⟩ := takeWhile_ne_eq (by decide) tail htail
      rw [hurl]
      refine ⟨by simp [hhash, hh'], ?_⟩
      rw [List.count_append, List.count_cons_self, List.count_eq_zero.mpr huri,
        List.count_eq_zero.mpr hq']
    · rintro ⟨hhash, hcount⟩
      rw [hurl] at hhash hcount
      simp only [List.mem_append, List.mem_cons, not_or] at hhash
      rw [List.count_append, List.count_cons_self, List.count_eq_zero.mpr huri] at hcount
      have hq' : 63 ∉ tail := List.count_eq_zero.mp (by omega)
      constructor
      · rw [hcodeUri, hpath, hurl, List.takeWhile_append_of_pos fun c hc => by
          simp [ne_of_mem_of_not_mem hc hhash.1, ne_of_mem_of_not_mem hc huri]]
        simp
      · rw [hcode, hquery, hurl, queryText_some uri tail hhash.1 huri,
          StringStream.takeWhile_last 63 tail hq', StringStream.takeWhile_last 35 tail hhash.2.2]
  · have hcodeUri : l.getRequestUri = l.requestUrl := by
      rw [getRequestUri_eq, StringStream.takeWhile_last 63 _ hq]
    constructor
    · intro h
      refine ⟨?_, by rw [List.count_eq_zero.mpr hq]; omega⟩
      rw [← hcodeUri, h.path, hpath]
      exact hclean _
    · rintro ⟨hhash, -⟩
      constructor
      · rw [hcodeUri, hpath]
        exact (List.takeWhile_eq_self_iff.mpr fun c hc => by
          simp [ne_of_mem_of_not_mem hc hhash, ne_of_mem_of_not_mem hc hq]).symm
      · rw [queryUrl_none l hq, hquery, queryText_none _ hq]

/-- **URL decomposition**: path and query are those of the target exactly when
it is in origin form, without a fragment and with at most one `'?'`. -/
theorem decomposed_iff (l : RequestLine) (h : acceptsUrl l.requestUrl = true) :
    Decomposed l ↔ PlainUrl l.requestUrl := by
  have hquery := query_text l.requestUrl h
  obtain ⟨c, rest, hurl, ⟨hp, hc, hend⟩ | ⟨hs, halpha, hend⟩⟩ := acceptsUrl_cases _ h
  · have hpath := urlPath_origin c rest hp hc hend
    rw [← hurl] at hpath
    have horigin : l.requestUrl.head? = some 47 ∨ l.requestUrl.head? = some 42 := by
      rw [hurl]
      exact hc.imp (congrArg some) (congrArg some)
    rw [decomposed_origin l hpath hquery]
    exact ⟨fun h => ⟨horigin, h.1, h.2⟩, fun h => ⟨h.fragment, h.query⟩⟩
  · -- a scheme: the code's path begins with its first letter
    obtain ⟨-, hq, hslash, hstar⟩ := isAlpha_ne halpha
    constructor
    · intro hd
      have hcode : l.getRequestUri.head? = some c := by
        rw [getRequestUri_eq, hurl, List.takeWhile_cons_of_pos (by simpa using hq)]
        rfl
      have hpath : urlPath l.requestUrl = urlField .path .schema rest := by
        rw [hurl, urlPath, urlField, hs, if_neg (by decide)]
      rw [hd.path, hpath] at hcode
      rcases field_path_front rest .schema (by simp [UrlState.inFront]) with hnil | hhead
      · rw [hnil] at hcode
        cases hcode
      · rw [hhead] at hcode
        exact absurd (Option.some.inj hcode).symm hslash
    · rintro ⟨horigin, -, -⟩
      rw [hurl, List.head?_cons, Option.some.injEq, Option.some.injEq] at horigin
      exact absurd horigin (by simp [hslash, hstar])

theorem decomposed_iff_plain :
    Decomposed { requestUrl := bytes "/a?b=c" } ↔ PlainUrl (bytes "/a?b=c") :=
  decomposed_iff { requestUrl := bytes "/a?b=c" } (by decide)

/-- The second `'?'` ends the query that is handed over. -/
theorem query_dropped :
    acceptsUrl (bytes "/a?b=c?d") = true ∧
      RequestLine.queryUrl { requestUrl := bytes "/a?b=c?d" } = some (bytes "b=c") ∧
      urlQuery (bytes "/a?b=c?d") = some (bytes "b=c?d") ∧
      ¬ Decomposed { requestUrl := bytes "/a?b=c?d" } := by
  have hcode : RequestLine.queryUrl { requestUrl := bytes "/a?b=c?d" } = some (bytes "b=c") := by
    decide
  have hurl : urlQuery (bytes "/a?b=c?d") = some (bytes "b=c?d") := by decide
  refine ⟨by decide, hcode, hurl, ?_⟩
  intro h
  have hquery := h.query
  rw [hcode, hurl] at hquery
  exact absurd hquery (by decide)

end Ehttp
