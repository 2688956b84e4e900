import Ehttp.Request

/-!
# `parse_query_url` on any text

* `parseQueryUrl_eq`: the pairs it adds, from the fields between the `'&'`s and
  the `'='`s;
* `form_grammar_iff`: they are those of the form grammar exactly when no segment
  is empty or holds two `'='`.
-/

namespace Ehttp

open Lib

/-! ## The two loops -/

/-- The rounds of the inner loop: the fields between the `'='`s are taken two at
a time. -/
def fieldPairs : List Bytes → List (Bytes × Bytes)
  | [] => []
  | [key] => [(key, [])]
  | key :: value :: fields => (key, value) :: fieldPairs fields

def segmentPairs (segment : Bytes) : List (Bytes × Bytes) := fieldPairs (segment.splitOn 61)

/-- What `parse_query_url` adds. -/
def queryPairs (query : Bytes) : List (Bytes × Bytes) := (query.splitOn 38).flatMap segmentPairs

namespace RequestParam

/-- A loop on a stream that is at its end makes no round. -/
theorem keyValueLoop_end (fuel : Nat) (s : StringStream UInt8) (hs : s.good = false)
    (p : RequestParam) : keyValueLoop fuel s p = p := by
  cases fuel with
  | zero => rfl
  | succ fuel => simp [keyValueLoop, hs]

theorem keyValueLoop_eq (fuel : Nat) (s : StringStream UInt8) (hs : s.good = true)
    (hf : s.rest.length < fuel) (p : RequestParam) :
    keyValueLoop fuel s p = { params := p.params ++ fieldPairs (s.rest.splitOn 61) } := by
  induction fuel generalizing s p with
  | zero => omega
  | succ fuel ih =>
    rw [keyValueLoop, if_pos hs]
    by_cases hkey : 61 ∈ s.rest
    · obtain ⟨key, tail, hr, hk⟩ := List.eq_append_cons_of_mem hkey
      have hrest := StringStream.rest_advance s 61 key tail hr
      rw [StringStream.getline_token s 61 key tail hs hr hk, hr,
        List.splitOn_append_cons_self_of_not_mem hk]
      obtain ⟨s₁, hs₁⟩ : ∃ s₁ : StringStream UInt8, { s with gpos := s.gpos + key.length + 1 } = s₁ :=
        ⟨_, rfl⟩
      have hgood : s₁.good = true := hs₁ ▸ hs
      simp only [hs₁]
      rw [hs₁] at hrest
      by_cases hvalue : 61 ∈ tail
      · obtain ⟨value, tail', ht, hv⟩ := List.eq_append_cons_of_mem hvalue
        have hrest' := StringStream.rest_advance s₁ 61 value tail' (hrest.trans ht)
        have hgood' : StringStream.good { s₁ with gpos := s₁.gpos + value.length + 1 } = true :=
          hgood
        have hlen : tail'.length < fuel := by
          have := congrArg List.length hr
          simp only [ht, List.length_append, List.length_cons] at this
          omega
        rw [StringStream.getline_token s₁ 61 value tail' hgood (hrest.trans ht) hv, ht,
          List.splitOn_append_cons_self_of_not_mem hv]
        simp only
        rw [ih _ hgood' (by rw [hrest']; exact hlen), hrest']
        simp [addParamPair, StdMultimap.insert, fieldPairs]
      · rw [StringStream.getline_last s₁ 61 hgood (by rw [hrest]; exact hvalue), hrest,
          List.splitOn_eq_singleton hvalue]
        simp only
        rw [keyValueLoop_end fuel _ rfl]
        rfl
    · -- the last field: the value is read from a stream at its end
      rw [StringStream.getline_last s 61 hs hkey, List.splitOn_eq_singleton hkey]
      simp only
      have hvalue : ∀ t : StringStream UInt8, t.good = false →
          t.getline 61 = ([], { t with fail := true }) := by
        intro t ht
        simp [StringStream.getline, ht]
      rw [hvalue _ rfl]
      simp only
      rw [keyValueLoop_end fuel _ (by simp [StringStream.good])]
      rfl

theorem queryLoop_eq (fuel : Nat) (s : StringStream UInt8) (hs : s.good = true)
    (hf : s.rest.length < fuel) (p : RequestParam) :
    queryLoop fuel s p = { params := p.params ++ queryPairs s.rest } := by
  have hsegment : ∀ (segment : Bytes) (p : RequestParam),
      keyValueLoop (segment.length + 1) (StringStream.ofBuf segment) p =
        { params := p.params ++ segmentPairs segment } := by
    intro segment p
    exact keyValueLoop_eq _ (StringStream.ofBuf segment) rfl (Nat.lt_succ_self _) p
  induction fuel generalizing s p with
  | zero => omega
  | succ fuel ih =>
    rw [queryLoop, if_pos hs]
    by_cases hamp : 38 ∈ s.rest
    · obtain ⟨segment, tail, hr, hseg⟩ := List.eq_append_cons_of_mem hamp
      have hrest := StringStream.rest_advance s 38 segment tail hr
      have hgood : StringStream.good { s with gpos := s.gpos + segment.length + 1 } = true := hs
      have hlen : tail.length < fuel := by
        have := congrArg List.length hr
        simp only [List.length_append, List.length_cons] at this
        omega
      rw [StringStream.getline_token s 38 segment tail hs hr hseg]
      simp only
      rw [hsegment, ih _ hgood (by rw [hrest]; exact hlen), hrest, hr, queryPairs, queryPairs,
        List.splitOn_append_cons_self_of_not_mem hseg]
      simp
    · rw [StringStream.getline_last s 38 hs hamp, queryPairs, List.splitOn_eq_singleton hamp]
      simp only
      rw [hsegment]
      cases fuel with
      | zero => simp [queryLoop]
      | succ fuel => simp [queryLoop, StringStream.good]

/-- **What `parse_query_url` adds.** -/
theorem parseQueryUrl_eq (p : RequestParam) (query : Bytes) :
    p.parseQueryUrl query = (0, { params := p.params ++ queryPairs query }) := by
  have hrest : (StringStream.ofBuf query).rest = query := rfl
  rw [parseQueryUrl, queryLoop_eq _ (StringStream.ofBuf query) rfl (by rw [hrest]; omega), hrest]

end RequestParam

/-! ## The form grammar -/

/-- A segment split at its first `'='`. -/
def splitFirst (segment : Bytes) : Bytes × Bytes :=
  (segment.takeWhile (· ≠ 61), (segment.dropWhile (· ≠ 61)).drop 1)

/-- The pairs a form text stands for: one for each segment with text in it. -/
def formPairs (query : Bytes) : List (Bytes × Bytes) :=
  ((query.splitOn 38).filter (· ≠ [])).map splitFirst

/-- The segment has text and at most one `'='`. -/
def OnePair (segment : Bytes) : Prop := segment ≠ [] ∧ segment.count 61 ≤ 1

theorem fieldPairs_length (fields : List Bytes) :
    (fieldPairs fields).length = (fields.length + 1) / 2 := by
  induction fields using fieldPairs.induct with
  | case1 => rfl
  | case2 key => simp [fieldPairs]
  | case3 key value fields ih =>
    simp only [fieldPairs, List.length_cons, ih]
    omega

theorem length_splitOn (d : UInt8) (l : Bytes) : (l.splitOn d).length = l.count d + 1 := by
  induction l with
  | nil => rfl
  | cons c l ih =>
    rw [List.splitOn_cons_eq_if_modifyHead]
    split
    · rename_i hc
      rw [beq_iff_eq] at hc
      simp [hc, ih]
    · rename_i hc
      simp only [beq_iff_eq] at hc
      simp [hc, ih]

/-- A segment of `k` `'='`s is made into `k / 2 + 1` pairs. -/
theorem segmentPairs_length (segment : Bytes) :
    (segmentPairs segment).length = segment.count 61 / 2 + 1 := by
  rw [segmentPairs, fieldPairs_length, length_splitOn]
  omega

theorem segmentPairs_onePair (segment : Bytes) (h : OnePair segment) :
    segmentPairs segment = [splitFirst segment] := by
  by_cases hd : 61 ∈ segment
  · obtain ⟨key, value, rfl, hkey⟩ := List.eq_append_cons_of_mem hd
    have hvalue : 61 ∉ value := by
      have hcount := h.2
      rw [List.count_append, List.count_cons_self] at hcount
      exact List.count_eq_zero.mp (by omega)
    rw [segmentPairs, List.splitOn_append_cons_self_of_not_mem hkey,
      List.splitOn_eq_singleton hvalue, splitFirst, StringStream.takeWhile_token 61 key value hkey,
      StringStream.dropWhile_token 61 key value hkey]
    rfl
  · rw [segmentPairs, List.splitOn_eq_singleton hd, splitFirst,
      StringStream.takeWhile_last 61 segment hd, StringStream.dropWhile_last 61 segment hd]
    rfl

theorem queryPairs_onePair (segments : List Bytes) (h : ∀ segment ∈ segments, OnePair segment) :
    segments.flatMap segmentPairs = (segments.filter (· ≠ [])).map splitFirst := by
  induction segments with
  | nil => rfl
  | cons segment segments ih =>
    have hs := h segment (by simp)
    rw [List.flatMap_cons, segmentPairs_onePair segment hs,
      ih fun s hm => h s (List.mem_cons_of_mem _ hm),
      List.filter_cons_of_pos (by simpa using hs.1)]
    rfl

/-- Each segment is made into a pair at least, so a segment made into two, or
an empty one made into a pair, is one pair too many. -/
theorem queryPairs_length (segments : List Bytes)
    (h : (segments.flatMap segmentPairs).length =
      ((segments.filter (· ≠ [])).map splitFirst).length) :
    ∀ segment ∈ segments, OnePair segment := by
  have hle : ∀ segments : List Bytes, (segments.filter (· ≠ [])).length ≤
      (segments.flatMap segmentPairs).length := by
    intro segments
    induction segments with
    | nil => exact Nat.le_refl 0
    | cons segment segments ih =>
      have hlen := segmentPairs_length segment
      rw [List.flatMap_cons, List.length_append, hlen, List.filter_cons]
      split
      · rw [List.length_cons]
        omega
      · omega
  induction segments with
  | nil => simp
  | cons segment segments ih =>
    have hlen := segmentPairs_length segment
    have htail := hle segments
    rw [List.flatMap_cons, List.length_append, hlen, List.length_map, List.filter_cons] at h
    rw [List.length_map] at ih
    split at h
    · rename_i hne
      simp only [ne_eq, decide_not, Bool.not_eq_eq_eq_not, Bool.not_true,
        decide_eq_false_iff_not] at hne
      rw [List.length_cons] at h
      intro s hs
      rcases List.mem_cons.mp hs with rfl | hs
      · exact ⟨hne, by omega⟩
      · exact ih (by omega) s hs
    · omega

/-- **The form grammar**: `parse_query_url` adds for each name the values sent
under it exactly when every segment has text and at most one `'='`. -/
theorem form_grammar_iff (query : Bytes) :
    (∀ p : RequestParam, (p.parseQueryUrl query).1 = 0 ∧
      ∀ name, (p.parseQueryUrl query).2.getParams name =
        p.getParams name ++ StdMultimap.equalRange (formPairs query) name) ↔
      ∀ segment ∈ query.splitOn 38, OnePair segment := by
  constructor
  · intro h
    apply queryPairs_length
    have hrange : ∀ name, StdMultimap.equalRange (queryPairs query) name =
        StdMultimap.equalRange (formPairs query) name := by
      intro name
      have hname := (h {}).2 name
      rw [RequestParam.parseQueryUrl_eq] at hname
      simpa [RequestParam.getParams, StdMultimap.equalRange] using hname
    exact (StdMultimap.perm_of_equalRange _ _ hrange).length_eq
  · intro h p
    rw [RequestParam.parseQueryUrl_eq, queryPairs, queryPairs_onePair _ h]
    refine ⟨rfl, ?_⟩
    intro name
    exact StdMultimap.equalRange_append _ _ name

/-- A value is cut at its second `'='`, and the rest becomes another pair. -/
theorem value_cut_at_equals :
    ¬ ∀ p : RequestParam, (p.parseQueryUrl (bytes "t=a=b")).1 = 0 ∧
      ∀ name, (p.parseQueryUrl (bytes "t=a=b")).2.getParams name =
        p.getParams name ++ StdMultimap.equalRange (formPairs (bytes "t=a=b")) name := by
  intro h
  have ht := (h {}).2 (bytes "t")
  exact absurd ht (by decide)

end Ehttp
