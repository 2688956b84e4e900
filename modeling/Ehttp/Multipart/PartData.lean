import Ehttp.Lib.Delimiter
import Ehttp.Multipart.Parser

/-!
# The data of a part

The four data states of the multipart parser are a search for CRLF and the
boundary.  What is matched of it lies in `lookbehind`; what was read but not yet
reported is the pending text.

* `step_partData`: one byte does to both what `Delimiter.step` does;
* `read_partData`: data without the delimiter is reported byte for byte.
-/

namespace Ehttp

open Lib

/-- What ends the data of a part. -/
def delimiter (boundary : Bytes) : Bytes := CR :: LF :: boundary

namespace MultipartParser

open MultipartState MultipartEvent

/-- The parser has matched `k` bytes of the delimiter, with `pending` read
before them and not yet reported. -/
inductive PartDataAt (boundary : Bytes) (k : Nat) (pending : Bytes) (p : MultipartParser) : Prop
  | data : p.multipartBoundary = boundary → p.state = sPartData → k = 0 → pending = p.seg →
      PartDataAt boundary k pending p
  | almost : p.multipartBoundary = boundary → p.state = sPartDataAlmostBoundary →
      p.lookbehind = [CR] → k = 1 → pending = [] → PartDataAt boundary k pending p
  | boundary : p.multipartBoundary = boundary → p.state = sPartDataBoundary →
      p.index < boundary.length → p.lookbehind = CR :: LF :: boundary.take p.index →
      k = 2 + p.index → pending = [] → PartDataAt boundary k pending p
  | ended : p.state = sPartDataAlmostEnd → k = 2 + boundary.length → pending = [] →
      PartDataAt boundary k pending p

/-- The notification for a full match. -/
def partDataOver (boundary : Bytes) (k : Nat) : List MultipartEvent :=
  if k = (delimiter boundary).length then [partDataEnd] else []

theorem length_delimiter (boundary : Bytes) :
    (delimiter boundary).length = 2 + boundary.length := by
  simp only [delimiter, List.length_cons]
  omega

/-- What a byte does in state `k` of the search: `out` becomes known as data. -/
def Advances (boundary : Bytes) (pending : Bytes) (p : MultipartParser) (c : UInt8) (out : Bytes)
    (k' : Nat) : Prop :=
  ∃ (datas : List Bytes) (pending' : Bytes) (p' : MultipartParser),
    p.step c false = some (datas.map partData ++ partDataOver boundary k', p') ∧
    datas.flatten ++ pending' = pending ++ out ∧ PartDataAt boundary k' pending' p'

section Step

variable (boundary : Bytes) (p : MultipartParser) (c : UInt8)

theorem partDataOver_lt (k : Nat) (h : k < 2 + boundary.length) : partDataOver boundary k = [] := by
  rw [partDataOver, length_delimiter, if_neg (Nat.ne_of_lt h)]

/-- A byte in `s_part_data`, also as it is put back there. -/
theorem stepPartData_at (hb : p.multipartBoundary = boundary) (hs : p.state = sPartData) :
    ∃ (datas : List Bytes) (pending : Bytes), (p.stepPartData c false).1 = datas.map partData ∧
      datas.flatten ++ pending = p.seg ++ (if c = CR then [] else [c]) ∧
      PartDataAt boundary (if c = CR then 1 else 0) pending (p.stepPartData c false).2 := by
  unfold stepPartData
  by_cases hc : c = CR
  · refine ⟨[p.seg], [], by simp [hc], by simp [hc], ?_⟩
    simp only [hc, ↓reduceIte]
    exact .almost hb rfl rfl rfl rfl
  · refine ⟨[], p.seg ++ [c], by simp [hc], by simp [hc], ?_⟩
    simp only [hc, ↓reduceIte]
    exact .data hb hs rfl rfl

/-- A byte that breaks off a match of `k` bytes. -/
theorem putBack_at (k : Nat) (hb : p.multipartBoundary = boundary)
    (hl : p.lookbehind = (delimiter boundary).take k) :
    ∃ (datas : List Bytes) (pending : Bytes), (p.putBack k c false).1 = datas.map partData ∧
      datas.flatten ++ pending = (delimiter boundary).take k ++ (if c = CR then [] else [c]) ∧
      PartDataAt boundary (if c = CR then 1 else 0) pending (p.putBack k c false).2 := by
  obtain ⟨datas, pending, hes, htext, hat⟩ :=
    stepPartData_at boundary { p with state := sPartData, seg := [] } c hb rfl
  refine ⟨(delimiter boundary).take k :: datas, pending, ?_, by simpa using htext, hat⟩
  have hput : (p.putBack k c false).1 = partData (p.lookbehind.take k) ::
      (({ p with state := sPartData, seg := [] } : MultipartParser).stepPartData c false).1 := rfl
  rw [hput, hes, hl, List.take_take, Nat.min_self]
  rfl

theorem advances_data (hne : boundary ≠ []) (hb : p.multipartBoundary = boundary)
    (hs : p.state = sPartData) :
    Advances boundary p.seg p c (if c = CR then [] else [c]) (if c = CR then 1 else 0) := by
  obtain ⟨datas, pending', hes, htext, hat⟩ := stepPartData_at boundary p c hb hs
  refine ⟨datas, pending', (p.stepPartData c false).2, ?_, htext, hat⟩
  have hpos : 0 < boundary.length := List.length_pos_iff.mpr hne
  rw [partDataOver_lt boundary _ (by split <;> omega), List.append_nil, ← hes]
  simp only [step, hs]

/-- The two states that put the byte back. -/
theorem advances_putBack (k : Nat) (hne : boundary ≠ []) (hb : p.multipartBoundary = boundary)
    (hl : p.lookbehind = (delimiter boundary).take k)
    (hstep : p.step c false = some (p.putBack k c false)) :
    Advances boundary [] p c ((delimiter boundary).take k ++ (if c = CR then [] else [c]))
      (if c = CR then 1 else 0) := by
  obtain ⟨datas, pending', hes, htext, hat⟩ := putBack_at boundary p c k hb hl
  refine ⟨datas, pending', (p.putBack k c false).2, ?_, htext, hat⟩
  have hpos : 0 < boundary.length := List.length_pos_iff.mpr hne
  rw [partDataOver_lt boundary _ (by split <;> omega), List.append_nil, ← hes, hstep]

theorem advances_lf (hne : boundary ≠ []) (hb : p.multipartBoundary = boundary)
    (hs : p.state = sPartDataAlmostBoundary) (hl : p.lookbehind = [CR]) :
    Advances boundary [] p LF [] 2 := by
  have hpos : 0 < boundary.length := List.length_pos_iff.mpr hne
  refine ⟨[], [], { p with
    state := sPartDataBoundary, lookbehind := p.lookbehind.take 1 ++ [LF], index := 0 }, ?_, rfl, ?_⟩
  · rw [partDataOver_lt boundary 2 (by omega)]
    simp [step, hs]
  · exact .boundary hb rfl hpos (by simp [hl]) rfl rfl

/-- A byte of the boundary, the last one or one before it. -/
theorem advances_boundary (hb : p.multipartBoundary = boundary) (hs : p.state = sPartDataBoundary)
    (hl : p.lookbehind = CR :: LF :: boundary.take p.index) (hc : boundary[p.index]? = some c) :
    Advances boundary [] p c [] (2 + p.index + 1) := by
  have hi : p.index < boundary.length := (List.getElem?_eq_some_iff.mp hc).1
  by_cases hend : p.index + 1 = boundary.length
  · have hk : 2 + p.index + 1 = 2 + boundary.length := by omega
    refine ⟨[], [], { p with
      lookbehind := p.lookbehind.take (2 + p.index) ++ [c], index := p.index + 1,
      state := sPartDataAlmostEnd }, ?_, rfl, ?_⟩
    · simp [step, hs, hb, hc, hend, partDataOver, length_delimiter, hk]
    · exact .ended rfl hk rfl
  · have htake : (CR :: LF :: boundary.take p.index).take (2 + p.index) =
        CR :: LF :: boundary.take p.index := by
      apply List.take_of_length_le
      simp only [List.length_cons, List.length_take]
      omega
    refine ⟨[], [], { p with
      lookbehind := p.lookbehind.take (2 + p.index) ++ [c], index := p.index + 1 }, ?_, rfl, ?_⟩
    · rw [partDataOver_lt boundary _ (by omega)]
      simp [step, hs, hb, hc, hend]
    · refine .boundary hb hs ?_ ?_ rfl rfl
      · show p.index + 1 < boundary.length
        omega
      · show p.lookbehind.take (2 + p.index) ++ [c] = CR :: LF :: boundary.take (p.index + 1)
        rw [hl, htake, List.take_add_one, hc]
        rfl

end Step

/-- **One byte** in a data state. -/
theorem step_partData (boundary : Bytes) (hne : boundary ≠ []) (k : Nat) (pending : Bytes)
    (p : MultipartParser) (h : PartDataAt boundary k pending p) (c : UInt8) (out : Bytes) (k' : Nat)
    (hstep : Delimiter.step (delimiter boundary) k c = some (out, k')) :
    Advances boundary pending p c out k' := by
  have hlen := length_delimiter boundary
  have hmiss : (delimiter boundary)[k]? ≠ some c → k < (delimiter boundary).length →
      (delimiter boundary).take k ++ (if c = CR then [] else [c]) = out ∧
        (if c = CR then 1 else 0) = k' := by
    intro hc hk
    simpa [delimiter] using (Delimiter.step_miss CR (LF :: boundary) k c hk hc).symm.trans hstep
  have hnext : (delimiter boundary)[k]? = some c → [] = out ∧ k + 1 = k' := by
    intro hc
    simpa using (Delimiter.step_match _ k c hc).symm.trans hstep
  cases h with
  | data hb hs hk hp =>
    subst hk hp
    have hout : (if c = CR then [] else [c]) = out ∧ (if c = CR then 1 else 0) = k' := by
      by_cases hc : c = CR
      · simpa [hc] using hnext (by simp [delimiter, hc])
      · simpa using hmiss (by simpa [delimiter] using fun e => hc e.symm) (by omega)
    obtain ⟨rfl, rfl⟩ := hout
    exact advances_data boundary p c hne hb hs
  | almost hb hs hl hk hp =>
    subst hk hp
    by_cases hc : c = LF
    · obtain ⟨rfl, rfl⟩ := hnext (by simp [delimiter, hc])
      rw [hc]
      exact advances_lf boundary p hne hb hs hl
    · obtain ⟨rfl, rfl⟩ := hmiss (by simpa [delimiter] using fun e => hc e.symm) (by omega)
      exact advances_putBack boundary p c 1 hne hb hl (by simp only [step, hs, hc, ↓reduceIte])
  | boundary hb hs hi hl hk hp =>
    subst hk hp
    have hget : (delimiter boundary)[2 + p.index]? = boundary[p.index]? := by
      rw [Nat.add_comm]
      rfl
    by_cases hc : boundary[p.index]? = some c
    · obtain ⟨rfl, rfl⟩ := hnext (by rwa [hget])
      exact advances_boundary boundary p c hb hs hl hc
    · obtain ⟨rfl, rfl⟩ := hmiss (by rwa [hget]) (by omega)
      apply advances_putBack boundary p c (2 + p.index) hne hb
      · rw [hl, Nat.add_comm]
        rfl
      · simp only [step, hs, hb, ne_eq, hc, not_false_eq_true, ↓reduceIte]
  | ended _ hk _ => simp [Delimiter.step, hlen, hk] at hstep

theorem PartDataAt.over {boundary pending : Bytes} {p : MultipartParser} (hne : boundary ≠ [])
    (h : PartDataAt boundary (delimiter boundary).length pending p) :
    pending = [] ∧ p.state = sPartDataAlmostEnd := by
  have hpos := List.length_pos_iff.mpr hne
  rw [length_delimiter] at h
  cases h with
  | data _ _ hk _ => omega
  | almost _ _ _ hk _ => omega
  | boundary _ _ hi _ hk _ => omega
  | ended hs _ hp => exact ⟨hp, hs⟩

/-- The search, byte by byte. -/
theorem scan_partData (boundary : Bytes) (hne : boundary ≠ []) (l : Bytes) (k : Nat)
    (pending out : Bytes) (p : MultipartParser) (h : PartDataAt boundary k pending p)
    (hk : k < (delimiter boundary).length)
    (hscan : scan (Delimiter.step (delimiter boundary)) k l =
      some (out, (delimiter boundary).length)) :
    ∃ (datas : List Bytes) (p' : MultipartParser),
      p.read l = some (datas.map partData ++ [partDataEnd], p') ∧
      datas.flatten = pending ++ out ∧ p'.state = sPartDataAlmostEnd := by
  induction l generalizing k pending out p with
  | nil =>
    simp only [scan, Option.some.injEq, Prod.mk.injEq] at hscan
    omega
  | cons c l ih =>
    obtain ⟨fst, k₁, rest, hc, hl, rfl⟩ := Scan.scan_cons_some _ hscan
    obtain ⟨datas, pending', q, hq, htext, hat⟩ :=
      step_partData boundary hne k pending p h c fst k₁ hc
    by_cases hend : k₁ = (delimiter boundary).length
    · -- the search stops here, so nothing is left
      rw [hend] at hl hat hq
      obtain ⟨rfl, rfl⟩ := Delimiter.scan_matched _ hl
      obtain ⟨rfl, hstate⟩ := hat.over hne
      refine ⟨datas, q, ?_, by simpa using htext, hstate⟩
      simp [read, scan, hq, partDataOver]
    · have hlt := Nat.lt_of_le_of_ne (Delimiter.step_le _ hk hc) hend
      obtain ⟨datas', q', hread, hdata, hstate⟩ := ih k₁ pending' rest q hat hlt hl
      refine ⟨datas ++ datas', q', ?_, ?_, hstate⟩
      · rw [read] at hread
        simp [read, Scan.scan_cons, hq, hread, partDataOver, hend]
      · rw [List.flatten_append, hdata, ← List.append_assoc, htext, List.append_assoc]

/-- **Part data**, from its first byte on: fragments that add up to the data,
whatever it holds short of the delimiter. -/
theorem read_partData (boundary d : Bytes) (hne : boundary ≠ []) (hcr : CR ∉ boundary)
    (hd : ¬ delimiter boundary <:+: d) (p : MultipartParser) (hb : p.multipartBoundary = boundary)
    (hs : p.state = sPartDataStart) :
    ∃ (datas : List Bytes) (p' : MultipartParser), p.read (d ++ delimiter boundary) =
        some (headersComplete :: datas.map partData ++ [partDataEnd], p') ∧
      datas.flatten = d ∧ p'.state = sPartDataAlmostEnd := by
  have hstart : ∀ c, p.step c false =
      (({ p with seg := [], state := sPartData } : MultipartParser).step c false).map
        fun r => (headersComplete :: r.1, r.2) := by
    intro c
    simp only [step, hs, Option.map_some]
  have hfound := Delimiter.scan_found CR (LF :: boundary)
    (by simpa using ⟨by decide, hcr⟩) d hd
  obtain ⟨datas, p', hread, hdata, hstate⟩ := scan_partData boundary hne (d ++ delimiter boundary) 0
    [] d { p with seg := [], state := sPartData } (.data hb rfl rfl rfl) (by simp [delimiter]) hfound
  refine ⟨datas, p', ?_, by simpa using hdata, hstate⟩
  obtain ⟨c, l, hl⟩ : ∃ c l, d ++ delimiter boundary = c :: l :=
    List.exists_cons_of_ne_nil (by simp [delimiter])
  rw [hl] at hread ⊢
  rw [read] at hread
  obtain ⟨es, q, gs, hc, hr, hes⟩ := Scan.scan_cons_some _ hread
  rw [read, Scan.scan_cons, hstart, hc]
  simp only [Option.bind_some, Option.map_some, hr, hes, List.cons_append]

end MultipartParser

end Ehttp
