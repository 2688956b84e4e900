import Ehttp.Http.Traces

/-!
# The names `http_parser` knows

* `recognised_iff`: the header state behind a field name is that of a known
  name exactly if the name is this one, in any case and with any spaces behind;
* `method_exact`: a request line is read up to the URL exactly if it begins
  with one of the method names.
-/

namespace Ehttp.Http

open Lib

/-! ## Field names -/

def spaces (k : Nat) : Bytes := List.replicate k 32

def knownNames : List (Bytes × HeaderState) :=
  [(bytes "connection", .connection), (bytes "proxy-connection", .connection),
    (bytes "content-length", .contentLength), (bytes "transfer-encoding", .transferEncoding),
    (bytes "upgrade", .upgrade)]

/-- The name itself; a space is a token character. -/
def Is (name t : Bytes) : Prop := ∃ k, t = name ++ spaces k

/-- Some of a name, `least` bytes or more but not all. -/
structure Part (name : Bytes) (least : Nat) (t : Bytes) (index : Nat) : Prop where
  proper : ∃ rest, rest ≠ [] ∧ name = t ++ rest
  least : least ≤ t.length
  index : index + 1 = t.length

def Other (t : Bytes) : Prop := ∀ x ∈ knownNames, ¬ t <+: x.1 ∧ ¬ Is x.1 t

/-- What the header state tells of the tokens of a field name. -/
def Knows (t : Bytes) (s : HeaderState) (index : Nat) : Prop :=
  match s with
  | .general => Other t
  | .hC => t = bytes "c" ∧ index = 0
  | .hCO => t = bytes "co" ∧ index = 1
  | .hCON => t = bytes "con" ∧ index = 2
  | .matchingConnection => Part (bytes "connection") 4 t index
  | .matchingProxyConnection => Part (bytes "proxy-connection") 1 t index
  | .matchingContentLength => Part (bytes "content-length") 4 t index
  | .matchingTransferEncoding => Part (bytes "transfer-encoding") 1 t index
  | .matchingUpgrade => Part (bytes "upgrade") 1 t index
  | .connection => Is (bytes "connection") t ∨ Is (bytes "proxy-connection") t
  | .contentLength => Is (bytes "content-length") t
  | .transferEncoding => Is (bytes "transfer-encoding") t
  | .upgrade => Is (bytes "upgrade") t
  | _ => False

theorem spaces_succ (k : Nat) : spaces (k + 1) = spaces k ++ [32] := List.replicate_succ'

theorem knownNames_of_le : ∀ x ∈ knownNames, ∀ y ∈ knownNames, x.1 <+: y.1 → x.1 = y.1 := by
  decide

theorem knownNames_state : ∀ x ∈ knownNames, ∀ y ∈ knownNames, x.1 = y.1 → x.2 = y.2 := by
  decide

theorem Is.prefix_of {name t : Bytes} (h : Is name t) : name <+: t := by
  obtain ⟨k, rfl⟩ := h
  exact List.prefix_append ..

/-- One byte more: the end of the name, or a space behind it. -/
theorem is_snoc {name t : Bytes} {b : UInt8} (h : Is name (t ++ [b])) :
    t ++ [b] = name ∨ b = 32 ∧ Is name t := by
  obtain ⟨k, hk⟩ := h
  cases k with
  | zero => exact Or.inl (by simpa [spaces] using hk)
  | succ k =>
    rw [spaces_succ, ← List.append_assoc] at hk
    obtain ⟨ht, hb⟩ := List.append_inj' hk rfl
    exact Or.inr ⟨by simpa using hb, k, ht⟩

/-- A byte behind a part of a name that does not go on with it. -/
theorem other_snoc {t : Bytes} {b : UInt8} (hpart : ∀ x ∈ knownNames, ¬ t ++ [b] <+: x.1)
    (hwhole : ∀ x ∈ knownNames, b = 32 → ¬ Is x.1 t) : Other (t ++ [b]) := by
  refine fun x hx => ⟨hpart x hx, fun his => ?_⟩
  rcases is_snoc his with heq | ⟨hb, his⟩
  · exact hpart x hx (by rw [heq])
  · exact hwhole x hx hb his

theorem Other.snoc {t : Bytes} (h : Other t) (b : UInt8) : Other (t ++ [b]) :=
  other_snoc (fun x hx hpre => (h x hx).1 ((List.prefix_append t [b]).trans hpre))
    fun x hx _ his => (h x hx).2 his

/-- Behind a whole name only spaces are taken. -/
theorem Is.other {name t : Bytes} {s : HeaderState} (hname : (name, s) ∈ knownNames) (h : Is name t)
    {b : UInt8} (hb : b ≠ 32) : Other (t ++ [b]) := by
  refine other_snoc (fun x hx hpre => ?_) fun x hx hno => absurd hno hb
  have heq := knownNames_of_le (name, s) hname x hx
    (h.prefix_of.trans ((List.prefix_append t [b]).trans hpre))
  have hlen := hpre.length_le
  have hle := h.prefix_of.length_le
  rw [← heq, List.length_append, List.length_singleton] at hlen
  simp only at hlen
  omega

theorem Is.snoc {name t : Bytes} (h : Is name t) : Is name (t ++ [32]) := by
  obtain ⟨k, rfl⟩ := h
  exact ⟨k + 1, by rw [spaces_succ, List.append_assoc]⟩

/-- A part of a name is no known name. -/
theorem Part.not_is {name t : Bytes} {s : HeaderState} {least index : Nat}
    (hname : (name, s) ∈ knownNames) (h : Part name least t index) {x : Bytes × HeaderState}
    (hx : x ∈ knownNames) : ¬ Is x.1 t := by
  intro his
  obtain ⟨rest, hrest, hsplit⟩ := h.proper
  have hpre : x.1 <+: name := his.prefix_of.trans (by rw [hsplit]; exact List.prefix_append ..)
  have heq := knownNames_of_le x hx (name, s) hname hpre
  have hle := his.prefix_of.length_le
  have hpos := List.length_pos_iff.mpr hrest
  rw [heq, hsplit, List.length_append] at hle
  omega

/-- A name that begins with `least` bytes of `name` is `name`. -/
def Decided (name : Bytes) (least : Nat) : Prop :=
  ∀ x ∈ knownNames, name.take least <+: x.1 → x.1 = name

instance (name : Bytes) (least : Nat) : Decidable (Decided name least) :=
  inferInstanceAs (Decidable (∀ x ∈ knownNames, name.take least <+: x.1 → x.1 = name))

theorem Part.decided {name t : Bytes} {least index : Nat} (hdecided : Decided name least)
    (h : Part name least t index) {x : Bytes × HeaderState} (hx : x ∈ knownNames) (hpre : t <+: x.1) :
    x.1 = name := by
  obtain ⟨rest, -, hsplit⟩ := h.proper
  refine hdecided x hx (List.IsPrefix.trans ?_ hpre)
  rw [hsplit, List.take_append_of_le_length h.least]
  exact List.take_prefix ..

/-- **A step of `h_matching_*`.** -/
theorem Part.step {name t : Bytes} {matched : HeaderState} {least index : Nat}
    (hname : (name, matched) ∈ knownNames) (hshort : name.length < 128) (hdecided : Decided name least)
    (h : Part name least t index) (b : UInt8) (current : HeaderState) :
    let next := matchState name matched .general current ((index + 1) % 128) b
    (next = matched ∧ Is name (t ++ [b])) ∨
      (next = current ∧ Part name least (t ++ [b]) ((index + 1) % 128)) ∨
      (next = .general ∧ Other (t ++ [b])) := by
  obtain ⟨rest, hrest, hsplit⟩ := h.proper
  obtain ⟨r, rest, rfl⟩ := List.exists_cons_of_ne_nil hrest
  have hlen : name.length = t.length + (rest.length + 1) := by rw [hsplit]; simp
  have hindex : (index + 1) % 128 = t.length := by
    rw [h.index]
    exact Nat.mod_eq_of_lt (by omega)
  have hget : (name ++ [0])[t.length]? = some r := by
    rw [hsplit, List.append_assoc]
    simp
  simp only [hindex, matchState, hget]
  by_cases heq : r = b
  · subst heq
    rw [if_neg (by simp; omega)]
    by_cases hnil : rest = []
    · subst hnil
      rw [if_pos (by simp [hlen])]
      exact Or.inl ⟨rfl, 0, by simp [hsplit, spaces]⟩
    · have hpos := List.length_pos_iff.mpr hnil
      rw [if_neg (by omega)]
      refine Or.inr (Or.inl ⟨rfl, ⟨rest, hnil, by simp [hsplit]⟩, ?_, by simp⟩)
      have := h.least
      simp
      omega
  · rw [if_pos (Or.inr (by simpa using heq))]
    refine Or.inr (Or.inr ⟨rfl, other_snoc (fun x hx hpre => ?_) fun x hx _ => h.not_is hname hx⟩)
    have hx' := h.decided hdecided hx ((List.prefix_append t [b]).trans hpre)
    rw [hx', hsplit, List.prefix_append_right_inj] at hpre
    obtain ⟨back, hback⟩ := hpre
    exact heq (List.cons.inj hback).1.symm

theorem next_of_snoc {t l : Bytes} {b : UInt8} (h : t ++ [b] <+: l) :
    t <+: l ∧ l[t.length]? = some b := by
  obtain ⟨rest, rfl⟩ := h
  exact ⟨⟨b :: rest, by simp⟩, by simp⟩

/-- A short beginning of a name, and a byte that no name goes on with. -/
theorem other_short {t : Bytes} (hlen : t.length < 7) {b : UInt8}
    (h : ∀ x ∈ knownNames, t <+: x.1 → x.1[t.length]? ≠ some b) : Other (t ++ [b]) := by
  refine other_snoc (fun x hx hpre => h x hx (next_of_snoc hpre).1 (next_of_snoc hpre).2)
    fun x hx _ his => ?_
  have hlong : ∀ x ∈ knownNames, 7 ≤ x.1.length := by decide
  have := hlong x hx
  have := his.prefix_of.length_le
  omega

theorem token_space {ch : UInt8} : token ch = 32 ↔ ch = 32 := by
  constructor
  · intro h
    unfold token at h
    split at h
    · rename_i halpha
      simp only [isAlpha, decide_eq_true_eq] at halpha
      rw [h] at halpha
      exact absurd halpha.1 (by decide)
    · split at h
      · exact h
      · cases h
  · rintro rfl
    decide

/-- **A byte of a name.** -/
theorem knows_fieldChar {t : Bytes} {c c' : Parser} {ch : UInt8} (h : Knows t c.headerState c.index)
    (hc : fieldChar c ch (token ch) = some c') :
    Knows (t ++ [token ch]) c'.headerState c'.index := by
  have hmatch : ∀ (matched : HeaderState) {name : Bytes} {current : HeaderState} {least : Nat},
      (name, matched) ∈ knownNames → name.length < 128 → Decided name least →
      c.headerState = current → Part name least t c.index →
      (∀ {u : Bytes} {i : Nat}, Is name u → Knows u matched i) →
      (∀ {u : Bytes} {i : Nat}, Part name least u i → Knows u current i) →
      c' = matchName name matched .general c (token ch) →
      Knows (t ++ [token ch]) c'.headerState c'.index := by
    rintro matched name current least hname hshort hdecided hcurrent hpart hwhole hmore rfl
    have hstep := hpart.step hname hshort hdecided (token ch) current
    simp only [matchName, Parser.nextIndex, hcurrent]
    rcases hstep with ⟨hs, his⟩ | ⟨hs, hpart'⟩ | ⟨hs, hother⟩
    · rw [hs]
      exact hwhole his
    · rw [hs]
      exact hmore hpart'
    · rw [hs]
      exact hother
  have hdone : ∀ (s : HeaderState) {name : Bytes}, (name, s) ∈ knownNames → Is name t →
      (∀ {u : Bytes} {i : Nat}, Is name u → Knows u s i) →
      c' = { c with headerState := if ch ≠ 32 then .general else s } →
      Knows (t ++ [token ch]) c'.headerState c'.index := by
    rintro s name hname his hknows rfl
    by_cases hspace : ch = 32
    · subst hspace
      exact hknows his.snoc
    · rw [if_pos hspace]
      exact his.other hname fun htoken => hspace (token_space.mp htoken)
  unfold fieldChar at hc
  cases hs : c.headerState <;> rw [hs] at h <;> simp only [hs, Option.some.injEq] at hc <;>
    try contradiction
  case general =>
    subst hc
    rw [hs]
    exact Other.snoc h _
  case hC =>
    have hnext : ∀ x ∈ knownNames, bytes "c" <+: x.1 → x.1[(bytes "c").length]? = some 111 := by
      decide
    subst hc
    obtain ⟨rfl, hindex⟩ := h
    simp only [Parser.nextIndex, hindex]
    split
    · rename_i ho
      rw [ho]
      exact ⟨by decide, by decide⟩
    · rename_i ho
      refine other_short (by decide) fun x hx hpre hget => ho ?_
      rw [hnext x hx hpre] at hget
      exact (Option.some.inj hget).symm
  case hCO =>
    have hnext : ∀ x ∈ knownNames, bytes "co" <+: x.1 → x.1[(bytes "co").length]? = some 110 := by
      decide
    subst hc
    obtain ⟨rfl, hindex⟩ := h
    simp only [Parser.nextIndex, hindex]
    split
    · rename_i hn
      rw [hn]
      exact ⟨by decide, by decide⟩
    · rename_i hn
      refine other_short (by decide) fun x hx hpre hget => hn ?_
      rw [hnext x hx hpre] at hget
      exact (Option.some.inj hget).symm
  case hCON =>
    have hnext : ∀ x ∈ knownNames, bytes "con" <+: x.1 →
        x.1[(bytes "con").length]? = some 110 ∨ x.1[(bytes "con").length]? = some 116 := by
      decide
    subst hc
    obtain ⟨rfl, hindex⟩ := h
    simp only [Parser.nextIndex, hindex]
    split
    · rename_i hn
      rw [hn]
      exact ⟨⟨bytes "ection", by decide, by decide⟩, by decide, by decide⟩
    · split
      · rename_i ht
        rw [ht]
        exact ⟨⟨bytes "ent-length", by decide, by decide⟩, by decide, by decide⟩
      · rename_i hn ht
        refine other_short (by decide) fun x hx hpre hget => ?_
        rcases hnext x hx hpre with hget' | hget' <;> rw [hget'] at hget
        · exact hn (Option.some.inj hget).symm
        · exact ht (Option.some.inj hget).symm
  case matchingConnection =>
    exact hmatch .connection (by decide) (by decide) (by decide) hs h Or.inl
      (fun hp => hp) hc.symm
  case matchingProxyConnection =>
    exact hmatch .connection (by decide) (by decide) (by decide) hs h Or.inr
      (fun hp => hp) hc.symm
  case matchingContentLength =>
    exact hmatch .contentLength (by decide) (by decide) (by decide) hs h
      (fun hw => hw) (fun hp => hp) hc.symm
  case matchingTransferEncoding =>
    exact hmatch .transferEncoding (by decide) (by decide) (by decide) hs h
      (fun hw => hw) (fun hp => hp) hc.symm
  case matchingUpgrade =>
    exact hmatch .upgrade (by decide) (by decide) (by decide) hs h
      (fun hw => hw) (fun hp => hp) hc.symm
  case connection =>
    rcases h with h | h
    · exact hdone .connection (by decide) h Or.inl hc.symm
    · exact hdone .connection (by decide) h Or.inr hc.symm
  case contentLength =>
    exact hdone .contentLength (by decide) h (fun hw => hw) hc.symm
  case transferEncoding =>
    exact hdone .transferEncoding (by decide) h (fun hw => hw) hc.symm
  case upgrade => exact hdone .upgrade (by decide) h (fun hw => hw) hc.symm

/-- **The first byte.** -/
theorem knows_first (b : UInt8) : Knows [token b] (firstHeaderState (token b)) 0 := by
  have hfirst : ∀ x ∈ knownNames,
      x.1[0]? = some 99 ∨ x.1[0]? = some 112 ∨ x.1[0]? = some 116 ∨ x.1[0]? = some 117 := by
    decide
  unfold firstHeaderState
  split
  · rename_i h
    rw [h]
    exact ⟨by decide, rfl⟩
  · split
    · rename_i h
      rw [h]
      exact ⟨⟨bytes "roxy-connection", by decide, by decide⟩, by decide, by decide⟩
    · split
      · rename_i h
        rw [h]
        exact ⟨⟨bytes "ransfer-encoding", by decide, by decide⟩, by decide, by decide⟩
      · split
        · rename_i h
          rw [h]
          exact ⟨⟨bytes "pgrade", by decide, by decide⟩, by decide, by decide⟩
        · rename_i hc hp ht hu
          refine other_short (t := []) (by decide) fun x hx _ hget => ?_
          rcases hfirst x hx with h | h | h | h <;> rw [List.length_nil, h, Option.some.injEq] at hget
          · exact hc hget.symm
          · exact hp hget.symm
          · exact ht hget.symm
          · exact hu hget.symm

theorem Knows.ofField {t : Bytes} {s : HeaderState} {index : Nat} (h : Knows t s index) :
    s.ofField = true := by
  cases s <;> first | rfl | exact absurd h id

theorem scan_name {t : Bytes} {c : Parser} (hs : c.state = .headerField)
    (h : Knows t c.headerState c.index) (name : Bytes) (htoken : ∀ b ∈ name, token b ≠ 0)
    (hfit : c.nread + name.length ≤ maxHeaderSize) :
    ∃ s i, scan byteStep c name = some (name.map fun b => .pass [b],
        { c with headerState := s, index := i, nread := c.nread + name.length }) ∧
      Knows (t ++ name.map token) s i := by
  induction name generalizing c t with
  | nil => exact ⟨c.headerState, c.index, rfl, by simpa using h⟩
  | cons ch name ih =>
    have hch := htoken ch (List.mem_cons_self ..)
    simp only [List.length_cons] at hfit
    obtain ⟨c', hc', -⟩ := fieldChar_ofField h.ofField ch (token ch)
    have hframe := fieldChar_frame hc'
    have hnread : c'.nread = c.nread := by rw [hframe]
    have hnext := knows_fieldChar h hc'
    obtain ⟨s, i, hscan, hknows⟩ := ih (c := c'.count 1) (by rw [count_state, hframe]; exact hs)
      hnext (fun b hb => htoken b (List.mem_cons_of_mem _ hb))
      (by rw [count_nread, hnread]; omega)
    refine ⟨s, i, ?_, by simpa using hknows⟩
    rw [Scan.scan_cons, byteStep_fieldChar hs ch hch, if_pos (by omega), hc', Option.map_some,
      Option.bind_some, hscan, Option.map_some, hframe]
    simp [Parser.count, Nat.add_assoc, Nat.add_comm 1]

/-- The first byte of a header line. -/
theorem byteStep_nameStart {c : Parser} (hs : c.state = .headerFieldStart) {ch : UInt8}
    (hch : token ch ≠ 0) (hfit : c.nread + 1 ≤ maxHeaderSize) :
    byteStep c ch = some ([c.mark .headerField, .pass [ch]], { c.count 1 with
      index := 0, state := .headerField, headerState := firstHeaderState (token ch) }) := by
  have hcr : ch ≠ CR := by
    rintro rfl
    exact hch (by decide)
  have hlf : ch ≠ LF := by
    rintro rfl
    exact hch (by decide)
  rw [byteStep_header (by rw [hs]; rfl) (upgraded_of_ne (by rw [hs]; decide))]
  simp only [step, move, count_state, hs, sHeaderFieldStart, hcr, hlf, hch, ↓reduceIte]
  rw [if_pos ⟨hfit, Or.inl rfl⟩]
  rfl

/-- Names that are told apart from others. -/
theorem Knows.iff {t : Bytes} {s : HeaderState} {index : Nat} (h : Knows t s index)
    {x : Bytes × HeaderState} (hx : x ∈ knownNames) :
    s = x.2 ↔ ∃ y ∈ knownNames, y.2 = x.2 ∧ Is y.1 t := by
  have hshort : ∀ y ∈ knownNames, 7 ≤ y.1.length := by decide
  have hlast : ∀ x ∈ knownNames, x.2 = .connection ∨ x.2 = .contentLength ∨
      x.2 = .transferEncoding ∨ x.2 = .upgrade := by decide
  constructor
  · rintro rfl
    have hfound : ∃ y ∈ knownNames, y.2 = x.2 ∧ Is y.1 t := by
      rcases hlast x hx with hs | hs | hs | hs <;> rw [hs] at h ⊢
      · rcases h with h | h
        · exact ⟨(bytes "connection", .connection), by decide, rfl, h⟩
        · exact ⟨(bytes "proxy-connection", .connection), by decide, rfl, h⟩
      · exact ⟨(bytes "content-length", .contentLength), by decide, rfl, h⟩
      · exact ⟨(bytes "transfer-encoding", .transferEncoding), by decide, rfl, h⟩
      · exact ⟨(bytes "upgrade", .upgrade), by decide, rfl, h⟩
    exact hfound
  · rintro ⟨y, hy, hsame, his⟩
    rw [← hsame]
    have hlong := (hshort y hy).trans his.prefix_of.length_le
    have hpart : ∀ (s' : HeaderState) {name : Bytes} {least : Nat}, (name, s') ∈ knownNames →
        Part name least t index → s = y.2 := fun _ _ _ hname hpart => absurd his (hpart.not_is hname hy)
    have hwhole : ∀ {name : Bytes}, (name, s) ∈ knownNames → Is name t → s = y.2 := by
      intro name hname his'
      rcases List.prefix_or_prefix_of_prefix his.prefix_of his'.prefix_of with hpre | hpre
      · exact knownNames_state (name, s) hname y hy (knownNames_of_le y hy (name, s) hname hpre).symm
      · exact knownNames_state (name, s) hname y hy (knownNames_of_le (name, s) hname y hy hpre)
    cases s <;> try exact absurd h id
    case general => exact absurd his (h y hy).2
    case hC | hCO | hCON =>
      obtain ⟨rfl, -⟩ := h
      exact absurd hlong (by decide)
    case matchingConnection | matchingProxyConnection =>
      exact hpart .connection (by decide) h
    case matchingContentLength => exact hpart .contentLength (by decide) h
    case matchingTransferEncoding => exact hpart .transferEncoding (by decide) h
    case matchingUpgrade => exact hpart .upgrade (by decide) h
    case connection =>
      rcases h with h | h
      · exact hwhole (by decide) h
      · exact hwhole (by decide) h
    case contentLength | transferEncoding | upgrade => exact hwhole (by decide) h

/-- **Known names.**  Behind a field name the header state is that of a known
name exactly if the tokens are that name and any number of spaces. -/
theorem recognised_iff (c : Parser) (hs : c.state = .headerFieldStart) (name : Bytes) (hne : name ≠ [])
    (htoken : ∀ b ∈ name, token b ≠ 0) (hfit : c.nread + name.length ≤ maxHeaderSize) :
    ∃ ops c', scan byteStep c name = some (ops, c') ∧ c'.state = .headerField ∧
      ∀ x ∈ knownNames, c'.headerState = x.2 ↔
        ∃ y ∈ knownNames, y.2 = x.2 ∧ ∃ k, name.map token = y.1 ++ spaces k := by
  obtain ⟨ch, rest, rfl⟩ := List.exists_cons_of_ne_nil hne
  simp only [List.length_cons] at hfit
  have hfirst := byteStep_nameStart hs (htoken ch (List.mem_cons_self ..)) (by omega)
  obtain ⟨s, i, hscan, hknows⟩ := scan_name (t := [token ch])
    (c := { c.count 1 with index := 0, state := .headerField, headerState := firstHeaderState (token ch) })
    rfl (knows_first ch) rest (fun b hb => htoken b (List.mem_cons_of_mem _ hb))
    (by simp only [count_nread]; omega)
  refine ⟨_, _, by rw [Scan.scan_cons, hfirst, Option.bind_some, hscan, Option.map_some], rfl, ?_⟩
  exact fun x hx => hknows.iff hx

theorem recognised_iff_length :
    ∃ ops c, scan byteStep { httpParserInit with state := .headerFieldStart } (bytes "cOnTent-LENGTH  ") =
        some (ops, c) ∧ c.headerState = .contentLength := by
  obtain ⟨ops, c, hscan, -, hstate⟩ := recognised_iff { httpParserInit with state := .headerFieldStart }
    rfl (bytes "cOnTent-LENGTH  ") (by decide) (by decide +kernel) (by decide)
  have hname : (bytes "cOnTent-LENGTH  ").map token = bytes "content-length" ++ spaces 2 := by decide
  refine ⟨ops, c, hscan, (hstate (bytes "content-length", .contentLength) (by decide)).mpr ?_⟩
  exact ⟨_, by decide, rfl, 2, hname⟩

/-! ## Methods -/

theorem firstMethod_take : ∀ x ∈ firstMethod, [x.1] <+: httpMethodStr x.2 := by decide

theorem nextMethod_take : ∀ x ∈ nextMethod,
    (httpMethodStr x.1.1).take x.1.2.1 ++ [x.1.2.2] <+: httpMethodStr x.2 := by decide

theorem httpMethodStr_short (m : HttpMethod) : (httpMethodStr m).length < 127 := by
  cases m <;> decide

/-- The letters read are the first of the method. -/
structure InMethod (w : Bytes) (c : Parser) : Prop where
  state : c.state = .reqMethod
  index : c.index = w.length
  read : w <+: httpMethodStr c.method

theorem InMethod.nextIndex {w : Bytes} {c : Parser} (h : InMethod w c) : (c.index + 1) % 128 = w.length + 1 := by
  have := h.read.length_le
  have := httpMethodStr_short c.method
  rw [h.index]
  exact Nat.mod_eq_of_lt (by omega)

/-- The character of the name at the index, 0 behind the last. -/
theorem InMethod.char {w : Bytes} {c : Parser} (h : InMethod w c) :
    (∃ m, (httpMethodStr c.method ++ [0])[c.index]? = some m ∧ w ++ [m] <+: httpMethodStr c.method) ∨
      ((httpMethodStr c.method ++ [0])[c.index]? = some 0 ∧ w = httpMethodStr c.method) := by
  obtain ⟨rest, hrest⟩ := h.read
  rw [← hrest, h.index]
  cases rest with
  | nil => exact Or.inr ⟨by simp, by simp⟩
  | cons m rest => exact Or.inl ⟨m, by simp, by simp⟩

/-- A letter of the method. -/
theorem InMethod.step {w : Bytes} {c c' : Parser} (h : InMethod w c) {ch : UInt8} (hch : ch ≠ 32)
    {ops : List Op} (hb : byteStep c ch = some (ops, c')) : InMethod (w ++ [ch]) c' := by
  obtain ⟨-, -, -, rfl, hout⟩ := byteStep_eq hb
  rw [countByte_header (by rw [h.state]; rfl)] at hout ⊢
  simp only [Http.step, count_state, h.state, move] at hout ⊢
  have hnext : ∀ {d : Parser}, InMethod w d → w ++ [ch] <+: httpMethodStr d.method →
      InMethod (w ++ [ch]) d.nextIndex := by
    intro d hd hread
    exact ⟨hd.state, by simp [Parser.nextIndex, hd.nextIndex], hread⟩
  have hcount : InMethod w (c.count 1) := ⟨h.state, h.index, h.read⟩
  unfold sReqMethod at hout ⊢
  split at hout
  · simp at hout
  · rename_i hzero
    rw [if_neg hzero]
    split at hout
    · simp at hout
    · rename_i m hm
      rw [if_neg (by simp [hch])] at hout ⊢
      split at hout
      · rename_i heq
        rw [if_pos heq]
        refine hnext hcount ?_
        rcases hcount.char with ⟨m', hm', hread⟩ | ⟨hm', -⟩
        · rw [hm] at hm'
          rw [heq, Option.some.inj hm']
          exact hread
        · rw [hm] at hm'
          exact absurd (heq.trans (Option.some.inj hm')) hzero
      · rename_i hne
        rw [if_neg hne]
        split at hout
        · rename_i hupper
          rw [if_pos hupper]
          split at hout
          · simp at hout
          · rename_i method hmethod
            have htake := nextMethod_take _ (lookup_mem hmethod)
            have hread : w ++ [ch] <+: httpMethodStr method := by
              have hw : (httpMethodStr c.method).take c.index = w := by
                rw [h.index, ← List.prefix_iff_eq_take.mp h.read]
              simpa only [Parser.count, hw] using htake
            exact hnext ⟨h.state, h.index, (List.prefix_append ..).trans hread⟩ hread
        · simp at hout

/-- The space behind the method. -/
theorem InMethod.ended {w : Bytes} {c c' : Parser} (h : InMethod w c) {ops : List Op}
    (hb : byteStep c 32 = some (ops, c')) : w = httpMethodStr c'.method ∧ c'.state = .reqUrl .spacesBeforeUrl := by
  obtain ⟨-, -, -, rfl, hout⟩ := byteStep_eq hb
  rw [countByte_header (by rw [h.state]; rfl)] at hout ⊢
  simp only [Http.step, count_state, h.state, move] at hout ⊢
  have hcount : InMethod w (c.count 1) := ⟨h.state, h.index, h.read⟩
  have hletters : ∀ m, ∀ b ∈ httpMethodStr m, b ≠ 32 := by
    intro m
    cases m <;> decide +kernel
  unfold sReqMethod at hout ⊢
  rw [if_neg (by decide)] at hout ⊢
  rcases hcount.char with ⟨m, hm, hread⟩ | ⟨hm, hw⟩
  · -- the name goes on, with a letter that is not a space
    have hspace := hletters _ m (hread.subset (by simp))
    simp only [hm] at hout
    rw [if_neg, if_neg (Ne.symm hspace), if_neg (by decide)] at hout
    · simp at hout
    · rintro ⟨-, rfl⟩
      have hzero : ∀ m, (0 : UInt8) ∉ httpMethodStr m := by
        intro m
        cases m <;> decide
      exact hzero _ (hread.subset (by simp))
  · simp only [hm, and_self, ↓reduceIte]
    exact ⟨hw, rfl⟩

/-- The first letter. -/
theorem inMethod_first {c c' : Parser} (hs : c.state = .startReq) {ch : UInt8} (hcr : ch ≠ CR)
    (hlf : ch ≠ LF) {ops : List Op} (hb : byteStep c ch = some (ops, c')) : InMethod [ch] c' := by
  obtain ⟨-, -, -, rfl, hout⟩ := byteStep_eq hb
  rw [countByte_header (by rw [hs]; rfl)] at hout ⊢
  simp only [Http.step, count_state, hs, move] at hout ⊢
  unfold sStartReq at hout ⊢
  rw [if_neg (by simp [hcr, hlf])] at hout ⊢
  simp only at hout ⊢
  split at hout
  · simp at hout
  · rename_i halpha
    rw [if_neg halpha]
    split at hout
    · simp at hout
    · rename_i method hmethod
      exact ⟨rfl, rfl, firstMethod_take _ (lookup_mem hmethod)⟩

theorem inMethod_scan {w v : Bytes} {c c' : Parser} (h : InMethod w c) (hspace : 32 ∉ v) {ops : List Op}
    (hscan : scan byteStep c v = some (ops, c')) : InMethod (w ++ v) c' := by
  induction v generalizing w c ops with
  | nil =>
    simp only [scan, Option.some.injEq, Prod.mk.injEq] at hscan
    rw [← hscan.2, List.append_nil]
    exact h
  | cons ch v ih =>
    obtain ⟨_, c₁, _, hb, hrest, rfl⟩ := Scan.scan_cons_some byteStep hscan
    simp only [List.mem_cons, not_or] at hspace
    have hnext := ih (h.step (Ne.symm hspace.1) hb) hspace.2 hrest
    simpa using hnext

/-- The letters of a method and a space. -/
theorem scan_method (m : HttpMethod) :
    scan byteStep httpParserInit (httpMethodStr m ++ [32]) =
      some ((httpMethodStr m ++ [32]).map fun b => .pass [b], { httpParserInit with
        method := m
        state := .reqUrl .spacesBeforeUrl
        contentLength := ULLONG_MAX
        index := (httpMethodStr m).length + 1
        nread := (httpMethodStr m).length + 1 }) := by
  cases m <;> rfl

/-- **Methods.**  A word without spaces is taken for a method exactly if it is
the name of one, letter for letter. -/
theorem method_exact (w : Bytes) (hspace : 32 ∉ w)
    (hstart : ∀ b, w.head? = some b → b ≠ CR ∧ b ≠ LF) (m : HttpMethod) :
    (∃ ops c, scan byteStep httpParserInit (w ++ [32]) = some (ops, c) ∧ c.method = m) ↔
      w = httpMethodStr m := by
  constructor
  · rintro ⟨ops, c, hscan, rfl⟩
    cases w with
    | nil => cases hscan
    | cons ch w =>
      obtain ⟨hcr, hlf⟩ := hstart ch rfl
      simp only [List.mem_cons, not_or] at hspace
      rw [List.cons_append] at hscan
      obtain ⟨_, c₁, _, hb, hrest, -⟩ := Scan.scan_cons_some byteStep hscan
      rw [Scan.scan_append] at hrest
      obtain ⟨⟨_, c₂⟩, hword, hlast⟩ := Option.bind_eq_some_iff.mp hrest
      obtain ⟨⟨_, c₃⟩, hend, heq⟩ := Option.map_eq_some_iff.mp hlast
      cases heq
      obtain ⟨_, c₄, _, hb', hnil, -⟩ := Scan.scan_cons_some byteStep hend
      simp only [scan, Option.some.injEq, Prod.mk.injEq] at hnil
      rw [← hnil.2]
      exact ((inMethod_scan (inMethod_first rfl hcr hlf hb) hspace.2 hword).ended hb').1
  · rintro rfl
    exact ⟨_, _, scan_method m, rfl⟩

theorem method_exact_get :
    (∃ ops c, scan byteStep httpParserInit (bytes "GET" ++ [32]) = some (ops, c) ∧ c.method = .get) ↔
      bytes "GET" = httpMethodStr .get :=
  method_exact _ (by decide +kernel) (by decide +kernel) .get

end Ehttp.Http
