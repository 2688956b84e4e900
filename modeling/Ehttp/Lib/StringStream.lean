import Mathlib.Data.List.TakeWhile

/-!
# `std::stringstream`

The part of the C++ string stream that parsers and output cursors use: a
buffer, one get position and the flags `eofbit` and `failbit`.  The element
type is arbitrary.

* `read_full`, `read_short`: a block read returns the slice at the get
  position and raises both flags exactly when the slice is short;
* `seekg_within`: a seek inside the buffer moves the get position;
* `getlines_eq_pieces`: the loop `while (std::getline(ss, token, d))` splits
  the unread text at `d` and drops an empty last piece (`pieces_eq_splitOn`).
-/

namespace Lib

/-- `badbit` is left out: no operation below sets it. -/
structure StringStream (α : Type) where
  buf : List α := []
  gpos : Nat := 0
  eof : Bool := false
  fail : Bool := false
  deriving DecidableEq, Repr

namespace StringStream

variable {α : Type}

def ofBuf (l : List α) : StringStream α := { buf := l }

def good (s : StringStream α) : Bool := !s.eof && !s.fail

def clear (s : StringStream α) : StringStream α := { s with eof := false, fail := false }

/-- The bytes not read yet. -/
def rest (s : StringStream α) : List α := s.buf.drop s.gpos

/-- `os << l`; a stream that is not good takes nothing. -/
def put (s : StringStream α) (l : List α) : StringStream α :=
  if s.good then { s with buf := s.buf ++ l } else s

/-- `is.read(buffer, n)`; the first component is the buffer up to `gcount()`. -/
def read (s : StringStream α) (n : Nat) : List α × StringStream α :=
  if s.good then
    let got := s.rest.take n
    if got.length < n then (got, { s with gpos := s.gpos + got.length, eof := true, fail := true })
    else (got, { s with gpos := s.gpos + n })
  else ([], { s with fail := true })

/-- `is.tellg()`: the sentry it builds fails on a stream that is not good. -/
def tellg (s : StringStream α) : Int × StringStream α :=
  if s.good then (s.gpos, s) else (-1, { s with fail := true })

/-- `is.seekg(pos)`: clears `eofbit`, then fails outside the buffer. -/
def seekg (s : StringStream α) (pos : Int) : StringStream α :=
  if s.fail then { s with eof := false }
  else if 0 ≤ pos ∧ pos ≤ s.buf.length then { s with gpos := pos.toNat, eof := false }
  else { s with eof := false, fail := true }

/-- `std::getline(is, token, d)`; the first component is `token`. -/
def getline [DecidableEq α] (s : StringStream α) (d : α) : List α × StringStream α :=
  if s.good then
    let token := s.rest.takeWhile (· ≠ d)
    if token.length < s.rest.length then (token, { s with gpos := s.gpos + token.length + 1 })
    else (token, { s with gpos := s.gpos + token.length, eof := true, fail := token.isEmpty })
  else ([], { s with fail := true })

/-! ## Block reads and seeks -/

theorem good_iff (s : StringStream α) : s.good = true ↔ s.eof = false ∧ s.fail = false := by
  simp [good]

theorem read_fst (s : StringStream α) (n : Nat) (hs : s.good = true) :
    (s.read n).1 = s.rest.take n := by
  unfold read
  simp only [hs, ↓reduceIte]
  split <;> rfl

/-- A read that asks for at most what is left only moves the get position. -/
theorem read_full (s : StringStream α) (n : Nat) (hs : s.good = true) (hn : n ≤ s.rest.length) :
    (s.read n).2 = { s with gpos := s.gpos + n } := by
  unfold read
  have h : ¬ (s.rest.take n).length < n := by simp only [List.length_take]; omega
  simp only [hs, ↓reduceIte, h]

/-- A read past the end delivers the rest and raises both flags. -/
theorem read_short (s : StringStream α) (n : Nat) (hs : s.good = true) (hn : s.rest.length < n) :
    (s.read n).2 = { s with gpos := s.gpos + s.rest.length, eof := true, fail := true } := by
  unfold read
  have ht : s.rest.take n = s.rest := List.take_of_length_le (by omega)
  simp only [hs, ↓reduceIte, ht, hn]

theorem seekg_within (s : StringStream α) (p : Nat) (hf : s.fail = false) (hp : p ≤ s.buf.length) :
    s.seekg p = { s with gpos := p, eof := false } := by
  have h : (0 : Int) ≤ p ∧ (p : Int) ≤ s.buf.length := ⟨by omega, by omega⟩
  simp [seekg, hf, h]

theorem rest_advance (s : StringStream α) (d : α) (tok l : List α) (hr : s.rest = tok ++ d :: l) :
    rest { s with gpos := s.gpos + tok.length + 1 } = l := by
  have h : s.buf.drop (s.gpos + (tok.length + 1)) = s.rest.drop (tok.length + 1) := by
    simp [rest, List.drop_drop]
  simp only [rest, Nat.add_assoc]
  rw [h, hr]
  simp [List.drop_append]

/-! ## Splitting by `getline` -/

/-- Reading by `getline` loses a last piece that is empty. -/
def dropEmptyLast : List (List α) → List (List α)
  | [] => []
  | [x] => if x = [] then [] else [x]
  | x :: y :: ls => x :: dropEmptyLast (y :: ls)

theorem dropEmptyLast_cons (x : List α) (ls : List (List α)) (h : ls ≠ []) :
    dropEmptyLast (x :: ls) = x :: dropEmptyLast ls := by
  cases ls with
  | nil => exact absurd rfl h
  | cons y ls => rfl

theorem getElem?_dropEmptyLast (ls : List (List α)) (i : Nat) (t : List α) (ht : t ≠ []) :
    (dropEmptyLast ls)[i]? = some t ↔ ls[i]? = some t := by
  induction ls generalizing i with
  | nil => rfl
  | cons x ls ih =>
    cases ls with
    | nil =>
      by_cases hx : x = []
      · cases i <;> simp [dropEmptyLast, hx, ht.symm]
      · simp [dropEmptyLast, hx]
    | cons y ls =>
      cases i with
      | zero => rfl
      | succ i => simpa [dropEmptyLast] using ih i

section Lines

variable [DecidableEq α]

/-! What stands before the first delimiter, and behind it. -/

theorem takeWhile_token (d : α) (tok l : List α) (h : d ∉ tok) :
    (tok ++ d :: l).takeWhile (· ≠ d) = tok := by
  rw [List.takeWhile_append_of_pos fun c hc => by simpa using ne_of_mem_of_not_mem hc h]
  simp

theorem takeWhile_last (d : α) (tok : List α) (h : d ∉ tok) : tok.takeWhile (· ≠ d) = tok :=
  List.takeWhile_eq_self_iff.mpr fun c hc => by simpa using ne_of_mem_of_not_mem hc h

theorem dropWhile_token (d : α) (tok l : List α) (h : d ∉ tok) :
    (tok ++ d :: l).dropWhile (· ≠ d) = d :: l := by
  rw [List.dropWhile_append_of_pos fun c hc => by simpa using ne_of_mem_of_not_mem hc h]
  simp

theorem dropWhile_last (d : α) (tok : List α) (h : d ∉ tok) : tok.dropWhile (· ≠ d) = [] :=
  List.dropWhile_eq_nil_iff.mpr fun c hc => by simpa using ne_of_mem_of_not_mem hc h

/-- A text is cut at its first delimiter in one way. -/
theorem token_unique (d : α) (tok tok' l l' : List α) (h : d ∉ tok) (h' : d ∉ tok')
    (heq : tok ++ d :: l = tok' ++ d :: l') : tok = tok' ∧ l = l' := by
  have htok : tok = tok' := by
    rw [← takeWhile_token d tok l h, heq, takeWhile_token d tok' l' h']
  rw [htok, List.append_cancel_left_eq, List.cons.injEq] at heq
  exact ⟨htok, heq.2⟩

/-- `while (std::getline(ss, token, d)) tokens.push_back(token);` for at most
`fuel` rounds. -/
def getlines (d : α) : Nat → StringStream α → List (List α)
  | 0, _ => []
  | fuel + 1, s =>
    let (token, s') := s.getline d
    if s'.fail then [] else token :: getlines d fuel s'

/-- The pieces of `l` between the `d`s; an empty last piece is dropped, and
`cur` is what the first piece holds already. -/
def pieces (d : α) (cur : List α) : List α → List (List α)
  | [] => if cur = [] then [] else [cur]
  | c :: l => if c = d then cur :: pieces d [] l else pieces d (cur ++ [c]) l

/-- What is not the delimiter goes to the first piece. -/
theorem pieces_append (d : α) (tok l : List α) (h : d ∉ tok) (cur : List α) :
    pieces d cur (tok ++ l) = pieces d (cur ++ tok) l := by
  induction tok generalizing cur with
  | nil => rw [List.nil_append, List.append_nil]
  | cons c tok ih =>
    have hc : c ≠ d := fun e => h (by simp [e])
    have ht : d ∉ tok := fun e => h (by simp [e])
    rw [List.cons_append, pieces, if_neg hc, ih ht, List.append_assoc, List.singleton_append]

theorem pieces_token (d : α) (tok l : List α) (h : d ∉ tok) (cur : List α) :
    pieces d cur (tok ++ d :: l) = (cur ++ tok) :: pieces d [] l := by
  rw [pieces_append d tok _ h, pieces, if_pos rfl]

theorem pieces_last (d : α) (tok : List α) (h : d ∉ tok) (cur : List α) :
    pieces d cur tok = if cur ++ tok = [] then [] else [cur ++ tok] := by
  have happend := pieces_append d tok [] h cur
  rw [List.append_nil] at happend
  rw [happend, pieces]

/-- The pieces are the fields of `List.splitOn`. -/
theorem pieces_eq_splitOn (d : α) (l : List α) :
    pieces d [] l = dropEmptyLast (l.splitOn d) := by
  induction hn : l.length using Nat.strongRecOn generalizing l with
  | ind n ih =>
    by_cases hd : d ∈ l
    · obtain ⟨tok, m, rfl, htok⟩ := List.eq_append_cons_of_mem hd
      rw [pieces_token d tok m htok, List.splitOn_append_cons_self_of_not_mem htok,
        dropEmptyLast_cons _ _ (List.splitOn_ne_nil d m), List.nil_append,
        ih m.length (by rw [← hn]; simp; omega) m rfl]
    · rw [pieces_last d l hd, List.splitOn_eq_singleton hd]
      rfl

/-- A piece with text in it is the field of that number. -/
theorem getElem?_pieces (d : α) (l : List α) (i : Nat) (t : List α) (ht : t ≠ []) :
    (pieces d [] l)[i]? = some t ↔ (l.splitOn d)[i]? = some t := by
  rw [pieces_eq_splitOn, getElem?_dropEmptyLast _ _ _ ht]

/-- The first piece: up to a delimiter, or the whole text. -/
theorem pieces_eq_cons (d : α) (l t : List α) (ts : List (List α)) :
    pieces d [] l = t :: ts ↔ d ∉ t ∧
      (l = t ∧ t ≠ [] ∧ ts = [] ∨ ∃ m, l = t ++ d :: m ∧ pieces d [] m = ts) := by
  constructor
  · intro h
    by_cases hd : d ∈ l
    · obtain ⟨tok, m, rfl, htok⟩ := List.eq_append_cons_of_mem hd
      rw [pieces_token d tok m htok, List.nil_append, List.cons.injEq] at h
      exact ⟨h.1 ▸ htok, Or.inr ⟨m, by rw [h.1], h.2⟩⟩
    · rw [pieces_last d l hd, List.nil_append] at h
      by_cases hl : l = []
      · simp [hl] at h
      · simp only [hl, ↓reduceIte, List.cons.injEq] at h
        exact ⟨h.1 ▸ hd, Or.inl ⟨h.1, h.1 ▸ hl, h.2.symm⟩⟩
  · rintro ⟨hd, ⟨rfl, hne, rfl⟩ | ⟨m, rfl, rfl⟩⟩
    · rw [pieces_last d l hd, List.nil_append, if_neg hne]
    · rw [pieces_token d t m hd, List.nil_append]

theorem pieces_eq_nil (d : α) (l : List α) : pieces d [] l = [] ↔ l = [] := by
  constructor
  · intro h
    by_cases hd : d ∈ l
    · obtain ⟨tok, m, rfl, htok⟩ := List.eq_append_cons_of_mem hd
      simp [pieces_token d tok m htok] at h
    · by_cases hl : l = []
      · exact hl
      · simp [pieces_last d l hd, hl] at h
  · rintro rfl
    rfl

theorem not_mem_of_mem_pieces (d : α) (l t : List α) (h : t ∈ pieces d [] l) : d ∉ t := by
  obtain ⟨front, back, hp⟩ := List.append_of_mem h
  induction front generalizing l with
  | nil => exact ((pieces_eq_cons d l t back).mp hp).1
  | cons u front ih =>
    obtain ⟨-, ⟨-, -, hnil⟩ | ⟨m, -, hm⟩⟩ := (pieces_eq_cons d l u _).mp hp
    · simp at hnil
    · exact ih m (by rw [hm]; simp) hm

/-- Every piece stands in the text. -/
theorem infix_of_mem_pieces (d : α) (l t : List α) (h : t ∈ pieces d [] l) : t <:+: l := by
  obtain ⟨front, back, hp⟩ := List.append_of_mem h
  induction front generalizing l with
  | nil =>
    obtain ⟨-, ⟨rfl, -, -⟩ | ⟨m, rfl, -⟩⟩ := (pieces_eq_cons d l t _).mp hp
    · exact List.infix_refl l
    · exact (List.prefix_append t (d :: m)).isInfix
  | cons u front ih =>
    obtain ⟨-, ⟨-, -, hnil⟩ | ⟨m, rfl, hm⟩⟩ := (pieces_eq_cons d l u _).mp hp
    · simp at hnil
    · have hsuffix : m <:+ u ++ d :: m := ⟨u ++ [d], by simp⟩
      exact (ih m (by rw [hm]; simp) hm).trans hsuffix.isInfix

theorem getline_fst (s : StringStream α) (d : α) (hs : s.good = true) :
    (s.getline d).1 = s.rest.takeWhile (· ≠ d) := by
  unfold getline
  rw [if_pos hs]
  dsimp only
  split <;> rfl

/-- `getline` in the middle of the buffer: the token, and the delimiter is consumed. -/
theorem getline_token (s : StringStream α) (d : α) (tok l : List α) (hs : s.good = true)
    (hr : s.rest = tok ++ d :: l) (h : d ∉ tok) :
    s.getline d = (tok, { s with gpos := s.gpos + tok.length + 1 }) := by
  have hlt : tok.length < (tok ++ d :: l).length := by simp
  simp only [getline, hs, ↓reduceIte, hr, takeWhile_token d tok l h, hlt]

/-- `getline` that meets the end of the buffer: it fails only on no character at all. -/
theorem getline_last (s : StringStream α) (d : α) (hs : s.good = true) (h : d ∉ s.rest) :
    s.getline d = (s.rest, { s with
      gpos := s.gpos + s.rest.length, eof := true, fail := s.rest.isEmpty }) := by
  simp only [getline, hs, ↓reduceIte, takeWhile_last d s.rest h, Nat.lt_irrefl]

/-- **Fuel is enough.**  With one round more than there are unread elements
the loop returns every piece. -/
theorem getlines_eq_pieces (d : α) (fuel : Nat) (s : StringStream α) (hs : s.good = true)
    (hf : s.rest.length < fuel) : getlines d fuel s = pieces d [] s.rest := by
  induction fuel generalizing s with
  | zero => omega
  | succ fuel ih =>
    obtain ⟨he, hfl⟩ := (good_iff s).mp hs
    by_cases hd : d ∈ s.rest
    · obtain ⟨tok, l, hr, htok⟩ := List.eq_append_cons_of_mem hd
      have hrest := rest_advance s d tok l hr
      have hgood : good { s with gpos := s.gpos + tok.length + 1 } = true := by simp [good, he, hfl]
      have hlen : (rest { s with gpos := s.gpos + tok.length + 1 }).length < fuel := by
        rw [hrest]
        have := congrArg List.length hr
        simp only [List.length_append, List.length_cons] at this
        omega
      simp only [getlines, getline_token s d tok l hs hr htok, hfl, Bool.false_eq_true, ↓reduceIte]
      have := ih _ hgood hlen
      simp only [hfl] at this hrest
      rw [this, hrest, hr, pieces_token d tok l htok, List.nil_append]
    · -- the last piece: `getline` meets the end of the buffer
      rw [pieces_last d s.rest hd]
      simp only [getlines, getline_last s d hs hd, List.nil_append, List.isEmpty_iff]
      by_cases hnil : s.rest = []
      · simp [hnil]
      · simp only [hnil, ↓reduceIte]
        cases fuel with
        | zero => rfl
        | succ fuel => simp [getlines, getline, good]

end Lines

end StringStream

end Lib
