import Ehttp.Lib.CString

/-!
# A reader of HTTP/1.1 responses

Status line, header lines up to the empty one, and the body that the headers
frame: as long as the one Content-Length says, and none behind a 1xx, 204 or 304.
Lines end with CRLF and hold neither of the two; space around a value is not part
of it; a Transfer-Encoding is refused.

* `readHead_text`: a head that is well formed is read back;
* `readHead_wellFormed`: the status line that is read back was well formed.
-/

namespace Lib

/-! ## Splitting -/

/-- The bytes before the first `d`, and those behind it. -/
def cut (d : UInt8) : Bytes → Option (Bytes × Bytes)
  | [] => none
  | c :: s => if c = d then some ([], s) else (cut d s).map fun p => (c :: p.1, p.2)

theorem cut_append (d : UInt8) (a b : Bytes) (h : d ∉ a) : cut d (a ++ d :: b) = some (a, b) := by
  induction a with
  | nil => simp [cut]
  | cons c a ih =>
    have hc : c ≠ d := fun e => h (e ▸ List.mem_cons_self)
    have ha : d ∉ a := fun e => h (List.mem_cons_of_mem _ e)
    simp [cut, hc, ih ha]

theorem cut_some (d : UInt8) (s a b : Bytes) (h : cut d s = some (a, b)) :
    s = a ++ d :: b ∧ d ∉ a := by
  induction s generalizing a with
  | nil => cases h
  | cons c s ih =>
    rw [cut] at h
    split at h
    · rename_i hc
      cases h
      exact ⟨by rw [hc]; rfl, List.not_mem_nil⟩
    · rename_i hc
      obtain ⟨⟨a', b'⟩, hcut, hpair⟩ := Option.map_eq_some_iff.mp h
      cases hpair
      obtain ⟨rfl, ha⟩ := ih a' hcut
      exact ⟨rfl, by simp [Ne.symm hc, ha]⟩

def skipLf : Bytes → Option Bytes
  | [] => none
  | c :: s => if c = LF then some s else none

/-- The line before the first CRLF, and the bytes behind it. -/
def readLine : Bytes → Option (Bytes × Bytes)
  | [] => none
  | c :: s =>
    if c = CR then (skipLf s).map fun s => ([], s)
    else if c = LF then none
    else (readLine s).map fun p => (c :: p.1, p.2)

/-- Neither CR nor LF. -/
def isLine (l : Bytes) : Prop := CR ∉ l ∧ LF ∉ l

instance (l : Bytes) : Decidable (isLine l) := inferInstanceAs (Decidable (_ ∧ _))

theorem isLine_cons (c : UInt8) (l : Bytes) :
    isLine (c :: l) ↔ (c ≠ CR ∧ c ≠ LF) ∧ isLine l := by
  simp only [isLine, List.mem_cons, not_or]
  constructor
  · rintro ⟨⟨hcr, hcrl⟩, hlf, hlfl⟩
    exact ⟨⟨Ne.symm hcr, Ne.symm hlf⟩, hcrl, hlfl⟩
  · rintro ⟨⟨hcr, hlf⟩, hcrl, hlfl⟩
    exact ⟨⟨Ne.symm hcr, hcrl⟩, Ne.symm hlf, hlfl⟩

theorem isLine_append (a b : Bytes) : isLine (a ++ b) ↔ isLine a ∧ isLine b := by
  simp only [isLine, List.mem_append, not_or]
  exact and_and_and_comm

theorem readLine_append (l s : Bytes) (h : isLine l) :
    readLine (l ++ CR :: LF :: s) = some (l, s) := by
  induction l with
  | nil => rfl
  | cons c l ih =>
    obtain ⟨⟨hcr, hlf⟩, hl⟩ := (isLine_cons c l).mp h
    rw [List.cons_append, readLine, if_neg hcr, if_neg hlf, ih hl]
    rfl

theorem readLine_some (s l s' : Bytes) (h : readLine s = some (l, s')) :
    s = l ++ CR :: LF :: s' ∧ isLine l := by
  induction s generalizing l with
  | nil => cases h
  | cons c s ih =>
    rw [readLine] at h
    split at h
    · rename_i hc
      obtain ⟨s'', hskip, hpair⟩ := Option.map_eq_some_iff.mp h
      cases hpair
      cases s with
      | nil => cases hskip
      | cons d s =>
        rw [skipLf] at hskip
        split at hskip
        · rename_i hd
          cases hskip
          exact ⟨by rw [hc, hd]; rfl, List.not_mem_nil, List.not_mem_nil⟩
        · cases hskip
    · rename_i hcr
      split at h
      · cases h
      · rename_i hlf
        obtain ⟨⟨l', s''⟩, hread, hpair⟩ := Option.map_eq_some_iff.mp h
        cases hpair
        obtain ⟨rfl, hl⟩ := ih l' hread
        exact ⟨rfl, (isLine_cons c l').mpr ⟨⟨hcr, hlf⟩, hl⟩⟩

/-! ## Numbers -/

def isDigit (c : UInt8) : Bool := 48 ≤ c && c ≤ 57

def digitsValue (ds : Bytes) : Nat := ds.foldl (fun n c => 10 * n + (c.toNat - 48)) 0

def parseDecimal (ds : Bytes) : Option Nat :=
  if ds ≠ [] ∧ ds.all isDigit then some (digitsValue ds) else none

/-- The digits of a number. -/
def digits (n : Nat) : Bytes := (Nat.toDigits 10 n).map fun c => c.val.toUInt8

theorem decimal_natCast (n : Nat) : decimal n = digits n := by
  simp [decimal, digits]

theorem toNat_digit (c : Char) (h : c.isDigit = true) : c.val.toUInt8.toNat = c.toNat := by
  simp only [Char.isDigit, Bool.and_eq_true, decide_eq_true_eq] at h
  have hle : c.val.toNat ≤ 57 := h.2
  show c.val.toNat % 256 = c.val.toNat
  exact Nat.mod_eq_of_lt (by omega)

theorem digits_all (n : Nat) : (digits n).all isDigit = true := by
  rw [List.all_eq_true]
  intro d hd
  obtain ⟨c, hc, rfl⟩ := List.mem_map.mp hd
  have hdigit := Nat.isDigit_of_mem_toDigits (by decide) (by decide) hc
  have hnat := toNat_digit c hdigit
  simp only [Char.isDigit, Bool.and_eq_true, decide_eq_true_eq] at hdigit
  have hge : 48 ≤ c.toNat := hdigit.1
  have hle : c.toNat ≤ 57 := hdigit.2
  simp only [isDigit, Bool.and_eq_true, decide_eq_true_eq, UInt8.le_iff_toNat_le, hnat]
  exact ⟨hge, hle⟩

theorem digitsValue_digits (n : Nat) : digitsValue (digits n) = n := by
  have hfold : ∀ (l : List Char) (k : Nat), (∀ c ∈ l, c.isDigit = true) →
      (l.map fun c => c.val.toUInt8).foldl (fun n c => 10 * n + (c.toNat - 48)) k =
        Nat.ofDigitChars 10 l k := by
    intro l
    induction l with
    | nil => exact fun k _ => rfl
    | cons c l ih =>
      intro k h
      rw [List.map_cons, List.foldl_cons, toNat_digit c (h c List.mem_cons_self),
        ih _ fun d hd => h d (List.mem_cons_of_mem _ hd), Nat.ofDigitChars_cons]
      rfl
  rw [digitsValue, digits, hfold _ _ fun c hc => Nat.isDigit_of_mem_toDigits (by decide) (by decide) hc]
  exact Nat.ofDigitChars_ten_toDigits

theorem digits_ne_nil (n : Nat) : digits n ≠ [] := by
  rw [digits, ne_eq, List.map_eq_nil_iff]
  exact Nat.toDigits_ne_nil

theorem parseDecimal_digits (n : Nat) : parseDecimal (digits n) = some n := by
  rw [parseDecimal, if_pos ⟨digits_ne_nil n, digits_all n⟩, digitsValue_digits]

theorem notMem_digits (n : Nat) (c : UInt8) (h : isDigit c = false) : c ∉ digits n := by
  intro hmem
  rw [List.all_eq_true.mp (digits_all n) c hmem] at h
  cases h

theorem notMem_of_all {ds : Bytes} (h : ds.all isDigit = true) (c : UInt8)
    (hc : isDigit c = false) : c ∉ ds := by
  intro hmem
  rw [List.all_eq_true.mp h c hmem] at hc
  cases hc

theorem isLine_of_all {ds : Bytes} (h : ds.all isDigit = true) : isLine ds :=
  ⟨notMem_of_all h CR (by decide), notMem_of_all h LF (by decide)⟩

/-! ## The head -/

/-- `HTTP/d.d`. -/
def isVersion (v : Bytes) : Bool :=
  v.take 5 = bytes "HTTP/" && v.length = 8 && ((v.drop 5).take 1).all isDigit &&
    (v.drop 6).take 1 = [46] && (v.drop 7).all isDigit

def isStatusCode (code : Bytes) : Bool := code.length = 3 && code.all isDigit

/-- The version, the status and the reason. -/
def parseStatusLine (line : Bytes) : Option (Bytes × Nat × Bytes) :=
  match cut 32 line with
  | none => none
  | some (version, rest) =>
    match cut 32 rest with
    | none => none
    | some (code, reason) =>
      if isVersion version && isStatusCode code then some (version, digitsValue code, reason)
      else none

def isTchar (c : UInt8) : Bool :=
  (97 ≤ c && c ≤ 122) || (65 ≤ c && c ≤ 90) || isDigit c ||
    [33, 35, 36, 37, 38, 39, 42, 43, 45, 46, 94, 95, 96, 124, 126].contains c

def isToken (name : Bytes) : Bool := name ≠ [] && name.all isTchar

/-- What no token character is, a token does not hold. -/
theorem not_mem_token {s : Bytes} (h : isToken s = true) {c : UInt8} (hc : isTchar c = false) :
    c ∉ s := by
  simp only [isToken, Bool.and_eq_true, List.all_eq_true] at h
  intro hm
  rw [h.2 c hm] at hc
  exact absurd hc (by decide)

theorem token_ne_nil {s : Bytes} (h : isToken s = true) : s ≠ [] := by
  simp only [isToken, Bool.and_eq_true, decide_eq_true_eq] at h
  exact h.1

/-- Space and tab. -/
def isOws (c : UInt8) : Bool := c = 32 || c = 9

def trimOws (v : Bytes) : Bytes := ((v.dropWhile isOws).reverse.dropWhile isOws).reverse

def parseHeader (line : Bytes) : Option (Bytes × Bytes) :=
  match cut 58 line with
  | none => none
  | some (name, value) => if isToken name then some (name, trimOws value) else none

/-- Header lines up to the empty one. -/
def readHeaders : Nat → Bytes → Option (List (Bytes × Bytes) × Bytes)
  | 0, _ => none
  | fuel + 1, s =>
    match readLine s with
    | none => none
    | some ([], s) => some ([], s)
    | some (line, s) =>
      match parseHeader line with
      | none => none
      | some h => (readHeaders fuel s).map fun p => (h :: p.1, p.2)

structure ResponseHead where
  version : Bytes
  status : Nat
  reason : Bytes
  headers : List (Bytes × Bytes)
  deriving DecidableEq, Repr

/-- The head, and the bytes behind it. -/
def readHead (s : Bytes) : Option (ResponseHead × Bytes) :=
  match readLine s with
  | none => none
  | some (line, s) =>
    match parseStatusLine line with
    | none => none
    | some (version, status, reason) =>
      (readHeaders (s.length + 1) s).map fun p => (⟨version, status, reason, p.1⟩, p.2)

/-! ## The body -/

/-- The values of the fields with this name, which is written in lower case. -/
def fieldValues (headers : List (Bytes × Bytes)) (name : Bytes) : List Bytes :=
  (headers.filter fun h => h.1.map tolower = name).map (·.2)

structure ParsedResponse where
  head : ResponseHead
  body : Bytes
  rest : Bytes
  deriving DecidableEq, Repr

/-- A 1xx, 204 or 304 ends with its head. -/
def noBody (status : Nat) : Bool := status / 100 = 1 || status = 204 || status = 304

def contentLength (headers : List (Bytes × Bytes)) : Option Nat :=
  match fieldValues headers (bytes "content-length") with
  | [v] => parseDecimal v
  | _ => none

/-- Without a Content-Length the body ends with the connection. -/
def readBody (head : ResponseHead) (s : Bytes) : Option ParsedResponse :=
  if fieldValues head.headers (bytes "transfer-encoding") ≠ [] then none
  else if noBody head.status then some ⟨head, [], s⟩
  else if fieldValues head.headers (bytes "content-length") = [] then some ⟨head, s, []⟩
  else
    match contentLength head.headers with
    | none => none
    | some n => if n ≤ s.length then some ⟨head, s.take n, s.drop n⟩ else none

def parseResponse (s : Bytes) : Option ParsedResponse :=
  match readHead s with
  | none => none
  | some (head, s) => readBody head s

theorem readBody_head (head : ResponseHead) (s : Bytes) (p : ParsedResponse)
    (h : readBody head s = some p) : p.head = head := by
  rw [readBody] at h
  split at h
  · cases h
  · split at h
    · cases h
      rfl
    · split at h
      · cases h
        rfl
      · split at h
        · cases h
        · split at h
          · cases h
            rfl
          · cases h

/-- The names of header lines, in lower case. -/
def fieldNames (headers : List (Bytes × Bytes)) : List Bytes := headers.map fun h => h.1.map tolower

theorem fieldValues_eq_nil (headers : List (Bytes × Bytes)) (name : Bytes) :
    fieldValues headers name = [] ↔ name ∉ fieldNames headers := by
  simp [fieldValues, fieldNames, List.filter_eq_nil_iff]

/-- A head whose body is read has no transfer coding, and none of what is behind
it is the body if its status has none. -/
theorem readBody_some (head : ResponseHead) (s : Bytes) (p : ParsedResponse)
    (h : readBody head s = some p) :
    bytes "transfer-encoding" ∉ fieldNames head.headers ∧
      (noBody head.status = true → p.rest = s) := by
  rw [readBody] at h
  split at h
  · cases h
  · rename_i hte
    refine ⟨(fieldValues_eq_nil _ _).mp (Classical.not_not.mp hte), fun hno => ?_⟩
    rw [if_pos hno] at h
    cases h
    rfl

/-- Names that occur once have one value. -/
theorem fieldValues_of_nodup (headers : List (Bytes × Bytes)) (hnodup : (fieldNames headers).Nodup)
    (h : Bytes × Bytes) (hmem : h ∈ headers) :
    fieldValues headers (h.1.map tolower) = [h.2] := by
  induction headers with
  | nil => exact absurd hmem List.not_mem_nil
  | cons g headers ih =>
    obtain ⟨hg, hrest⟩ := List.nodup_cons.mp hnodup
    rcases List.mem_cons.mp hmem with rfl | hmem
    · have hnil := (fieldValues_eq_nil headers _).mpr hg
      rw [fieldValues, List.map_eq_nil_iff] at hnil
      rw [fieldValues, List.filter_cons_of_pos (by simp), hnil]
      rfl
    · have hne : g.1.map tolower ≠ h.1.map tolower := by
        intro heq
        exact hg (List.mem_map.mpr ⟨h, hmem, heq.symm⟩)
      have := ih hrest hmem
      rw [fieldValues, List.filter_cons_of_neg (by simpa using hne)]
      exact this

theorem contentLength_of_nodup (headers : List (Bytes × Bytes))
    (hnodup : (fieldNames headers).Nodup) (h : Bytes × Bytes) (hmem : h ∈ headers)
    (hname : h.1.map tolower = bytes "content-length") :
    contentLength headers = parseDecimal h.2 := by
  have hvalues := fieldValues_of_nodup headers hnodup h hmem
  rw [hname] at hvalues
  rw [contentLength, hvalues]

/-! ## Reading a head back -/

theorem parseHeader_line (name value : Bytes) (h : isToken name = true) :
    parseHeader (name ++ 58 :: 32 :: value) = some (name, trimOws value) := by
  have hcolon : (58 : UInt8) ∉ name := not_mem_token h (by decide)
  rw [parseHeader, cut_append 58 name (32 :: value) hcolon]
  simp only [h, if_true]
  rfl

def headerText (h : Bytes × Bytes) : Bytes := h.1 ++ 58 :: 32 :: h.2

theorem trimOws_of_all (v : Bytes) (h : ∀ c ∈ v, isOws c = false) : trimOws v = v := by
  have hdrop : ∀ l : Bytes, (∀ c ∈ l, isOws c = false) → l.dropWhile isOws = l := by
    intro l hl
    cases l with
    | nil => rfl
    | cons c l => rw [List.dropWhile_cons_of_neg (by simp [hl c List.mem_cons_self])]
  rw [trimOws, hdrop v h, hdrop v.reverse fun c hc => h c (List.mem_reverse.mp hc),
    List.reverse_reverse]

def trimHeader (h : Bytes × Bytes) : Bytes × Bytes := (h.1, trimOws h.2)

/-- A header line that is read back, up to space around its value. -/
def LegalHeader (h : Bytes × Bytes) : Prop := isToken h.1 = true ∧ isLine h.2

theorem isLine_headerText (h : Bytes × Bytes) (hl : LegalHeader h) : isLine (headerText h) := by
  have hname : isLine h.1 := ⟨not_mem_token hl.1 (by decide), not_mem_token hl.1 (by decide)⟩
  have hmiddle : isLine [58, 32] := by decide
  exact (isLine_append _ _).mpr ⟨hname, (isLine_append [58, 32] h.2).mpr ⟨hmiddle, hl.2⟩⟩

theorem readHeaders_lines (headers : List (Bytes × Bytes)) (body : Bytes)
    (h : ∀ h ∈ headers, LegalHeader h) (fuel : Nat) (hfuel : headers.length < fuel) :
    readHeaders fuel ((headers.flatMap fun h => headerText h ++ [CR, LF]) ++ CR :: LF :: body) =
      some (headers.map trimHeader, body) := by
  induction headers generalizing fuel with
  | nil =>
    cases fuel with
    | zero => cases hfuel
    | succ fuel => rfl
  | cons g headers ih =>
    cases fuel with
    | zero => cases hfuel
    | succ fuel =>
      have hg := h g List.mem_cons_self
      have hrest := ih (fun k hk => h k (List.mem_cons_of_mem _ hk)) fuel
        (Nat.lt_of_succ_lt_succ hfuel)
      have hne : headerText g ≠ [] := by simp [headerText]
      have hread := readLine_append (headerText g)
        ((headers.flatMap fun h => headerText h ++ [CR, LF]) ++ CR :: LF :: body)
        (isLine_headerText g hg)
      have hparse : parseHeader (headerText g) = some (trimHeader g) :=
        parseHeader_line g.1 g.2 hg.1
      have htext : (((g :: headers).flatMap fun h => headerText h ++ [CR, LF]) ++
          CR :: LF :: body) = headerText g ++ CR :: LF ::
            ((headers.flatMap fun h => headerText h ++ [CR, LF]) ++ CR :: LF :: body) := by
        simp
      rw [htext, readHeaders, hread]
      simp only [hparse, hrest]
      cases htext' : headerText g with
      | nil => exact absurd htext' hne
      | cons c l => rfl

/-- The status line, up to the CRLF. -/
def statusText (version code reason : Bytes) : Bytes := version ++ 32 :: (code ++ 32 :: reason)

theorem parseStatusLine_text (version code reason : Bytes) (hv : 32 ∉ version)
    (hc : 32 ∉ code) :
    parseStatusLine (statusText version code reason) =
      if isVersion version && isStatusCode code then some (version, digitsValue code, reason)
      else none := by
  rw [parseStatusLine, statusText, cut_append 32 version _ hv]
  simp only
  rw [cut_append 32 code reason hc]

/-- **A well formed head** is read back. -/
theorem readHead_text (version code reason body : Bytes) (headers : List (Bytes × Bytes))
    (hv : isVersion version = true) (hvs : 32 ∉ version) (hvl : isLine version)
    (hc : isStatusCode code = true) (hr : isLine reason) (hh : ∀ h ∈ headers, LegalHeader h) :
    readHead (statusText version code reason ++ CR :: LF ::
        ((headers.flatMap fun h => headerText h ++ [CR, LF]) ++ CR :: LF :: body)) =
      some (⟨version, digitsValue code, reason, headers.map trimHeader⟩, body) := by
  have hdigits : code.all isDigit = true := by
    simp only [isStatusCode, Bool.and_eq_true] at hc
    exact hc.2
  have hspace : isLine [32] := by decide
  have hline : isLine (statusText version code reason) :=
    (isLine_append _ _).mpr ⟨hvl, (isLine_append [32] _).mpr ⟨hspace, (isLine_append _ _).mpr
      ⟨isLine_of_all hdigits, (isLine_append [32] _).mpr ⟨hspace, hr⟩⟩⟩⟩
  have hlen : headers.length <
      ((headers.flatMap fun h => headerText h ++ [CR, LF]) ++ CR :: LF :: body).length + 1 := by
    have hle : headers.length ≤ (headers.flatMap fun h => headerText h ++ [CR, LF]).length := by
      induction headers with
      | nil => exact Nat.le_refl _
      | cons g headers ih =>
        have := ih fun k hk => hh k (List.mem_cons_of_mem _ hk)
        simp only [List.flatMap_cons, List.length_append, List.length_cons] at this ⊢
        omega
    simp only [List.length_append]
    omega
  rw [readHead, readLine_append _ _ hline]
  simp only
  rw [parseStatusLine_text version code reason hvs (notMem_of_all hdigits 32 (by decide)), hv, hc]
  simp only [Bool.and_self, if_true]
  rw [readHeaders_lines headers body hh _ hlen]
  rfl

/-- What is read from a text that begins like a status line, if the reason is
read back. -/
theorem readHead_wellFormed (version code reason s : Bytes) (hvs : 32 ∉ version) (hcs : 32 ∉ code)
    (head : ResponseHead) (s' : Bytes)
    (h : readHead (statusText version code reason ++ CR :: LF :: s) = some (head, s'))
    (hr : head.reason = reason) : isStatusCode code = true ∧ isLine reason := by
  rw [readHead] at h
  split at h
  · cases h
  · rename_i line rest hread
    obtain ⟨htext, hline⟩ := readLine_some _ _ _ hread
    split at h
    · cases h
    · rename_i v status r hparse
      obtain ⟨p, -, hpair⟩ := Option.map_eq_some_iff.mp h
      cases hpair
      obtain rfl : r = reason := hr
      rw [parseStatusLine] at hparse
      split at hparse
      · cases hparse
      · rename_i v' rest' hcut
        obtain ⟨rfl, hv'⟩ := cut_some _ _ _ _ hcut
        split at hparse
        · cases hparse
        · rename_i c' r' hcut'
          obtain ⟨rfl, hc'⟩ := cut_some _ _ _ _ hcut'
          split at hparse
          · rename_i hok
            cases hparse
            -- both texts are cut at the same places
            have hfirst : cut 32 (version ++ 32 :: (code ++ 32 :: (r ++ CR :: LF :: s))) =
                some (v, c' ++ 32 :: (r ++ CR :: LF :: rest)) := by
              have htext' : version ++ 32 :: (code ++ 32 :: (r ++ CR :: LF :: s)) =
                  v ++ 32 :: (c' ++ 32 :: (r ++ CR :: LF :: rest)) := by
                simpa [statusText] using htext
              rw [htext']
              exact cut_append 32 _ _ hv'
            rw [cut_append 32 _ _ hvs, Option.some.injEq, Prod.mk.injEq] at hfirst
            have hsecond := congrArg (cut 32) hfirst.2
            rw [cut_append 32 _ _ hcs, cut_append 32 _ _ hc', Option.some.injEq,
              Prod.mk.injEq] at hsecond
            refine ⟨?_, ?_⟩
            · rw [Bool.and_eq_true] at hok
              rw [hsecond.1]
              exact hok.2
            · have htail := ((isLine_append _ _).mp hline).2
              have htail' := ((isLine_append [32] _).mp htail).2
              have htail'' := ((isLine_append _ _).mp htail').2
              exact ((isLine_append [32] _).mp htail'').2
          · cases hparse

end Lib
