import Ehttp.Multipart.Callbacks
import Ehttp.Multipart.Encode

/-!
# Reading a Content-Disposition value

The value callback cuts the text at `';'` and the fields at `'='`.

* `ssOnMultipartValueAt_eq`: no vector index of the callback is out of range;
* `value_safe_iff`: it throws on the values with a field `key==`, and on no
  other;
* `readBack_iff`: a written name and filename are read back exactly when they
  hold neither delimiter.
-/

namespace Ehttp

open Lib

/-! ## Vector indices -/

/-- `ss_parse_disposition_value` with its vector index; `none` is an index past
the end. -/
def ssParseDispositionValueAt (input : Bytes) : Option (Exit × Bytes) :=
  let nameTokens := ssSplitStr input 61
  if nameTokens.length ≠ 2 then some (.ret (-1), [])
  else
    match nameTokens[1]? with
    | none => none
    | some output =>
      if output = [34, 34] then some (.ret 0, [])
      else
        match substr output 1 (sizeSub output.length 2) with
        | none => some (.thrown, output)
        | some output => some (if output.isEmpty then .ret (-1) else .ret 0, output)

def ssParseMultiDispositionAt (input : Bytes) (item : FileItem) : Option (Exit × FileItem) :=
  let posTokens := ssSplitStr input 59
  if posTokens.length < 2 then some (.ret (-1), item)
  else
    posTokens[1]?.bind fun token =>
    (ssParseDispositionValueAt token).bind fun (ret, fieldname) =>
    if ret ≠ .ret 0 then some (ret, item)
    else
      let item := item.setName fieldname
      if 3 ≤ posTokens.length then
        let item := item.setIsFile
        posTokens[2]?.bind fun token =>
        (ssParseDispositionValueAt token).bind fun (ret, filename) =>
        if ret ≠ .ret 0 then some (ret, item) else some (.ret 0, item.setFilename filename)
      else some (.ret 0, item)

def FileItem.onValueAt (s : Bytes) (item : FileItem) : Option (Exit × FileItem) :=
  (if item.getParseState = PARSE_MULTI_DISPOSITION then ssParseMultiDispositionAt s item
    else some (.ret 0, item)).bind fun (ret, item) =>
  if ret ≠ .ret 0 then some (ret, item)
  else if item.getParseState = PARSE_MULTI_CONTENT_TYPE then some (.ret 0, item.setContentType s)
  else some (.ret 0, item)

def ssOnMultipartValueAt (s : Bytes) (b : RequestBody) : Option (Exit × RequestBody) :=
  if b.fileItems.isEmpty then some (.ret (-1), b)
  else
    b.fileItems[b.fileItems.length - 1]?.bind fun item =>
    (item.onValueAt s).map fun (ret, item) =>
      (ret, { b with fileItems := updateBack (fun _ => item) b.fileItems })

theorem ssParseDispositionValueAt_eq (input : Bytes) :
    ssParseDispositionValueAt input = some (ssParseDispositionValue input) := by
  unfold ssParseDispositionValueAt ssParseDispositionValue
  rcases ssSplitStr input 61 with _ | ⟨key, _ | ⟨output, _ | ⟨token, tokens⟩⟩⟩
  · rfl
  · rfl
  · simp only [List.length_cons, List.length_nil, ne_eq, not_true_eq_false, ↓reduceIte,
      List.getElem?_cons_succ, List.getElem?_cons_zero]
    by_cases hq : output = [34, 34]
    · rw [if_pos hq, if_pos hq]
    · rw [if_neg hq, if_neg hq]
      cases substr output 1 (sizeSub output.length 2) with
      | none => rfl
      | some value => cases value <;> rfl
  · simp

theorem ssParseMultiDispositionAt_eq (input : Bytes) (item : FileItem) :
    ssParseMultiDispositionAt input item = some (ssParseMultiDisposition input item) := by
  unfold ssParseMultiDispositionAt ssParseMultiDisposition
  rcases ssSplitStr input 59 with _ | ⟨kind, _ | ⟨token, posTokens⟩⟩
  · rfl
  · rfl
  · have hlen : ¬ (kind :: token :: posTokens).length < 2 := by simp
    simp only [hlen, ↓reduceIte, List.getElem?_cons_succ, List.getElem?_cons_zero,
      Option.bind_some, ssParseDispositionValueAt_eq]
    by_cases hret : (ssParseDispositionValue token).1 = .ret 0
    · cases posTokens with
      | nil => simp [hret]
      | cons last posTokens =>
        by_cases hlast : (ssParseDispositionValue last).1 = .ret 0 <;> simp [hret, hlast]
    · simp [hret]

theorem FileItem.onValueAt_eq (s : Bytes) (item : FileItem) :
    item.onValueAt s = some (item.onValue s) := by
  unfold FileItem.onValueAt FileItem.onValue
  rw [ssParseMultiDispositionAt_eq, ← apply_ite some, Option.bind_some]
  obtain ⟨⟨ret, item'⟩, hr⟩ : ∃ r, (if item.getParseState = PARSE_MULTI_DISPOSITION then
      ssParseMultiDisposition s item else (.ret 0, item)) = r := ⟨_, rfl⟩
  simp only [hr]
  rw [apply_ite some, apply_ite some]

/-- **No index** of the value callback is out of range. -/
theorem ssOnMultipartValueAt_eq (s : Bytes) (b : RequestBody) :
    ssOnMultipartValueAt s b = some (ssOnMultipartValue s b) := by
  unfold ssOnMultipartValueAt ssOnMultipartValue
  rw [← List.getLast?_eq_getElem?]
  rcases List.eq_nil_or_concat b.fileItems with h | ⟨items, item, h⟩
  · simp [h]
  · rw [List.concat_eq_append] at h
    simp [h, FileItem.onValueAt_eq, updateBack_snoc]

/-! ## The values that throw -/

/-- `key==`: the second token of the split at `'='` is empty. -/
def EmptyValue (field : Bytes) : Prop := ∃ key, 61 ∉ key ∧ field = key ++ [61, 61]

/-- `key=value`, perhaps with one more `'='` behind it, the value `""` or longer
than two bytes. -/
def LegibleValue (field : Bytes) : Prop :=
  ∃ key value, 61 ∉ key ∧ 61 ∉ value ∧ (value = [34, 34] ∨ 2 < value.length) ∧
    (field = key ++ 61 :: value ∨ field = key ++ 61 :: (value ++ [61]))

/-- The name field is `key==`, or it is legible and the filename field is `key==`.
The fields stand between the `';'`s. -/
def CutsEmpty (s : Bytes) : Prop :=
  (∃ name, (s.splitOn 59)[1]? = some name ∧ EmptyValue name) ∨
  (∃ name filename, (s.splitOn 59)[1]? = some name ∧ LegibleValue name ∧
    (s.splitOn 59)[2]? = some filename ∧ EmptyValue filename)

theorem ssParseDispositionValue_thrown (input : Bytes) :
    (ssParseDispositionValue input).1 = .thrown ↔ EmptyValue input := by
  unfold ssParseDispositionValue
  constructor
  · intro h
    split at h
    · rename_i key output hsplit
      obtain ⟨hkey, -, hinput⟩ := (ssSplitStr_pair input 61 key output).mp hsplit
      cases output with
      | nil =>
        rcases hinput with ⟨-, hne⟩ | hinput
        · exact absurd rfl hne
        · exact ⟨key, hkey, hinput⟩
      | cons c output =>
        by_cases hq : c :: output = [34, 34]
        · simp [hq] at h
        · rw [if_neg hq] at h
          simp only [substr, List.length_cons, Nat.le_add_left, ↓reduceIte] at h
          split at h <;> simp at h
    · simp at h
  · rintro ⟨key, hkey, rfl⟩
    have hsplit : ssSplitStr (key ++ [61, 61]) 61 = [key, []] :=
      (ssSplitStr_pair _ 61 key []).mpr ⟨hkey, by simp, Or.inr rfl⟩
    simp [hsplit, substr]

/-- What is stored is the value less its first and last byte. -/
theorem ssParseDispositionValue_value (key value input : Bytes) (hkey : 61 ∉ key)
    (hvalue : 61 ∉ value) (hne : value ≠ [])
    (hinput : input = key ++ 61 :: value ∨ input = key ++ 61 :: (value ++ [61])) :
    ssParseDispositionValue input =
      if value = [34, 34] then (.ret 0, [])
      else if (value.drop 1).take (sizeSub value.length 2) = [] then (.ret (-1), [])
      else (.ret 0, (value.drop 1).take (sizeSub value.length 2)) := by
  have hsplit : ssSplitStr input 61 = [key, value] :=
    (ssSplitStr_pair input 61 key value).mpr ⟨hkey, hvalue, hinput.imp_left fun h => ⟨h, hne⟩⟩
  have hsub : substr value 1 (sizeSub value.length 2) =
      some ((value.drop 1).take (sizeSub value.length 2)) :=
    if_pos (List.length_pos_iff.mpr hne)
  unfold ssParseDispositionValue
  rw [hsplit]
  by_cases hq : value = [34, 34]
  · simp only [hq, ↓reduceIte]
  · simp only [hq, ↓reduceIte, hsub, List.isEmpty_iff]
    split
    · rename_i h
      rw [h]
    · rfl

theorem ssParseDispositionValue_ok (input : Bytes) (hlen : input.length < 2 ^ 64) :
    (ssParseDispositionValue input).1 = .ret 0 ↔ LegibleValue input := by
  constructor
  · intro h
    cases hsplit : ssSplitStr input 61 with
    | nil => simp [ssParseDispositionValue, hsplit] at h
    | cons key tokens =>
      rcases tokens with _ | ⟨value, _ | ⟨token, tokens⟩⟩
      · simp [ssParseDispositionValue, hsplit] at h
      · obtain ⟨hkey, hvalue, hinput⟩ := (ssSplitStr_pair input 61 key value).mp hsplit
        have hinput := hinput.imp_left And.left
        refine ⟨key, value, hkey, hvalue, ?_, hinput⟩
        have hne : value ≠ [] := by
          rintro rfl
          simp [ssParseDispositionValue, hsplit, substr] at h
        rw [ssParseDispositionValue_value key value input hkey hvalue hne hinput] at h
        by_cases hq : value = [34, 34]
        · exact Or.inl hq
        · rw [if_neg hq] at h
          refine Or.inr (Nat.lt_of_not_le fun hle => ?_)
          -- at most two bytes: nothing is left between the first and the last
          have hnil : (value.drop 1).take (sizeSub value.length 2) = [] := by
            rcases value with _ | ⟨a, _ | ⟨b, _ | ⟨c, value⟩⟩⟩
            · rfl
            · simp
            · simp [sizeSub]
            · simp at hle
          rw [if_pos hnil] at h
          simp at h
      · simp [ssParseDispositionValue, hsplit] at h
  · rintro ⟨key, value, hkey, hvalue, hlegible, hinput⟩
    have hne : value ≠ [] := by
      rintro rfl
      simp at hlegible
    rw [ssParseDispositionValue_value key value input hkey hvalue hne hinput]
    by_cases hq : value = [34, 34]
    · rw [if_pos hq]
    · have hlong : 2 < value.length := hlegible.resolve_left hq
      have hbound : value.length < 2 ^ 64 := by
        rcases hinput with h | h <;> rw [h] at hlen <;>
          simp only [List.length_append, List.length_cons] at hlen <;> omega
      have hpos : (value.drop 1).take (sizeSub value.length 2) ≠ [] := by
        apply List.ne_nil_of_length_pos
        simp only [List.length_take, List.length_drop, sizeSub]
        omega
      rw [if_neg hq, if_neg hpos]

/-- The name field is read first, the filename field only behind a name that
was read. -/
theorem ssParseMultiDisposition_thrown_iff (s : Bytes) (item : FileItem) :
    (ssParseMultiDisposition s item).1 = .thrown ↔
      (∃ name, (ssSplitStr s 59)[1]? = some name ∧
        (ssParseDispositionValue name).1 = .thrown) ∨
      (∃ name filename, (ssSplitStr s 59)[1]? = some name ∧
        (ssParseDispositionValue name).1 = .ret 0 ∧ (ssSplitStr s 59)[2]? = some filename ∧
        (ssParseDispositionValue filename).1 = .thrown) := by
  unfold ssParseMultiDisposition
  rcases ssSplitStr s 59 with _ | ⟨kind, _ | ⟨name, fields⟩⟩
  · simp
  · simp
  · by_cases hret : (ssParseDispositionValue name).1 = .ret 0
    · cases fields with
      | nil => simp [hret]
      | cons filename fields =>
        by_cases hfile : (ssParseDispositionValue filename).1 = .ret 0
        · simp [hret, hfile]
        · simp [hret, hfile]
    · simp [hret]

theorem ssParseMultiDisposition_thrown (s : Bytes) (item : FileItem) (hlen : s.length < 2 ^ 64) :
    (ssParseMultiDisposition s item).1 = .thrown ↔ CutsEmpty s := by
  -- a field with text in it is a token of the code's split, and no longer than the value
  have hfield : ∀ (i : Nat) (field : Bytes), field ≠ [] →
      ((ssSplitStr s 59)[i]? = some field ↔ (s.splitOn 59)[i]? = some field) := by
    intro i field hne
    rw [ssSplitStr_eq_pieces, StringStream.getElem?_pieces _ _ _ _ hne]
  have hok : ∀ (i : Nat) (field : Bytes), (ssSplitStr s 59)[i]? = some field →
      ((ssParseDispositionValue field).1 = .ret 0 ↔ LegibleValue field) := by
    intro i field hi
    have hmem := List.mem_of_getElem? hi
    rw [ssSplitStr_eq_pieces] at hmem
    exact ssParseDispositionValue_ok field
      (Nat.lt_of_le_of_lt (StringStream.infix_of_mem_pieces _ _ _ hmem).length_le hlen)
  have hempty : ∀ field, EmptyValue field → field ≠ [] := by
    rintro field ⟨key, -, rfl⟩
    simp
  have hlegible : ∀ field, LegibleValue field → field ≠ [] := by
    rintro field ⟨key, value, -, -, -, rfl | rfl⟩ <;> simp
  simp only [ssParseMultiDisposition_thrown_iff, ssParseDispositionValue_thrown]
  constructor
  · rintro (⟨name, hi, hname⟩ | ⟨name, filename, hi, hname, hj, hfile⟩)
    · exact Or.inl ⟨name, (hfield 1 name (hempty name hname)).mp hi, hname⟩
    · have hname := (hok 1 name hi).mp hname
      exact Or.inr ⟨name, filename, (hfield 1 name (hlegible name hname)).mp hi, hname,
        (hfield 2 filename (hempty filename hfile)).mp hj, hfile⟩
  · rintro (⟨name, hi, hname⟩ | ⟨name, filename, hi, hname, hj, hfile⟩)
    · exact Or.inl ⟨name, (hfield 1 name (hempty name hname)).mpr hi, hname⟩
    · have hi := (hfield 1 name (hlegible name hname)).mpr hi
      exact Or.inr ⟨name, filename, hi, (hok 1 name hi).mpr hname,
        (hfield 2 filename (hempty filename hfile)).mpr hj, hfile⟩

theorem FileItem.onValue_thrown (s : Bytes) (item : FileItem) :
    (item.onValue s).1 = .thrown ↔ item.getParseState = PARSE_MULTI_DISPOSITION ∧
      (ssParseMultiDisposition s item).1 = .thrown := by
  unfold FileItem.onValue
  by_cases hs : item.getParseState = PARSE_MULTI_DISPOSITION
  · simp only [hs, ↓reduceIte, true_and]
    split
    · rfl
    · rename_i hret
      have hret := Classical.not_not.mp hret
      split <;> simp [hret]
  · simp only [hs, ↓reduceIte, ne_eq, not_true_eq_false, false_and, iff_false]
    split <;> simp

/-- **When a part header value is safe**: no index past the end and no
exception, unless the last item waits for a disposition and the value cuts an
empty token. -/
theorem value_safe_iff (s : Bytes) (b : RequestBody) (hlen : s.length < 2 ^ 64) :
    (∃ ret b', ssOnMultipartValueAt s b = some (.ret ret, b')) ↔
      ¬ ∃ item ∈ b.fileItems.getLast?,
        item.getParseState = PARSE_MULTI_DISPOSITION ∧ CutsEmpty s := by
  have hret : (∃ ret b', ssOnMultipartValueAt s b = some (.ret ret, b')) ↔
      (ssOnMultipartValue s b).1 ≠ .thrown := by
    rw [ssOnMultipartValueAt_eq]
    cases h : ssOnMultipartValue s b with
    | mk x b' => cases x <;> simp
  rw [hret]
  unfold ssOnMultipartValue
  cases b.fileItems.getLast? with
  | none => simp
  | some item => simp [FileItem.onValue_thrown, ssParseMultiDisposition_thrown s _ hlen]

/-- A part whose disposition is read next. -/
def waitingBody : RequestBody :=
  { fileItems := [FileItem.setParseState {} PARSE_MULTI_DISPOSITION] }

theorem value_safe_iff_field :
    ∃ ret b', ssOnMultipartValueAt (bytes "form-data; name=a") waitingBody = some (.ret ret, b') :=
  (value_safe_iff (bytes "form-data; name=a") waitingBody (by decide)).mpr (by
    rintro ⟨item, -, -, hcut⟩
    have hthrown := (ssParseMultiDisposition_thrown _ item (by decide)).mpr hcut
    exact absurd hthrown (by simp [show ∀ item, (ssParseMultiDisposition
      (bytes "form-data; name=a") item).1 = .ret (-1) from fun _ => rfl]))

/-- `name==` is split into the key and an empty token. -/
theorem double_equals_thrown :
    ¬ ∃ ret b', ssOnMultipartValueAt (bytes "form-data; name==") waitingBody =
      some (.ret ret, b') := by
  have h : ssOnMultipartValueAt (bytes "form-data; name==") waitingBody =
      some (.thrown, waitingBody) := by decide
  rintro ⟨ret, b', hret⟩
  rw [h] at hret
  simp at hret

/-! ## Reading back -/

/-- The disposition a client writes for a field or, with a filename, for a file. -/
def formData (name : Bytes) (filename : Option Bytes) : Bytes :=
  MultipartPart.disposition { name, filename, contentType := none, data := [] }

/-- The item once that disposition is read as it was meant. -/
def FileItem.described (item : FileItem) (name : Bytes) (filename : Option Bytes) : FileItem :=
  match filename with
  | none => item.setName name
  | some filename => ((item.setName name).setIsFile).setFilename filename

/-- Neither `';'` nor `'='`. -/
def Undelimited (s : Bytes) : Prop := 59 ∉ s ∧ 61 ∉ s

theorem quoted_eq_empty (s : Bytes) : quoted s = [34, 34] ↔ s = [] := by
  simp [quoted]

theorem ssParseDispositionValue_quoted (key s : Bytes) (hkey : 61 ∉ key) (hs : 61 ∉ s)
    (hlen : s.length + 2 < 2 ^ 64) :
    ssParseDispositionValue (key ++ 61 :: quoted s) = (.ret 0, s) := by
  have hquoted : 61 ∉ quoted s := by simpa [quoted] using hs
  have hsize : sizeSub (quoted s).length 2 = s.length := by
    simp only [sizeSub, quoted, List.length_cons, List.length_append, List.length_nil]
    omega
  have hsub : ((quoted s).drop 1).take s.length = s := by simp [quoted]
  rw [ssParseDispositionValue_value key (quoted s) _ hkey hquoted (by simp [quoted]) (Or.inl rfl)]
  simp only [quoted_eq_empty, hsize, hsub]
  cases s with
  | nil => rfl
  | cons c s => rfl

theorem ssParseMultiDisposition_formData (name : Bytes) (filename : Option Bytes)
    (item : FileItem) (hname : Undelimited name) (hfile : ∀ f ∈ filename, Undelimited f)
    (hlen : (formData name filename).length < 2 ^ 64) :
    ssParseMultiDisposition (formData name filename) item =
      (.ret 0, item.described name filename) := by
  have hform : bytes "form-data; name=" = bytes "form-data" ++ 59 :: (bytes " name" ++ [61]) := by
    decide
  have hfilename : bytes "; filename=" = 59 :: (bytes " filename" ++ [61]) := by decide
  cases filename with
  | none =>
    have htext : formData name none =
        bytes "form-data" ++ 59 :: (bytes " name" ++ 61 :: quoted name) := by
      simp [formData, MultipartPart.disposition, hform]
    have hsplit : ssSplitStr (formData name none) 59 =
        [bytes "form-data", bytes " name" ++ 61 :: quoted name] := by
      rw [htext]
      apply ssSplitStr_two
      · decide
      · simpa [quoted, hname.1] using (by decide : (59 : UInt8) ∉ bytes " name")
      · simp [quoted]
    have hvalue := ssParseDispositionValue_quoted (bytes " name") name (by decide) hname.2 (by
      rw [htext] at hlen
      simp [quoted] at hlen
      omega)
    simp [ssParseMultiDisposition, hsplit, hvalue, FileItem.described]
  | some filename =>
    have hfile := hfile filename rfl
    have htext : formData name (some filename) = bytes "form-data" ++ 59 ::
        ((bytes " name" ++ 61 :: quoted name) ++ 59 :: (bytes " filename" ++ 61 :: quoted filename)) := by
      simp [formData, MultipartPart.disposition, hform, hfilename]
    have hsplit : ssSplitStr (formData name (some filename)) 59 =
        [bytes "form-data", bytes " name" ++ 61 :: quoted name,
          bytes " filename" ++ 61 :: quoted filename] := by
      rw [htext]
      apply ssSplitStr_three
      · decide
      · simpa [quoted, hname.1] using (by decide : (59 : UInt8) ∉ bytes " name")
      · simpa [quoted, hfile.1] using (by decide : (59 : UInt8) ∉ bytes " filename")
      · simp [quoted]
    have hlens : name.length + 2 < 2 ^ 64 ∧ filename.length + 2 < 2 ^ 64 := by
      rw [htext] at hlen
      simp [quoted] at hlen
      omega
    have hvalue := ssParseDispositionValue_quoted (bytes " name") name (by decide) hname.2 hlens.1
    have hvalue' := ssParseDispositionValue_quoted (bytes " filename") filename (by decide)
      hfile.2 hlens.2
    simp [ssParseMultiDisposition, hsplit, hvalue, hvalue', FileItem.described]

/-- What is read is cut out of one token, so it holds no delimiter. -/
theorem ssParseDispositionValue_undelimited (input value : Bytes) (hinput : 59 ∉ input)
    (h : ssParseDispositionValue input = (.ret 0, value)) : Undelimited value := by
  cases hsplit : ssSplitStr input 61 with
  | nil => simp [ssParseDispositionValue, hsplit] at h
  | cons key tokens =>
    rcases tokens with _ | ⟨output, _ | ⟨token, tokens⟩⟩
    · simp [ssParseDispositionValue, hsplit] at h
    · obtain ⟨hkey, houtput, htext⟩ := (ssSplitStr_pair input 61 key output).mp hsplit
      have hne : output ≠ [] := by
        rintro rfl
        simp [ssParseDispositionValue, hsplit, substr] at h
      have hsemi : 59 ∉ output := by
        rcases htext with ⟨rfl, -⟩ | rfl <;> simp_all
      rw [ssParseDispositionValue_value key output input hkey houtput hne
        (htext.imp_left And.left)] at h
      have hsub : value ⊆ output := by
        split at h
        · simp only [Prod.mk.injEq, true_and] at h
          simp [← h]
        · split at h
          · simp at h
          · simp only [Prod.mk.injEq, true_and] at h
            rw [← h]
            exact List.Subset.trans (List.take_subset _ _) (List.drop_subset _ _)
      exact ⟨fun hc => hsemi (hsub hc), fun hc => houtput (hsub hc)⟩
    · simp [ssParseDispositionValue, hsplit] at h

theorem ssParseMultiDisposition_undelimited (s : Bytes) (item item' : FileItem)
    (h : ssParseMultiDisposition s item = (.ret 0, item')) :
    Undelimited item'.name ∧ (item'.filename = item.filename ∨ Undelimited item'.filename) := by
  have htoken : ∀ token ∈ ssSplitStr s 59, ∀ value,
      ssParseDispositionValue token = (.ret 0, value) → Undelimited value := by
    intro token ht value hvalue
    rw [ssSplitStr_eq_pieces] at ht
    exact ssParseDispositionValue_undelimited token value
      (StringStream.not_mem_of_mem_pieces _ _ _ ht) hvalue
  unfold ssParseMultiDisposition at h
  rcases hsplit : ssSplitStr s 59 with _ | ⟨kind, _ | ⟨token, fields⟩⟩
  · simp [hsplit] at h
  · simp [hsplit] at h
  · rw [hsplit] at h htoken
    cases hname : ssParseDispositionValue token with
    | mk ret name =>
      by_cases hret : ret = .ret 0
      · subst hret
        have hclean := htoken token (by simp) name hname
        cases fields with
        | nil =>
          simp only [hname, ne_eq, not_true_eq_false, ↓reduceIte, Prod.mk.injEq, true_and] at h
          exact h ▸ ⟨hclean, Or.inl rfl⟩
        | cons last fields =>
          cases hfile : ssParseDispositionValue last with
          | mk ret filename =>
            by_cases hret : ret = .ret 0
            · subst hret
              have hclean' := htoken last (by simp) filename hfile
              simp only [hname, hfile, ne_eq, not_true_eq_false, ↓reduceIte, Prod.mk.injEq,
                true_and] at h
              exact h ▸ ⟨hclean, Or.inr hclean'⟩
            · simp [hname, hfile, hret] at h
      · simp [hname, hret] at h

/-- **Reading back**: the name and the filename are those that were written
exactly when neither holds a `';'` or a `'='`. -/
theorem readBack_iff (name : Bytes) (filename : Option Bytes)
    (hlen : (formData name filename).length < 2 ^ 64) :
    (∀ item, ssParseMultiDisposition (formData name filename) item =
      (.ret 0, item.described name filename)) ↔
      Undelimited name ∧ ∀ f ∈ filename, Undelimited f := by
  constructor
  · intro h
    obtain ⟨hname, hfile⟩ := ssParseMultiDisposition_undelimited _ {} _ (h {})
    cases filename with
    | none => exact ⟨hname, by simp⟩
    | some filename =>
      refine ⟨hname, ?_⟩
      intro f hf
      rw [Option.mem_some_iff] at hf
      subst hf
      rcases hfile with hfile | hfile
      · have hempty : filename = [] := hfile
        exact ⟨by simp [hempty], by simp [hempty]⟩
      · exact hfile
  · rintro ⟨hname, hfile⟩ item
    exact ssParseMultiDisposition_formData name filename item hname hfile hlen

theorem readBack_iff_spaces :
    (∀ item, ssParseMultiDisposition (formData (bytes "my field") (some (bytes "a b.txt"))) item =
      (.ret 0, item.described (bytes "my field") (some (bytes "a b.txt")))) ↔
      Undelimited (bytes "my field") ∧ ∀ f ∈ some (bytes "a b.txt"), Undelimited f :=
  readBack_iff (bytes "my field") (some (bytes "a b.txt")) (by decide)

/-- The filename `ab;c` is stored as `a`. -/
theorem filename_cut :
    ssParseMultiDisposition (formData (bytes "file") (some (bytes "ab;c"))) {} =
        (.ret 0, FileItem.described {} (bytes "file") (some (bytes "a"))) ∧
      ssParseMultiDisposition (formData (bytes "file") (some (bytes "ab;c"))) {} ≠
        (.ret 0, FileItem.described {} (bytes "file") (some (bytes "ab;c"))) := by
  decide

end Ehttp
