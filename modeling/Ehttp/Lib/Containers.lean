/-!
# `std::map`, `std::set`, `std::multimap` and the back of a `std::vector`

`std::map` as an association list kept in key order by `insert`, `std::set` as
a list kept so; the order `lt` is a parameter.  A `std::multimap` of which only
`find`, `equal_range` and `insert` are used is the list of its pairs in insertion
order: equal keys keep that order, and `find` returns the earliest of them.  A
vector is a list; `updateBack` writes through the reference `v[v.size() - 1]`.
-/

namespace Lib

abbrev StdMap (κ ν : Type) := List (κ × ν)

namespace StdMap

variable {κ ν : Type} [DecidableEq κ]

def find (m : StdMap κ ν) (k : κ) : Option ν := (List.find? (·.1 = k) m).map (·.2)

/-- `m[k] = v`. -/
def insert (lt : κ → κ → Bool) (k : κ) (v : ν) : StdMap κ ν → StdMap κ ν
  | [] => [(k, v)]
  | (k', v') :: m =>
    if k = k' then (k, v) :: m
    else if lt k k' then (k, v) :: (k', v') :: m
    else (k', v') :: insert lt k v m

theorem find_cons (k k' : κ) (v : ν) (m : StdMap κ ν) :
    find ((k', v) :: m) k = if k' = k then some v else find m k := by
  by_cases h : k' = k <;> simp [find, h]

/-- Reading after a write: the order plays no part. -/
theorem find_insert (lt : κ → κ → Bool) (k k' : κ) (v : ν) (m : StdMap κ ν) :
    find (insert lt k v m) k' = if k = k' then some v else find m k' := by
  induction m with
  | nil => simp [insert, find_cons]
  | cons p m ih =>
    obtain ⟨q, w⟩ := p
    by_cases h : k = q
    · subst h
      simp only [insert, ↓reduceIte, find_cons]
      by_cases hk : k = k' <;> simp [hk]
    · by_cases hlt : lt k q = true
      · simp only [insert, h, hlt, ↓reduceIte, find_cons]
      · simp only [insert, h, hlt, Bool.false_eq_true, ↓reduceIte, find_cons, ih]
        by_cases hq : q = k'
        · subst hq; simp [h]
        · simp [hq]

def keys (m : StdMap κ ν) : List κ := List.map (·.1) m

/-- With distinct keys, the pairs are what is found. -/
theorem find_eq_some (m : StdMap κ ν) (h : (keys m).Nodup) (k : κ) (v : ν) :
    find m k = some v ↔ (k, v) ∈ m := by
  induction m with
  | nil => simp [find]
  | cons e m ih =>
    obtain ⟨k', v'⟩ := e
    obtain ⟨hnot, hrest⟩ := List.nodup_cons.mp h
    rw [find_cons, List.mem_cons, Prod.mk.injEq]
    by_cases hk : k' = k
    · subst hk
      have hout : (k', v) ∉ m := fun hmem => hnot (List.mem_map.mpr ⟨_, hmem, rfl⟩)
      simp [hout, eq_comm]
    · rw [if_neg hk, ih hrest]
      simp [Ne.symm hk]

/-- `m.erase(k)`. -/
def erase (m : StdMap κ ν) (k : κ) : StdMap κ ν := List.filter (·.1 ≠ k) m

theorem mem_erase (m : StdMap κ ν) (k : κ) (e : κ × ν) : e ∈ erase m k ↔ e ∈ m ∧ e.1 ≠ k := by
  simp [erase]

theorem mem_keys_erase (m : StdMap κ ν) (k k' : κ) :
    k' ∈ keys (erase m k) ↔ k' ∈ keys m ∧ k' ≠ k := by
  constructor
  · intro h
    obtain ⟨e, he, rfl⟩ := List.mem_map.mp h
    rw [mem_erase] at he
    exact ⟨List.mem_map_of_mem he.1, he.2⟩
  · rintro ⟨h, hne⟩
    obtain ⟨e, he, rfl⟩ := List.mem_map.mp h
    exact List.mem_map_of_mem ((mem_erase m k e).mpr ⟨he, hne⟩)

theorem nodup_keys_erase (m : StdMap κ ν) (k : κ) (h : (keys m).Nodup) : (keys (erase m k)).Nodup :=
  h.sublist (List.filter_sublist.map _)

/-- The entry of a key that is there. -/
theorem length_erase (m : StdMap κ ν) (k : κ) (h : (keys m).Nodup) (hk : k ∈ keys m) :
    (erase m k).length + 1 = List.length m := by
  induction m with
  | nil => cases hk
  | cons e m ih =>
    obtain ⟨hnot, hrest⟩ := List.nodup_cons.mp h
    by_cases he : e.1 = k
    · have hself : erase m k = m := by
        rw [erase, List.filter_eq_self]
        intro e' he'
        have hne : e'.1 ≠ k := by
          rintro rfl
          exact hnot (List.mem_map.mpr ⟨e', he', he.symm⟩)
        simpa using hne
      have hcons : erase (e :: m) k = erase m k := List.filter_cons_of_neg (by simpa using he)
      rw [hcons, hself, List.length_cons]
    · have hcons : erase (e :: m) k = e :: erase m k := List.filter_cons_of_pos (by simpa using he)
      have hmem : k ∈ keys m := by
        rcases List.mem_cons.mp hk with hk | hk
        · exact absurd hk.symm he
        · exact hk
      rw [hcons, List.length_cons, ih hrest hmem, List.length_cons]

/-- `m[k]` changed in place, when it is there. -/
def modify (k : κ) (f : ν → ν) (m : StdMap κ ν) : StdMap κ ν :=
  List.map (fun e => if e.1 = k then (e.1, f e.2) else e) m

theorem keys_modify (k : κ) (f : ν → ν) (m : StdMap κ ν) : keys (modify k f m) = keys m := by
  rw [keys, modify, List.map_map]
  refine List.map_congr_left fun e _ => ?_
  simp only [Function.comp_apply]
  split <;> rfl

theorem find_modify (k k' : κ) (f : ν → ν) (m : StdMap κ ν) :
    find (modify k f m) k' = if k' = k then (find m k).map f else find m k' := by
  induction m with
  | nil => simp [modify, find]
  | cons e m ih =>
    obtain ⟨q, v⟩ := e
    simp only [modify, List.map_cons] at ih ⊢
    by_cases hq : q = k
    · subst hq
      simp only [↓reduceIte, find_cons, ih]
      by_cases hk : q = k'
      · simp [hk]
      · simp [hk, Ne.symm hk]
    · simp only [hq, ↓reduceIte, find_cons, ih]
      by_cases hk : k' = k
      · subst hk
        simp [hq]
      · simp [hk]

theorem modify_of_notMem (k : κ) (f : ν → ν) (m : StdMap κ ν) (h : k ∉ keys m) :
    modify k f m = m := by
  have hid : ∀ e ∈ m, (if e.1 = k then (e.1, f e.2) else e) = e := by
    intro e he
    exact if_neg fun hk => h (List.mem_map.mpr ⟨e, he, hk⟩)
  rw [modify, List.map_congr_left hid, List.map_id']

/-- A new key. -/
theorem insert_perm (lt : κ → κ → Bool) (m : StdMap κ ν) (k : κ) (v : ν) (hk : k ∉ keys m) :
    (insert lt k v m).Perm ((k, v) :: m) := by
  induction m with
  | nil => exact List.Perm.refl _
  | cons e m ih =>
    have hne : k ≠ e.1 := fun h => hk (h ▸ List.mem_cons_self)
    have hrest : k ∉ keys m := fun h => hk (List.mem_cons_of_mem _ h)
    rw [insert, if_neg hne]
    split
    · exact List.Perm.refl _
    · exact ((ih hrest).cons e).trans (List.Perm.swap _ _ _)

end StdMap

abbrev StdSet (α : Type) := List α

namespace StdSet

variable {α : Type} [DecidableEq α] (lt : α → α → Bool)

def insert (x : α) : StdSet α → StdSet α
  | [] => [x]
  | y :: s => if x = y then y :: s else if lt x y then x :: y :: s else y :: insert x s

def count (s : StdSet α) (x : α) : Nat := if x ∈ s then 1 else 0

/-- `s.insert(t.begin(), t.end())`. -/
def insertAll (s t : StdSet α) : StdSet α := t.foldl (fun s x => insert lt x s) s

theorem mem_insert (x y : α) (s : StdSet α) : y ∈ insert lt x s ↔ y = x ∨ y ∈ s := by
  induction s with
  | nil => simp [insert]
  | cons z s ih =>
    rw [insert]
    split
    · rename_i h
      simp [h]
    · split
      · simp
      · simp only [List.mem_cons, ih]
        exact or_left_comm

theorem mem_insertAll (s t : StdSet α) (y : α) : y ∈ insertAll lt s t ↔ y ∈ s ∨ y ∈ t := by
  induction t generalizing s with
  | nil => simp [insertAll]
  | cons x t ih =>
    show y ∈ insertAll lt (insert lt x s) t ↔ _
    rw [ih, mem_insert, List.mem_cons, or_assoc, or_left_comm]

/-! The elements of a set stand in its order, which is strict and total. -/

section Sorted

variable (htrans : ∀ a b c, lt a b = true → lt b c = true → lt a c = true)
  (htotal : ∀ a b, a ≠ b → lt a b = true ∨ lt b a = true)

def Sorted (s : StdSet α) : Prop := s.Pairwise fun a b => lt a b = true

include htrans htotal

theorem sorted_insert (x : α) (s : StdSet α) (hs : Sorted lt s) : Sorted lt (insert lt x s) := by
  induction s with
  | nil => exact List.pairwise_singleton _ x
  | cons y s ih =>
    obtain ⟨hy, htail⟩ := List.pairwise_cons.mp hs
    rw [insert]
    by_cases heq : x = y
    · rw [if_pos heq]
      exact hs
    · rw [if_neg heq]
      by_cases hlt : lt x y = true
      · rw [if_pos hlt]
        refine List.pairwise_cons.mpr ⟨?_, hs⟩
        intro z hz
        rcases List.mem_cons.mp hz with rfl | hz
        · exact hlt
        · exact htrans x y z hlt (hy z hz)
      · rw [if_neg hlt]
        have hyx : lt y x = true := (htotal x y heq).resolve_left hlt
        refine List.pairwise_cons.mpr ⟨?_, ih htail⟩
        intro z hz
        rcases (mem_insert lt x z s).mp hz with rfl | hz
        · exact hyx
        · exact hy z hz

theorem sorted_insertAll (s t : StdSet α) (hs : Sorted lt s) : Sorted lt (insertAll lt s t) := by
  induction t generalizing s with
  | nil => exact hs
  | cons x t ih => exact ih (insert lt x s) (sorted_insert lt htrans htotal x s hs)

end Sorted

end StdSet

abbrev StdMultimap (κ ν : Type) := List (κ × ν)

namespace StdMultimap

variable {κ ν : Type} [DecidableEq κ]

/-- `m.insert(std::pair(k, v))`. -/
def insert (m : StdMultimap κ ν) (k : κ) (v : ν) : StdMultimap κ ν := m ++ [(k, v)]

/-- The value `m.find(k)` points at, if any. -/
def find (m : StdMultimap κ ν) (k : κ) : Option ν := (List.find? (·.1 = k) m).map (·.2)

/-- The values in `m.equal_range(k)`. -/
def equalRange (m : StdMultimap κ ν) (k : κ) : List ν := (m.filter (·.1 = k)).map (·.2)

/-- `find` is the first of `equal_range`. -/
theorem find_eq_head (m : StdMultimap κ ν) (k : κ) : m.find k = (m.equalRange k).head? := by
  simp only [find, equalRange, List.head?_map, List.head?_filter]

theorem count_equalRange [DecidableEq ν] (m : StdMultimap κ ν) (k : κ) (v : ν) :
    (m.equalRange k).count v = List.count (k, v) m := by
  induction m with
  | nil => rfl
  | cons p m ih =>
    obtain ⟨k', v'⟩ := p
    simp only [equalRange] at ih ⊢
    by_cases hk : k' = k
    · rw [List.filter_cons_of_pos (by simpa using hk), List.map_cons, List.count_cons,
        List.count_cons, ih]
      simp [hk]
    · rw [List.filter_cons_of_neg (by simpa using hk), List.count_cons, ih]
      simp [hk]

/-- The values under every key determine the entries, up to their order. -/
theorem perm_of_equalRange [DecidableEq ν] (l m : StdMultimap κ ν)
    (h : ∀ k, l.equalRange k = m.equalRange k) : List.Perm l m := by
  refine List.perm_iff_count.mpr ?_
  rintro ⟨k, v⟩
  rw [← count_equalRange, ← count_equalRange, h]

theorem equalRange_append (l m : StdMultimap κ ν) (k : κ) :
    equalRange (l ++ m) k = equalRange l k ++ equalRange m k := by
  simp only [equalRange, List.filter_append, List.map_append]

end StdMultimap

section Vector

variable {α : Type}

/-- `f(v[v.size() - 1])`; callers check that `v` is not empty. -/
def updateBack (f : α → α) : List α → List α
  | [] => []
  | [x] => [f x]
  | x :: y :: l => x :: updateBack f (y :: l)

theorem updateBack_snoc (f : α → α) (l : List α) (x : α) :
    updateBack f (l ++ [x]) = l ++ [f x] := by
  induction l with
  | nil => rfl
  | cons y l ih => cases l <;> simp_all [updateBack]

theorem updateBack_updateBack (f g : α → α) (l : List α) :
    updateBack f (updateBack g l) = updateBack (fun x => f (g x)) l := by
  rcases List.eq_nil_or_concat l with rfl | ⟨l, x, rfl⟩
  · rfl
  · simp [updateBack_snoc]

theorem length_updateBack (f : α → α) (l : List α) : (updateBack f l).length = l.length := by
  rcases List.eq_nil_or_concat l with rfl | ⟨l, x, rfl⟩
  · rfl
  · simp [updateBack_snoc]

/-- The other elements stay. -/
theorem getElem?_updateBack (f : α → α) (l : List α) (j : Nat) (h : j ≠ l.length - 1) :
    (updateBack f l)[j]? = l[j]? := by
  rcases List.eq_nil_or_concat l with rfl | ⟨l, x, rfl⟩
  · rfl
  · rw [List.concat_eq_append] at h ⊢
    have hj : j ≠ l.length := by simpa using h
    rw [updateBack_snoc]
    rcases Nat.lt_or_gt_of_ne hj with hlt | hgt
    · rw [List.getElem?_append_left hlt, List.getElem?_append_left hlt]
    · rw [List.getElem?_eq_none (by simp; omega), List.getElem?_eq_none (by simp; omega)]

/-- A change that `g` does not see. -/
theorem map_updateBack {β : Type} (f : α → α) (g : α → β) (l : List α) (h : ∀ x, g (f x) = g x) :
    (updateBack f l).map g = l.map g := by
  rcases List.eq_nil_or_concat l with rfl | ⟨l, x, rfl⟩
  · rfl
  · simp [updateBack_snoc, h]

end Vector

end Lib
