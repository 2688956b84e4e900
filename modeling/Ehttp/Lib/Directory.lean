import Ehttp.Lib.Containers
import Mathlib.Data.List.Nodup

/-!
# A directory of append-only files

Files are lists of lines, found by name.  `open` in append mode, `rename`,
`remove` and the writes are those of a file system in which no call fails.

* `find_openAppend`, `find_append`, `find_rename`, `find_remove`: what each of
  them leaves under every name;
* `lines_openAppend`, `lines_append`, `lines_rename`: no line is lost or
  written twice.
-/

namespace Lib

structure Directory (ν α : Type) where
  entries : StdMap ν (List α)
  nodup : (StdMap.keys entries).Nodup

namespace Directory

variable {ν α : Type} [DecidableEq ν]

def empty : Directory ν α := ⟨[], List.nodup_nil⟩

def find (d : Directory ν α) (n : ν) : Option (List α) := StdMap.find d.entries n

/-- `access(n, F_OK) == 0`. -/
def access (d : Directory ν α) (n : ν) : Bool := (d.find n).isSome

theorem find_eq_some (d : Directory ν α) (n : ν) (c : List α) :
    d.find n = some c ↔ (n, c) ∈ d.entries :=
  StdMap.find_eq_some d.entries d.nodup n c

theorem find_eq_none (d : Directory ν α) (n : ν) : d.find n = none ↔ n ∉ StdMap.keys d.entries := by
  rw [Option.eq_none_iff_forall_ne_some]
  constructor
  · intro h hmem
    obtain ⟨e, he, rfl⟩ := List.mem_map.mp hmem
    exact h e.2 ((d.find_eq_some e.1 e.2).mpr he)
  · intro h c hc
    exact h (List.mem_map.mpr ⟨(n, c), (d.find_eq_some n c).mp hc, rfl⟩)

/-! ## The calls -/

/-- `open(n, out | app)`: the file is created unless it is there. -/
def openAppend (n : ν) (d : Directory ν α) : Directory ν α :=
  if h : n ∈ StdMap.keys d.entries then d
  else
    { entries := (n, []) :: d.entries
      nodup := List.nodup_cons.mpr ⟨h, d.nodup⟩ }

/-- One line written to a file. -/
def append (n : ν) (x : α) (d : Directory ν α) : Directory ν α where
  entries := StdMap.modify n (fun c => c ++ [x]) d.entries
  nodup := by
    rw [StdMap.keys_modify]
    exact d.nodup

def remove (n : ν) (d : Directory ν α) : Directory ν α where
  entries := StdMap.erase d.entries n
  nodup := StdMap.nodup_keys_erase d.entries n d.nodup

/-- `rename(a, b)` replaces a file of the new name. -/
def rename (a b : ν) (d : Directory ν α) : Directory ν α :=
  if a = b ∨ a ∉ StdMap.keys d.entries then d
  else
    { entries := (StdMap.erase d.entries b).map fun e => if e.1 = a then (b, e.2) else e
      nodup := by
        have hkeys : StdMap.keys ((StdMap.erase d.entries b).map
              fun e => if e.1 = a then (b, e.2) else e) =
            (StdMap.keys (StdMap.erase d.entries b)).map fun n => if n = a then b else n := by
          rw [StdMap.keys, StdMap.keys, List.map_map, List.map_map]
          refine List.map_congr_left fun e _ => ?_
          simp only [Function.comp_apply]
          split <;> rfl
        rw [hkeys]
        refine List.Nodup.map_on ?_ (StdMap.nodup_keys_erase d.entries b d.nodup)
        intro m hm n hn h
        have hmb := ((StdMap.mem_keys_erase d.entries b m).mp hm).2
        have hnb := ((StdMap.mem_keys_erase d.entries b n).mp hn).2
        split at h <;> split at h <;> simp_all }

/-! ## What they leave under a name -/

section Find

variable (d : Directory ν α)

theorem find_openAppend (n m : ν) :
    (d.openAppend n).find m = if m = n then some ((d.find n).getD []) else d.find m := by
  unfold openAppend
  by_cases h : n ∈ StdMap.keys d.entries
  · rw [dif_pos h]
    by_cases hm : m = n
    · subst hm
      cases hf : d.find m with
      | none => exact absurd h ((d.find_eq_none m).mp hf)
      | some c => rw [if_pos rfl, Option.getD_some]
    · rw [if_neg hm]
  · rw [dif_neg h]
    have hnone := (d.find_eq_none n).mpr h
    show StdMap.find ((n, []) :: d.entries) m = _
    rw [StdMap.find_cons, hnone, Option.getD_none]
    by_cases hm : m = n
    · rw [if_pos hm.symm, if_pos hm]
    · rw [if_neg (Ne.symm hm), if_neg hm]
      rfl

theorem find_append (n m : ν) (x : α) :
    (d.append n x).find m = if m = n then (d.find n).map (fun c => c ++ [x]) else d.find m :=
  StdMap.find_modify n m (fun c => c ++ [x]) d.entries

theorem find_remove (n m : ν) : (d.remove n).find m = if m = n then none else d.find m := by
  by_cases hm : m = n
  · rw [if_pos hm, find_eq_none, remove, StdMap.mem_keys_erase]
    exact fun h => h.2 hm
  · rw [if_neg hm]
    ext c
    rw [find_eq_some, find_eq_some, remove, StdMap.mem_erase]
    exact and_iff_left hm

theorem find_rename (a b m : ν) (x : List α) (hab : a ≠ b) (ha : d.find a = some x) :
    (d.rename a b).find m = if m = b then some x else if m = a then none else d.find m := by
  have hin : a ∈ StdMap.keys d.entries :=
    List.mem_map.mpr ⟨(a, x), (d.find_eq_some a x).mp ha, rfl⟩
  have hmem : ∀ c, (d.rename a b).find m = some c ↔
      ∃ e ∈ d.entries, e.1 ≠ b ∧ (if e.1 = a then (b, e.2) else e) = (m, c) := by
    intro c
    rw [find_eq_some, rename, if_neg (by simp [hab, hin]), List.mem_map]
    simp only [StdMap.mem_erase, and_assoc]
  ext c
  rw [hmem]
  constructor
  · rintro ⟨e, he, hb, h⟩
    have hfind := (d.find_eq_some e.1 e.2).mpr he
    by_cases hea : e.1 = a
    · rw [if_pos hea, Prod.mk.injEq] at h
      rw [if_pos h.1.symm, ← h.2, ← hfind, hea, ha]
    · rw [if_neg hea] at h
      rw [h] at hfind hb hea
      rw [if_neg hb, if_neg hea]
      exact hfind
  · intro h
    by_cases hmb : m = b
    · rw [if_pos hmb, Option.some.injEq] at h
      exact ⟨(a, x), (d.find_eq_some a x).mp ha, hab, by rw [if_pos rfl, hmb, h]⟩
    · rw [if_neg hmb] at h
      by_cases hma : m = a
      · rw [if_pos hma] at h
        cases h
      · rw [if_neg hma] at h
        exact ⟨(m, c), (d.find_eq_some m c).mp h, hmb, by rw [if_neg hma]⟩

end Find

/-! ## No line is lost -/

theorem flatMap_modify (n : ν) (x : α) (es : StdMap ν (List α)) (h : (StdMap.keys es).Nodup)
    (hn : n ∈ StdMap.keys es) :
    (List.flatMap (fun e => e.2) (StdMap.modify n (fun c => c ++ [x]) es)).Perm
      (x :: List.flatMap (fun e => e.2) es) := by
  induction es with
  | nil => cases hn
  | cons e es ih =>
    obtain ⟨hnot, hrest⟩ := List.nodup_cons.mp h
    by_cases he : e.1 = n
    · have hkeep := StdMap.modify_of_notMem n (fun c => c ++ [x]) es (he ▸ hnot)
      have hcons : StdMap.modify n (fun c => c ++ [x]) (e :: es) = (e.1, e.2 ++ [x]) :: es := by
        rw [StdMap.modify, List.map_cons, if_pos he]
        exact congrArg _ hkeep
      rw [hcons, List.flatMap_cons, List.flatMap_cons, List.append_assoc]
      exact List.perm_middle
    · have hmem : n ∈ StdMap.keys es := by
        rcases List.mem_cons.mp hn with hn | hn
        · exact absurd hn.symm he
        · exact hn
      have hcons : StdMap.modify n (fun c => c ++ [x]) (e :: es) =
          e :: StdMap.modify n (fun c => c ++ [x]) es := by
        rw [StdMap.modify, List.map_cons, if_neg he]
        rfl
      rw [hcons, List.flatMap_cons, List.flatMap_cons]
      exact ((ih hrest hmem).append_left e.2).trans List.perm_middle

/-- The lines of all files. -/
def lines (d : Directory ν α) : List α := d.entries.flatMap fun e => e.2

section Lines

variable (d : Directory ν α)

theorem lines_openAppend (n : ν) : (d.openAppend n).lines = d.lines := by
  unfold openAppend
  split
  · rfl
  · simp [lines]

/-- A line written to a file that is there. -/
theorem lines_append (n : ν) (x : α) (h : (d.find n).isSome = true) :
    (d.append n x).lines.Perm (x :: d.lines) := by
  have hin : n ∈ StdMap.keys d.entries := by
    refine Classical.byContradiction fun hnot => ?_
    rw [(d.find_eq_none n).mpr hnot] at h
    cases h
  exact flatMap_modify n x d.entries d.nodup hin

/-- A file renamed to a name that is free. -/
theorem lines_rename (a b : ν) (hb : d.find b = none) : (d.rename a b).lines = d.lines := by
  have hfree := (d.find_eq_none b).mp hb
  have herase : StdMap.erase d.entries b = d.entries := by
    rw [StdMap.erase, List.filter_eq_self]
    intro e he
    have hne : e.1 ≠ b := fun h => hfree (List.mem_map.mpr ⟨e, he, h⟩)
    simpa using hne
  unfold rename
  split
  · rfl
  · simp only [lines, herase, List.flatMap_map]
    refine List.flatMap_congr fun e _ => ?_
    split <;> rfl

end Lines

end Directory

end Lib
