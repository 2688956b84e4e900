import Ehttp.Lib.Fragments
import Ehttp.Lib.Slices

/-!
# Push parsers that mark their data

A parser that reads a buffer with a cursor keeps, for each kind of data, a mark
where the data began; it flushes the bytes from the mark to the cursor to a
callback when the data ends or the buffer does.  `χ` is what a callback is
given besides its bytes, `δ` the channel it belongs to (`chan`), and `κ` the
kind of the mark (`kind`).

* `runOps_append`, `runOps_shift`: operations in a row, and from another position;
* `meaning`: what the operations say when every byte is handed out at once;
* `join_runOps`: the outputs of a buffer are its meaning, up to gluing;
* `meaning_resume`: a buffer may be cut wherever the mark is set again;
* `inside_runOps`: the data is cut out of the bytes that were passed.
-/

namespace Lib

inductive MarkOp (χ ν β : Type)
  | mark (x : χ)
  /-- `er` is where the cursor is taken to stand if the callback fails. -/
  | flush (x : χ) (er : Int)
  | notify (e : ν) (er : Nat)
  | pass (u : List β)
  deriving Repr

/-- The bytes between each mark that is set and the cursor. -/
structure Marks (κ β : Type) where
  data : κ → Option (List β) := fun _ => none
  cursor : Nat := 0

/-- An output and the position that goes with it. -/
structure Sent (χ ν β : Type) where
  output : Output χ ν β
  pos : Nat
  deriving DecidableEq, Repr

namespace MarkOp

variable {χ ν β κ δ : Type} [DecidableEq κ] (chan : χ → δ) (kind : δ → κ)

def run : MarkOp χ ν β → Marks κ β → List (Sent χ ν β) × Marks κ β
  | .mark x, m =>
    ([], { m with data := fun k => if k = kind (chan x) ∧ m.data k = none then some [] else m.data k })
  | .flush x er, m =>
    match m.data (kind (chan x)) with
    | none => ([], m)
    | some s =>
      ([⟨.data x s, (m.cursor + er).toNat⟩],
        { m with data := fun k => if k = kind (chan x) then none else m.data k })
  | .notify e er, m => ([⟨.notice e, m.cursor + er⟩], m)
  | .pass u, m => ([], { data := fun k => (m.data k).map (· ++ u), cursor := m.cursor + u.length })

def runOps : List (MarkOp χ ν β) → Marks κ β → List (Sent χ ν β) × Marks κ β
  | [], m => ([], m)
  | op :: ops, m =>
    ((op.run chan kind m).1 ++ (runOps ops (op.run chan kind m).2).1,
      (runOps ops (op.run chan kind m).2).2)

theorem runOps_append (ops ops' : List (MarkOp χ ν β)) (m : Marks κ β) :
    runOps chan kind (ops ++ ops') m =
      ((runOps chan kind ops m).1 ++ (runOps chan kind ops' (runOps chan kind ops m).2).1,
        (runOps chan kind ops' (runOps chan kind ops m).2).2) := by
  induction ops generalizing m with
  | nil => rfl
  | cons op ops ih => simp [runOps, ih]

/-- Operations that do the same from any marks. -/
def Alike (ops ops' : List (MarkOp χ ν β)) : Prop :=
  ∀ m : Marks κ β, runOps chan kind ops m = runOps chan kind ops' m

variable {chan kind} in
theorem Alike.append {as bs as' bs' : List (MarkOp χ ν β)} (h : Alike chan kind as bs)
    (h' : Alike chan kind as' bs') : Alike chan kind (as ++ as') (bs ++ bs') := by
  intro m
  rw [runOps_append, runOps_append, h m, h']

/-- Bytes are passed at once or one by one. -/
theorem alike_pass (u : List β) :
    Alike chan kind [(.pass u : MarkOp χ ν β)] (u.map fun b => .pass [b]) := by
  intro m
  induction u generalizing m with
  | nil => simp [runOps, run]
  | cons b u ih =>
    have hrest := ih ((MarkOp.pass [b] : MarkOp χ ν β).run chan kind m).2
    simp only [runOps, run, List.map_cons, List.append_nil, List.nil_append] at hrest ⊢
    rw [← hrest]
    simp [Function.comp_def, Nat.add_assoc, Nat.add_comm 1]

/-- Data is marked once or before every byte of it. -/
theorem alike_mark_pass (x : χ) (u : List β) (hu : u ≠ []) :
    Alike chan kind [.mark x, (.pass u : MarkOp χ ν β)] (u.flatMap fun b => [.mark x, .pass [b]]) := by
  intro m
  cases u with
  | nil => exact absurd rfl hu
  | cons b u =>
    induction u generalizing b m with
    | nil => rfl
    | cons b' u ih =>
      have hrest := ih (runOps chan kind [.mark x, (.pass [b] : MarkOp χ ν β)] m).2 b' (by simp)
      rw [List.flatMap_cons, runOps_append, ← hrest]
      simp only [runOps, run, List.append_nil, Prod.mk.injEq, true_and]
      congr 1
      · funext k
        cases m.data k with
        | none =>
          by_cases hk : k = kind (chan x)
          · simp [hk]
          · simp [hk]
        | some s => simp
      · simp [Nat.add_assoc, Nat.add_comm 1]

/-! ## Meaning -/

/-- What an output says: its channel, and for a notice its position. -/
def said (t : Sent χ ν β) : Output δ (ν × Nat) β :=
  match t.output with
  | .data x s => .data (chan x) s
  | .notice e => .notice (e, t.pos)

/-- The channel that is marked, and the position of the cursor. -/
abbrev Reading (δ : Type) : Type := Option δ × Nat

/-- Every byte is handed out as the cursor passes it. -/
def mean : MarkOp χ ν β → Reading δ → List (Output δ (ν × Nat) β) × Reading δ
  | .mark x, (_, n) => ([.data (chan x) []], (some (chan x), n))
  | .flush x _, (d, n) =>
    ([], ((if d.map kind = some (kind (chan x)) then none else d), n))
  | .notify e er, (d, n) => ([.notice (e, n + er)], (d, n))
  | .pass u, (d, n) =>
    ((match d with | none => [] | some d => [.data d u]), (d, n + u.length))

def meaning : List (MarkOp χ ν β) → Reading δ → List (Output δ (ν × Nat) β) × Reading δ
  | [], r => ([], r)
  | op :: ops, r =>
    ((op.mean chan kind r).1 ++ (meaning ops (op.mean chan kind r).2).1,
      (meaning ops (op.mean chan kind r).2).2)

theorem meaning_append (ops ops' : List (MarkOp χ ν β)) (r : Reading δ) :
    meaning chan kind (ops ++ ops') r =
      ((meaning chan kind ops r).1 ++ (meaning chan kind ops' (meaning chan kind ops r).2).1,
        (meaning chan kind ops' (meaning chan kind ops r).2).2) := by
  induction ops generalizing r with
  | nil => rfl
  | cons op ops ih => simp [meaning, ih]

/-- One channel at a time: it is not marked while another one is, it is flushed
as it was marked, and nothing else is said before. -/
def Tidy : MarkOp χ ν β → Option δ → Prop
  | .mark x, d => d = none ∨ d = some (chan x)
  | .flush x _, d => ∀ y, d = some y → kind y = kind (chan x) → y = chan x
  | .notify _ _, d => d = none
  | .pass _, _ => True

def TidyOps : List (MarkOp χ ν β) → Reading δ → Prop
  | [], _ => True
  | op :: ops, r => op.Tidy chan kind r.1 ∧ TidyOps ops (op.mean chan kind r).2

theorem tidyOps_append (ops ops' : List (MarkOp χ ν β)) (r : Reading δ) :
    TidyOps chan kind (ops ++ ops') r ↔
      TidyOps chan kind ops r ∧ TidyOps chan kind ops' (meaning chan kind ops r).2 := by
  induction ops generalizing r with
  | nil => simp [TidyOps, meaning]
  | cons op ops ih => simp [TidyOps, meaning, ih, and_assoc]

/-- The marks of a reader of channel `d` that has seen `s` of its data. -/
def Reads (m : Marks κ β) (r : Reading δ) (s : List β) : Prop :=
  m.cursor = r.2 ∧
    match r.1 with
    | none => (∀ k, m.data k = none) ∧ s = []
    | some d => m.data (kind d) = some s ∧ ∀ k, k ≠ kind d → m.data k = none

omit [DecidableEq κ] in
theorem reads_start : Reads kind ({} : Marks κ β) ((none, 0) : Reading δ) [] := ⟨rfl, fun _ => rfl, rfl⟩

/-- What is marked and not yet flushed. -/
def pending (d : Option δ) (s : List β) : List (Output δ (ν × Nat) β) :=
  match d with
  | none => []
  | some d => [.data d s]

/-- Another origin for the positions. -/
def shift (start : Nat) : Output δ (ν × Nat) β → Output δ (ν × Nat) β
  | .data x s => .data x s
  | .notice (e, n) => .notice (e, start + n)

theorem run_shift (op : MarkOp χ ν β) (data : κ → Option (List β)) (start n : Nat) :
    (op.run chan kind ⟨data, start + n⟩).1.map (said chan) =
        ((op.run chan kind ⟨data, n⟩).1.map (said chan)).map (shift start) ∧
      (op.run chan kind ⟨data, start + n⟩).2 =
        ⟨(op.run chan kind ⟨data, n⟩).2.data, start + (op.run chan kind ⟨data, n⟩).2.cursor⟩ := by
  cases op with
  | mark x => exact ⟨rfl, rfl⟩
  | flush x er =>
    cases h : data (kind (chan x)) with
    | none => simp [run, h]
    | some s => simp [run, h, said, shift]
  | notify e er => simp [run, said, shift, Nat.add_assoc]
  | pass u => simp [run, Nat.add_assoc]

/-- **Positions** are relative to where the cursor starts. -/
theorem runOps_shift (ops : List (MarkOp χ ν β)) (data : κ → Option (List β)) (start n : Nat) :
    (runOps chan kind ops ⟨data, start + n⟩).1.map (said chan) =
      ((runOps chan kind ops ⟨data, n⟩).1.map (said chan)).map (shift start) := by
  induction ops generalizing data n with
  | nil => rfl
  | cons op ops ih =>
    obtain ⟨hout, hmarks⟩ := run_shift chan kind op data start n
    simp only [runOps, List.map_append, hout, hmarks, ih]

/-! ## Cutting a buffer -/

/-- The outputs so far end on the channel that is marked. -/
def EndsOn (pre : List (Output δ (ν × Nat) β)) (d : Option δ) : Prop :=
  ∀ x, d = some x → ∃ front s, pre = front ++ [.data x s]

theorem endsOn_meaning (ops : List (MarkOp χ ν β)) (r : Reading δ)
    (pre : List (Output δ (ν × Nat) β)) (hpre : EndsOn pre r.1) (ht : TidyOps chan kind ops r) :
    EndsOn (pre ++ (meaning chan kind ops r).1) (meaning chan kind ops r).2.1 := by
  induction ops generalizing r pre with
  | nil => simpa [meaning] using hpre
  | cons op ops ih =>
    have hone : EndsOn (pre ++ (op.mean chan kind r).1) (op.mean chan kind r).2.1 := by
      obtain ⟨d, n⟩ := r
      cases op with
      | mark x =>
        intro y hy
        obtain rfl := Option.some.inj hy
        exact ⟨pre, [], rfl⟩
      | flush x er =>
        intro y hy
        simp only [mean] at hy ⊢
        split at hy
        · cases hy
        · rw [List.append_nil]
          exact hpre y hy
      | notify e er =>
        obtain rfl : d = none := ht.1
        intro y hy
        cases hy
      | pass u =>
        intro y hy
        obtain rfl : d = some y := hy
        exact ⟨pre, u, rfl⟩
    have hrest := ih _ _ hone ht.2
    rwa [List.append_assoc] at hrest

/-- How a reader of the next buffer starts, where the one before it stopped on
channel `d`: the mark is set again, or the first operation does not need it. -/
inductive Resumes : Option δ → List (MarkOp χ ν β) → List (MarkOp χ ν β) → Prop
  | idle (ops : List (MarkOp χ ν β)) : Resumes none [] ops
  | again (x : χ) (ops : List (MarkOp χ ν β)) : Resumes (some (chan x)) [.mark x] ops
  | mark (d : δ) (x : χ) (ops : List (MarkOp χ ν β)) : Resumes (some d) [] (.mark x :: ops)
  | flush (d : δ) (x : χ) (er : Int) (ops : List (MarkOp χ ν β)) :
    kind d = kind (chan x) → Resumes (some d) [] (.flush x er :: ops)

section Join

variable [DecidableEq δ]

/-- **Cuts.**  The second buffer says what it would have said without the cut. -/
theorem meaning_resume (pre : List (Output δ (ν × Nat) β)) (d : Option δ)
    (entry ops : List (MarkOp χ ν β)) (n : Nat) (hpre : EndsOn pre d)
    (h : Resumes chan kind d entry ops) :
    Output.join (pre ++ (meaning chan kind (entry ++ ops) (none, n)).1) =
        Output.join (pre ++ (meaning chan kind ops (d, n)).1) ∧
      (meaning chan kind (entry ++ ops) (none, n)).2 = (meaning chan kind ops (d, n)).2 := by
  cases h with
  | idle => exact ⟨rfl, rfl⟩
  | again x =>
    refine ⟨?_, rfl⟩
    obtain ⟨front, s, rfl⟩ := hpre (chan x) rfl
    rw [List.append_assoc, List.append_assoc]
    exact (Output.join_merge front _ (chan x) s []).trans (by rw [List.append_nil]; rfl)
  | mark d x ops => exact ⟨rfl, rfl⟩
  | flush d x er ops hk =>
    have hone : (MarkOp.flush x er : MarkOp χ ν β).mean chan kind (some d, n) =
        (MarkOp.flush x er : MarkOp χ ν β).mean chan kind (none, n) := by
      simp [mean, hk]
    simp only [List.nil_append, meaning, hone, and_self]

/-- One operation: what it says now and what is left pending is what was
pending and its meaning. -/
theorem join_run (op : MarkOp χ ν β) (m : Marks κ β) (r : Reading δ) (s : List β)
    (h : Reads kind m r s) (ht : op.Tidy chan kind r.1) :
    ∃ s', Reads kind (op.run chan kind m).2 (op.mean chan kind r).2 s' ∧
      Output.join ((op.run chan kind m).1.map (said chan) ++
          pending (op.mean chan kind r).2.1 s') =
        Output.join (pending r.1 s ++ (op.mean chan kind r).1) := by
  obtain ⟨d, n⟩ := r
  obtain ⟨hn, hd⟩ := h
  cases op with
  | mark x =>
    rcases ht with rfl | rfl
    · obtain ⟨hnone, rfl⟩ := hd
      refine ⟨[], ⟨hn, ?_, ?_⟩, rfl⟩
      · simp [run, hnone]
      · intro k hk
        simp [run, hnone, hk]
    · obtain ⟨hsome, hother⟩ := hd
      refine ⟨s, ⟨hn, ?_, ?_⟩, ?_⟩
      · simp [run, hsome]
      · intro k hk
        simp [run, hother k hk, hk]
      · simp [run, mean, pending, Output.join_cons, Output.glue_data_same]
  | flush x er =>
    cases d with
    | none =>
      obtain ⟨hnone, rfl⟩ := hd
      refine ⟨[], ⟨?_, ?_⟩, ?_⟩
      · simp [run, mean, hnone, hn]
      · simp [run, mean, hnone]
      · simp [run, mean, hnone, pending]
    | some d =>
      obtain ⟨hsome, hother⟩ := hd
      by_cases hk : kind d = kind (chan x)
      · obtain rfl := ht d rfl hk
        refine ⟨[], ⟨?_, ?_⟩, ?_⟩
        · simp [run, mean, hsome, hn]
        · simp only [run, mean, hsome, Option.map_some, ↓reduceIte, and_true]
          intro k
          split
          · rfl
          · rename_i hne
            exact hother k hne
        · simp [run, mean, hsome, pending, said]
      · have hnone := hother (kind (chan x)) (Ne.symm hk)
        refine ⟨s, ⟨?_, ?_⟩, ?_⟩
        · simp [run, mean, hnone, hn]
        · simp only [run, mean, hnone, Option.map_some, Option.some.injEq, hk, ↓reduceIte]
          exact ⟨hsome, hother⟩
        · simp [run, mean, hnone, hk, pending]
  | notify e er =>
    obtain rfl : d = none := ht
    refine ⟨s, ⟨hn, hd⟩, ?_⟩
    simp only at hn
    simp [run, mean, pending, said, hn]
  | pass u =>
    cases d with
    | none =>
      obtain ⟨hnone, rfl⟩ := hd
      refine ⟨[], ⟨?_, ?_⟩, ?_⟩
      · simp [run, mean, hn]
      · simp [run, mean, hnone]
      · simp [run, mean, pending]
    | some d =>
      obtain ⟨hsome, hother⟩ := hd
      refine ⟨s ++ u, ⟨?_, ?_⟩, ?_⟩
      · simp [run, mean, hn]
      · simp only [run, mean, hsome, Option.map_some, true_and]
        intro k hk
        simp [hother k hk]
      · simp [run, mean, pending, Output.join_cons, Output.glue_data_same]

/-- **Marks.**  The outputs, with what is still pending, are the meaning. -/
theorem join_runOps (ops : List (MarkOp χ ν β)) (m : Marks κ β) (r : Reading δ) (s : List β)
    (h : Reads kind m r s) (ht : TidyOps chan kind ops r) :
    ∃ s', Reads kind (runOps chan kind ops m).2 (meaning chan kind ops r).2 s' ∧
      Output.join ((runOps chan kind ops m).1.map (said chan) ++
          pending (meaning chan kind ops r).2.1 s') =
        Output.join (pending r.1 s ++ (meaning chan kind ops r).1) := by
  induction ops generalizing m r s with
  | nil => exact ⟨s, h, by simp [runOps, meaning]⟩
  | cons op ops ih =>
    obtain ⟨s', hreads, hone⟩ := join_run chan kind op m r s h ht.1
    obtain ⟨s'', hreads', hrest⟩ := ih _ _ s' hreads ht.2
    refine ⟨s'', hreads', ?_⟩
    calc Output.join ((runOps chan kind (op :: ops) m).1.map (said chan) ++
          pending (meaning chan kind (op :: ops) r).2.1 s'')
        = Output.join ((op.run chan kind m).1.map (said chan) ++
            (pending (op.mean chan kind r).2.1 s' ++
              (meaning chan kind ops (op.mean chan kind r).2).1)) := by
          rw [runOps, List.map_append, List.append_assoc]
          exact Output.join_congr rfl hrest
      _ = Output.join ((pending r.1 s ++ (op.mean chan kind r).1) ++
            (meaning chan kind ops (op.mean chan kind r).2).1) := by
          rw [← List.append_assoc]
          exact Output.join_congr hone rfl
      _ = Output.join (pending r.1 s ++ (meaning chan kind (op :: ops) r).1) := by
          rw [meaning, List.append_assoc]

end Join

/-! ## Notices -/

/-- Operations without a notice. -/
def Muted (ops : List (MarkOp χ ν β)) : Prop := ∀ e er, .notify e er ∉ ops

omit [DecidableEq κ] in
theorem muted_nil : Muted ([] : List (MarkOp χ ν β)) := fun e er h => by cases h

theorem notify_of_runOps (ops : List (MarkOp χ ν β)) (m : Marks κ β) {t : Sent χ ν β} {e : ν}
    (h : t ∈ (runOps chan kind ops m).1) (ht : t.output = .notice e) : ∃ er, .notify e er ∈ ops := by
  induction ops generalizing m with
  | nil => cases h
  | cons op ops ih =>
    rcases List.mem_append.mp h with hnow | hlater
    · cases op with
      | mark x => cases hnow
      | flush x er =>
        simp only [run] at hnow
        split at hnow
        · cases hnow
        · obtain rfl := List.mem_singleton.mp hnow
          cases ht
      | notify e' er =>
        obtain rfl := List.mem_singleton.mp hnow
        cases ht
        exact ⟨er, List.mem_cons_self ..⟩
      | pass u => cases hnow
    · obtain ⟨er, hmem⟩ := ih _ hlater
      exact ⟨er, List.mem_cons_of_mem _ hmem⟩

/-- The notice `e` is the last output. -/
def EndsIn (ops : List (MarkOp χ ν β)) (e : ν) : Prop :=
  ∃ front er back, ops = front ++ .notify e er :: back ∧ ∀ op ∈ back, ∃ u, op = .pass u

omit [DecidableEq κ] in
theorem EndsIn.append {ops : List (MarkOp χ ν β)} {e : ν} (h : EndsIn ops e)
    (pre : List (MarkOp χ ν β)) : EndsIn (pre ++ ops) e := by
  obtain ⟨front, er, back, rfl, hback⟩ := h
  exact ⟨pre ++ front, er, back, by simp, hback⟩

theorem runOps_endsIn {ops : List (MarkOp χ ν β)} {e : ν} (h : EndsIn ops e) (m : Marks κ β) :
    ∃ sent k, (runOps chan kind ops m).1 = sent ++ [⟨.notice e, k⟩] := by
  obtain ⟨front, er, back, rfl, hback⟩ := h
  have hpass : ∀ m : Marks κ β, (runOps chan kind back m).1 = [] := by
    induction back with
    | nil => exact fun m => rfl
    | cons op back ih =>
      obtain ⟨u, rfl⟩ := hback op (List.mem_cons_self ..)
      intro m
      exact ih (fun op hop => hback op (List.mem_cons_of_mem _ hop)) _
  rw [runOps_append]
  simp only [runOps, run, hpass, List.append_nil]
  exact ⟨_, _, rfl⟩

/-! ## The bytes behind the data -/

/-- The bytes the cursor moves over. -/
def passed : List (MarkOp χ ν β) → List β
  | [] => []
  | .pass u :: ops => u ++ passed ops
  | .mark _ :: ops | .flush _ _ :: ops | .notify _ _ :: ops => passed ops

theorem passed_append (ops ops' : List (MarkOp χ ν β)) :
    passed (ops ++ ops') = passed ops ++ passed ops' := by
  induction ops with
  | nil => rfl
  | cons op ops ih => cases op <;> simp [passed, ih]

/-- The data of an output. -/
def data? (t : Sent χ ν β) : Option (List β) :=
  match t.output with
  | .data _ s => some s
  | .notice _ => none

/-- **Slices.**  The data handed out is cut out of what was pending and what is
passed, piece behind piece. -/
theorem inside_runOps [DecidableEq δ] (ops : List (MarkOp χ ν β)) (m : Marks κ β) (r : Reading δ) (s : List β)
    (h : Reads kind m r s) (ht : TidyOps chan kind ops r) :
    Slice.Inside ((runOps chan kind ops m).1.filterMap data?) (s ++ passed ops) := by
  induction ops generalizing m r s with
  | nil => exact .nil _
  | cons op ops ih =>
    obtain ⟨s', hreads, -⟩ := join_run chan kind op m r s h ht.1
    have hrest := ih _ _ s' hreads ht.2
    obtain ⟨d, n⟩ := r
    simp only [runOps, List.filterMap_append]
    -- what is pending behind the operation
    cases op with
    | mark x =>
      obtain rfl : s' = s := by
        rcases ht.1 with rfl | rfl
        · obtain ⟨-, hnone, rfl⟩ := h
          simpa [run, mean, hnone] using hreads.2.1.symm
        · obtain ⟨-, hsome, -⟩ := h
          simpa [run, mean, hsome] using hreads.2.1.symm
      exact hrest
    | flush x er =>
      cases d with
      | none =>
        obtain ⟨-, hnone, rfl⟩ := h
        obtain rfl : s' = [] := hreads.2.2
        simpa [run, hnone, passed] using hrest
      | some d =>
        obtain ⟨-, hsome, hother⟩ := h
        by_cases hk : kind d = kind (chan x)
        · have hempty : s' = [] := by
            have h2 := hreads.2
            simp only [mean, hk, Option.map_some, ↓reduceIte] at h2
            exact h2.2
          rw [hk] at hsome
          rw [hempty] at hrest
          simpa [run, hsome, passed, data?] using Slice.Inside.take s hrest
        · have hnone := hother (kind (chan x)) (Ne.symm hk)
          obtain rfl : s' = s := by
            have h2 := hreads.2
            simp only [mean, hk, Option.map_some, Option.some.injEq, ↓reduceIte, run, hnone] at h2
            exact Option.some.inj (h2.1.symm.trans hsome)
          simpa [run, hnone, passed] using hrest
    | notify e er =>
      obtain rfl : d = none := ht.1
      obtain rfl : s = [] := h.2.2
      obtain rfl : s' = [] := hreads.2.2
      simpa [run, passed, data?, List.filterMap_cons] using hrest
    | pass u =>
      cases d with
      | none =>
        obtain rfl : s = [] := h.2.2
        obtain rfl : s' = [] := hreads.2.2
        simpa [run, passed] using hrest.skips u
      | some d =>
        obtain ⟨-, hsome, -⟩ := h
        obtain rfl : s' = s ++ u := by
          simpa [run, mean, hsome] using hreads.2.1.symm
        simpa [run, passed] using hrest

end MarkOp

end Lib
