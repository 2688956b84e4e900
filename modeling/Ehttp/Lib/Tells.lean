import Ehttp.Lib.Marks
import Ehttp.Lib.Scan

/-!
# What a marking parser says of some input

`Tells step c d u c' d' say`: from state `c` with channel `d` marked, the parser
reads `u` up to `c'` with `d'` marked, and says `say n`, up to gluing, if `u` is
at position `n`.

* `Tells.append`: one input behind another;
* `Tells.word`, `Tells.repeated`: data between a mark and its flush, and data
  that is marked again before every element.
-/

namespace Lib

open MarkOp

variable {π χ ν β κ δ : Type} [DecidableEq κ] [DecidableEq δ] (chan : χ → δ) (kind : δ → κ)
  (step : π → β → Option (List (MarkOp χ ν β) × π))

def Tells (c : π) (d : Option δ) (u : List β) (c' : π) (d' : Option δ)
    (say : Nat → List (Output δ (ν × Nat) β)) : Prop :=
  ∃ ops, scan step c u = some (ops, c') ∧ ∀ n,
    (meaning chan kind ops (d, n)).2 = (d', n + u.length) ∧
      Output.join (meaning chan kind ops (d, n)).1 = Output.join (say n)

namespace Tells

variable {chan kind step} {c c₁ c₂ c₃ : π} {d d₁ d₂ : Option δ} {u v : List β} {b e : β}
  {say say₁ : Nat → List (Output δ (ν × Nat) β)}

theorem nil (c : π) (d : Option δ) : Tells chan kind step c d [] c d fun _ => [] :=
  ⟨[], rfl, fun _ => ⟨rfl, rfl⟩⟩

theorem append (h : Tells chan kind step c d u c₁ d₁ say) (h' : Tells chan kind step c₁ d₁ v c₂ d₂ say₁) :
    Tells chan kind step c d (u ++ v) c₂ d₂ fun n => say n ++ say₁ (n + u.length) := by
  obtain ⟨ops, hscan, hmean⟩ := h
  obtain ⟨ops', hscan', hmean'⟩ := h'
  refine ⟨ops ++ ops', ?_, fun n => ?_⟩
  · rw [Scan.scan_append, hscan, Option.bind_some, hscan', Option.map_some]
  · obtain ⟨hend, hsaid⟩ := hmean n
    obtain ⟨hend', hsaid'⟩ := hmean' (n + u.length)
    rw [meaning_append, hend]
    exact ⟨by rw [hend', List.length_append, Nat.add_assoc], Output.join_congr hsaid hsaid'⟩

theorem congr (h : Tells chan kind step c d u c₁ d₁ say)
    (hsay : ∀ n, Output.join (say n) = Output.join (say₁ n)) :
    Tells chan kind step c d u c₁ d₁ say₁ := by
  obtain ⟨ops, hscan, hmean⟩ := h
  exact ⟨ops, hscan, fun n => ⟨(hmean n).1, (hmean n).2.trans (hsay n)⟩⟩

/-- One element. -/
theorem byte (ops : List (MarkOp χ ν β)) (hstep : step c b = some (ops, c₁))
    (hmean : ∀ n, meaning chan kind ops (d, n) = (say n, d₁, n + 1)) :
    Tells chan kind step c d [b] c₁ d₁ say := by
  refine ⟨ops, by simp [scan, hstep], fun n => ?_⟩
  rw [hmean]
  exact ⟨rfl, rfl⟩

/-- An element without a mark. -/
theorem silent (hstep : step c b = some ([.pass [b]], c₁)) :
    Tells chan kind step c none [b] c₁ none fun _ => [] :=
  byte _ hstep fun n => by simp [meaning, mean]

variable (chan kind) in
/-- Elements that are only passed. -/
theorem meaning_passes (u : List β) (d : Option δ) (n : Nat) :
    (meaning chan kind (u.map fun b => (.pass [b] : MarkOp χ ν β)) (d, n)).2 = (d, n + u.length) ∧
      ∀ x s, d = some x → Output.join (.data x s ::
        (meaning chan kind (u.map fun b => (.pass [b] : MarkOp χ ν β)) (d, n)).1) =
          Output.join [.data x (s ++ u)] := by
  induction u generalizing n with
  | nil => exact ⟨rfl, fun x s _ => by simp [meaning]⟩
  | cons b u ih =>
    obtain ⟨hend, hsaid⟩ := ih (n + 1)
    refine ⟨?_, ?_⟩
    · have hlength : n + 1 + u.length = n + (b :: u).length := by
        rw [List.length_cons]
        omega
      exact hend.trans (by rw [hlength])
    · rintro x s rfl
      have hrest := hsaid x (s ++ [b]) rfl
      simp only [List.map_cons, meaning, mean, List.length_singleton, List.singleton_append]
      rw [← List.append_cons s b u] at hrest
      rw [← hrest]
      exact Output.join_merge [] _ x s [b]

omit [DecidableEq δ] in
theorem meaning_passes_none (u : List β) (n : Nat) :
    meaning chan kind (u.map fun b => (.pass [b] : MarkOp χ ν β)) (none, n) = ([], none, n + u.length) := by
  induction u generalizing n with
  | nil => rfl
  | cons b u ih => simp [meaning, mean, ih, Nat.add_assoc, Nat.add_comm 1]

theorem passes (hscan : scan step c u = some (u.map fun b => .pass [b], c₁)) :
    Tells chan kind step c none u c₁ none fun _ => [] := by
  refine ⟨_, hscan, fun n => ?_⟩
  rw [meaning_passes_none]
  exact ⟨rfl, rfl⟩

/-- Marked at the first element and passed up to the last. -/
theorem scan_marked (pre : List (MarkOp χ ν β)) {x : χ}
    (hfirst : step c b = some (pre ++ [.mark x, .pass [b]], c₁))
    (hrest : scan step c₁ u = some (u.map fun b => .pass [b], c₂)) :
    scan step c (b :: u) = some (pre ++ .mark x :: (b :: u).map fun b => .pass [b], c₂) := by
  rw [Scan.scan_cons, hfirst, Option.bind_some, hrest]
  simp

/-- **A word**: marked at its first element, flushed behind its last. -/
theorem word (pre : List (MarkOp χ ν β)) (front : List (Output δ (ν × Nat) β)) {x y : χ} {er : Int}
    (hpre : ∀ n, meaning chan kind pre (none, n) = (front, none, n))
    (hread : scan step c u = some (pre ++ .mark x :: u.map fun b => .pass [b], c₁))
    (hlast : step c₁ e = some ([.flush y er, .pass [e]], c₂)) (hxy : chan y = chan x) :
    Tells chan kind step c none (u ++ [e]) c₂ none fun _ => front ++ [.data (chan x) u] := by
  refine ⟨(pre ++ .mark x :: u.map fun b => .pass [b]) ++ [.flush y er, .pass [e]], ?_, fun n => ?_⟩
  · rw [Scan.scan_append, hread, Option.bind_some, Scan.scan_cons, hlast]
    simp [scan]
  · obtain ⟨hend, hsaid⟩ := meaning_passes chan kind (ν := ν) u (some (chan x)) n
    have hmark : meaning chan kind (pre ++ .mark x :: u.map fun b => (.pass [b] : MarkOp χ ν β)) (none, n) =
        (front ++ .data (chan x) [] :: (meaning chan kind (u.map fun b => .pass [b]) (some (chan x), n)).1,
          some (chan x), n + u.length) := by
      rw [meaning_append, hpre, ← hend]
      rfl
    have hlast' : meaning chan kind ([.flush y er, .pass [e]] : List (MarkOp χ ν β))
        (some (chan x), n + u.length) = ([], none, n + u.length + 1) := by
      simp [meaning, mean, hxy]
    rw [meaning_append, hmark, hlast']
    refine ⟨by rw [List.length_append, List.length_singleton, Nat.add_assoc], ?_⟩
    rw [List.append_nil]
    exact Output.join_congr rfl (hsaid (chan x) [] rfl)

variable (chan kind) in
/-- Elements that are marked again and again. -/
theorem meaning_marks {x : χ} (hu : u ≠ []) (d : Option δ) (n : Nat) :
    (meaning chan kind (u.flatMap fun b => [.mark x, (.pass [b] : MarkOp χ ν β)]) (d, n)).2 =
        (some (chan x), n + u.length) ∧
      Output.join (meaning chan kind (u.flatMap fun b => [.mark x, (.pass [b] : MarkOp χ ν β)]) (d, n)).1 =
        Output.join [.data (chan x) u] := by
  induction u generalizing d n with
  | nil => exact absurd rfl hu
  | cons b u ih =>
    have hone : Output.join [.data (chan x) [], (.data (chan x) [b] : Output δ (ν × Nat) β)] =
        Output.join [.data (chan x) [b]] := Output.join_merge [] [] (chan x) [] [b]
    by_cases hnil : u = []
    · subst hnil
      exact ⟨rfl, hone⟩
    · obtain ⟨hend, hsaid⟩ := ih hnil (some (chan x)) (n + 1)
      simp only [List.flatMap_cons, List.cons_append, List.nil_append, meaning, mean,
        List.length_singleton]
      refine ⟨by rw [hend, List.length_cons, Nat.add_assoc, Nat.add_comm 1], ?_⟩
      have hmerge : Output.join ([.data (chan x) [b]] ++
          [(.data (chan x) u : Output δ (ν × Nat) β)]) = Output.join [.data (chan x) (b :: u)] :=
        Output.join_merge [] [] (chan x) [b] u
      exact (Output.join_congr hone hsaid).trans hmerge

/-- **Marked again** before every element. -/
theorem repeated {x : χ} (hu : u ≠ [])
    (hscan : scan step c u = some (u.flatMap fun b => [.mark x, .pass [b]], c₁)) :
    Tells chan kind step c d u c₁ (some (chan x)) fun _ => [.data (chan x) u] :=
  ⟨_, hscan, fun n => meaning_marks chan kind hu d n⟩

end Tells

end Lib
