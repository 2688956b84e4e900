/-!
# Callbacks that stop their caller

A push parser hands events to callbacks that change user data; the first one
that does not return 0 stops the parser.  `ε` is the type of events, `σ` that
of the user data.

* `runAll_append`: a sequence of events is run piece by piece;
* `runAll_invariant`: what every callback keeps, a run keeps;
* `runAll_simulation`: callbacks that agree through a function fail together;
* `runAll_fragments`: a callback that appends cannot tell how its data was cut.
-/

namespace Lib

/-- How a call ends: it returns a code, or an exception leaves it. -/
inductive Exit
  | ret (code : Int)
  | thrown
  deriving DecidableEq, Repr

variable {ε σ : Type}

/-- Runs the callbacks for `es` in order.  The first component is the event
whose callback did not return 0, and how that callback ended. -/
def runAll (cb : ε → σ → Exit × σ) : List ε → σ → Option (ε × Exit) × σ
  | [], s => (none, s)
  | e :: es, s =>
    if (cb e s).1 = .ret 0 then runAll cb es (cb e s).2 else (some (e, (cb e s).1), (cb e s).2)

namespace RunAll

variable (cb : ε → σ → Exit × σ)

theorem runAll_nil (s : σ) : runAll cb [] s = (none, s) := rfl

theorem runAll_cons_ok (e : ε) (es : List ε) (s : σ) (h : (cb e s).1 = .ret 0) :
    runAll cb (e :: es) s = runAll cb es (cb e s).2 := by
  simp [runAll, h]

theorem runAll_cons_fail (e : ε) (es : List ε) (s : σ) (h : (cb e s).1 ≠ .ret 0) :
    runAll cb (e :: es) s = (some (e, (cb e s).1), (cb e s).2) := by
  simp [runAll, h]

/-- **Composition.** -/
theorem runAll_append (es fs : List ε) (s : σ) :
    runAll cb (es ++ fs) s =
      if (runAll cb es s).1 = none then runAll cb fs (runAll cb es s).2 else runAll cb es s := by
  induction es generalizing s with
  | nil => simp [runAll_nil]
  | cons e es ih =>
    by_cases h : (cb e s).1 = .ret 0
    · rw [List.cons_append, runAll_cons_ok cb e _ s h, runAll_cons_ok cb e _ s h, ih]
    · rw [List.cons_append, runAll_cons_fail cb e _ s h, runAll_cons_fail cb e _ s h]
      simp

theorem runAll_append_ok (es fs : List ε) (s : σ) (h : (runAll cb es s).1 = none) :
    runAll cb (es ++ fs) s = runAll cb fs (runAll cb es s).2 := by
  rw [runAll_append, if_pos h]

/-- A run that gets through its events gets through the first of them. -/
theorem runAll_append_none (es fs : List ε) (s : σ) (h : (runAll cb (es ++ fs) s).1 = none) :
    (runAll cb es s).1 = none := by
  rw [runAll_append] at h
  split at h
  · assumption
  · exact h

/-- The event in the middle of such a run, and the data around it. -/
theorem runAll_middle (es fs : List ε) (e : ε) (s : σ)
    (h : (runAll cb (es ++ e :: fs) s).1 = none) :
    (cb e (runAll cb es s).2).1 = .ret 0 ∧
      (runAll cb (es ++ [e]) s).2 = (cb e (runAll cb es s).2).2 := by
  have hes := runAll_append_none cb es (e :: fs) s h
  rw [runAll_append_ok cb es _ s hes] at h
  rw [runAll_append_ok cb es _ s hes]
  by_cases he : (cb e (runAll cb es s).2).1 = .ret 0
  · refine ⟨he, ?_⟩
    rw [runAll_cons_ok cb e [] _ he]
    rfl
  · rw [runAll_cons_fail cb e fs _ he] at h
    simp at h

/-- An invariant of every callback that returns 0 is one of every run that
gets through its events. -/
theorem runAll_invariant (I : σ → Prop) (es : List ε)
    (hstep : ∀ e ∈ es, ∀ s, I s → (cb e s).1 = .ret 0 → I (cb e s).2) (s : σ) (hs : I s)
    (h : (runAll cb es s).1 = none) : I (runAll cb es s).2 := by
  induction es generalizing s with
  | nil => exact hs
  | cons e es ih =>
    by_cases he : (cb e s).1 = .ret 0
    · rw [runAll_cons_ok cb e es s he] at h ⊢
      exact ih (fun f hf => hstep f (List.mem_cons_of_mem _ hf)) _
        (hstep e (List.mem_cons_self ..) s hs he) h
    · rw [runAll_cons_fail cb e es s he] at h
      simp at h

/-- What every callback keeps, failing ones too. -/
theorem runAll_frame (I : σ → Prop) (es : List ε) (hstep : ∀ e ∈ es, ∀ s, I s → I (cb e s).2)
    (s : σ) (hs : I s) : I (runAll cb es s).2 := by
  induction es generalizing s with
  | nil => exact hs
  | cons e es ih =>
    have he := hstep e (List.mem_cons_self ..) s hs
    by_cases hret : (cb e s).1 = .ret 0
    · rw [runAll_cons_ok cb e es s hret]
      exact ih (fun f hf => hstep f (List.mem_cons_of_mem _ hf)) _ he
    · rw [runAll_cons_fail cb e es s hret]
      exact he

/-- **Simulation.**  Callbacks that agree through `f` fail at the same event. -/
theorem runAll_simulation {τ : Type} (cb' : ε → τ → Exit × τ) (f : σ → τ) (es : List ε) (s : σ)
    (h : ∀ e s, cb' e (f s) = ((cb e s).1, f (cb e s).2)) :
    runAll cb' es (f s) = ((runAll cb es s).1, f (runAll cb es s).2) := by
  induction es generalizing s with
  | nil => rfl
  | cons e es ih =>
    have he := h e s
    by_cases h0 : (cb e s).1 = .ret 0
    · rw [runAll_cons_ok cb e es s h0, runAll_cons_ok cb' e es (f s) (by rw [he]; exact h0), he]
      exact ih _
    · rw [runAll_cons_fail cb e es s h0, runAll_cons_fail cb' e es (f s) (by rw [he]; exact h0), he]

/-- **Fragments.**  A data callback that treats two fragments in a row as one
treats any nonempty list of fragments as one. -/
theorem runAll_fragments {β : Type} (mk : List β → ε) (ok : ∀ x s, (cb (mk x) s).1 = .ret 0)
    (join : ∀ x y s, (cb (mk y) (cb (mk x) s).2).2 = (cb (mk (x ++ y)) s).2)
    (xs : List (List β)) (hxs : xs ≠ []) (s : σ) :
    runAll cb (xs.map mk) s = (none, (cb (mk xs.flatten) s).2) := by
  cases xs with
  | nil => exact absurd rfl hxs
  | cons x xs =>
    induction xs generalizing x with
    | nil => simp [runAll, ok]
    | cons y ys ih =>
      have e : runAll cb ((x :: y :: ys).map mk) s = runAll cb (((x ++ y) :: ys).map mk) s := by
        simp only [List.map_cons]
        rw [runAll_cons_ok cb _ _ s (ok x s), runAll_cons_ok cb _ _ _ (ok y _),
          runAll_cons_ok cb _ _ s (ok (x ++ y) s), join x y s]
      rw [e, ih (x ++ y) (by simp)]
      simp

end RunAll

end Lib
