/-!
# Scanners that report events

A scanner reads one element at a time, and with each either stops or reports
events and goes on.  `π` is its state, `β` the input, `ε` the events.

* `scan_append`: the input is scanned piece by piece, the events add up;
* `scan_invariant`: a relation between state and events so far is carried
  from each step to the run.
-/

namespace Lib

variable {π β ε : Type}

/-- The events of the whole input and the state behind it; `none` if the
scanner stopped. -/
def scan (step : π → β → Option (List ε × π)) : π → List β → Option (List ε × π)
  | p, [] => some ([], p)
  | p, c :: l =>
    match step p c with
    | none => none
    | some (es, p') =>
      match scan step p' l with
      | none => none
      | some (fs, p'') => some (es ++ fs, p'')

namespace Scan

variable (step : π → β → Option (List ε × π))

theorem scan_cons (p : π) (c : β) (l : List β) :
    scan step p (c :: l) = (step p c).bind fun r =>
      (scan step r.2 l).map fun t => (r.1 ++ t.1, t.2) := by
  rw [scan]
  cases step p c with
  | none => rfl
  | some r =>
    obtain ⟨es, p'⟩ := r
    simp only [Option.bind_some]
    cases scan step p' l <;> rfl

/-- A scan that does not stop, taken apart at its first element. -/
theorem scan_cons_some {p p' : π} {c : β} {l : List β} {fs : List ε}
    (h : scan step p (c :: l) = some (fs, p')) :
    ∃ es q gs, step p c = some (es, q) ∧ scan step q l = some (gs, p') ∧ fs = es ++ gs := by
  rw [scan_cons] at h
  obtain ⟨⟨es, q⟩, hstep, h⟩ := Option.bind_eq_some_iff.mp h
  obtain ⟨⟨gs, p''⟩, hscan, h⟩ := Option.map_eq_some_iff.mp h
  cases h
  exact ⟨es, q, gs, hstep, hscan, rfl⟩

/-- **Composition.** -/
theorem scan_append (p : π) (l m : List β) :
    scan step p (l ++ m) = (scan step p l).bind fun r =>
      (scan step r.2 m).map fun t => (r.1 ++ t.1, t.2) := by
  induction l generalizing p with
  | nil =>
    simp only [List.nil_append, scan, Option.bind_some]
    cases scan step p m <;> rfl
  | cons c l ih =>
    rw [List.cons_append, scan_cons, scan_cons]
    cases step p c with
    | none => rfl
    | some r =>
      simp only [Option.bind_some, ih]
      cases scan step r.2 l with
      | none => rfl
      | some t =>
        simp only [Option.bind_some, Option.map_some]
        cases scan step t.2 m <;> simp

/-- A relation between the state and the events so far, kept by every step,
holds after every scan. -/
theorem scan_invariant (I : π → List ε → Prop)
    (hstep : ∀ p es c fs p', I p es → step p c = some (fs, p') → I p' (es ++ fs))
    (p : π) (es : List ε) (l : List β) (hI : I p es) (fs : List ε) (p' : π)
    (h : scan step p l = some (fs, p')) : I p' (es ++ fs) := by
  induction l generalizing p es fs with
  | nil =>
    simp only [scan, Option.some.injEq, Prod.mk.injEq] at h
    obtain ⟨rfl, rfl⟩ := h
    simpa using hI
  | cons c l ih =>
    obtain ⟨es', q, gs, hc, hl, rfl⟩ := scan_cons_some step h
    rw [← List.append_assoc]
    exact ih q (es ++ es') (hstep p es c es' q hI hc) gs hl

end Scan

end Lib
