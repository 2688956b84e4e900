import Ehttp.Multipart.Callbacks

/-!
# Which item a callback writes

All callbacks but one act on the last item, and only a header named
`Content-Disposition` adds one.  `k` parts are over when `on_part_data_end` was
called `k` times, so what is read then belongs in the item at place `k`.

* `callback_frame`: a callback writes no item but the one of `writesItem`;
* `PartsSeparate`: every callback writes the item of the part it is called for;
* `partsSeparate_iff`: so it is exactly when the log is `Separated`.
-/

namespace Ehttp

open Lib

/-- What an item has of its part; the parse state is not part of it. -/
def FileItem.content (i : FileItem) : FileItem := { i with parseState := false }

/-- The place of the item whose content a callback writes. -/
def writesItem (e : MultipartEvent) (items : List FileItem) : Option Nat :=
  match e with
  | .headerField s => if s = bytes "Content-Disposition" then some items.length else none
  | .headerValue _ => some (items.length - 1)
  | .partData s => if s = [] then none else some (items.length - 1)
  | _ => none

/-- The items after some callbacks. -/
def itemsAfter (es : List MultipartEvent) (b : RequestBody) : List FileItem :=
  (runAll multipartCallback es b).2.fileItems

/-- The parts do not mix: as many items as parts that were read to their end,
and no callback writes into the item of another part. -/
structure PartsSeparate (log : List MultipartEvent) (b : RequestBody) : Prop where
  count : (itemsAfter log b).length = log.count .partDataEnd
  own : ∀ front e back, log = front ++ e :: back →
    ∀ j, writesItem e (itemsAfter front b) = some j → j = front.count .partDataEnd
  earlier : ∀ front e back, log = front ++ e :: back → ∀ j < front.count .partDataEnd,
    ((itemsAfter (front ++ [e]) b).map FileItem.content)[j]? =
      ((itemsAfter front b).map FileItem.content)[j]?

/-- A log in which every part that ends has one header named exactly
`Content-Disposition`, before any header value, and a part that does not end
has added nothing.  `opened` says that the current part has had that header. -/
def Separated : Bool → List MultipartEvent → Prop
  | opened, [] => opened = false
  | opened, .headerField s :: es =>
    if s = bytes "Content-Disposition" then opened = false ∧ Separated true es
    else Separated opened es
  | opened, .headerValue _ :: es => opened = true ∧ Separated opened es
  | opened, .partData s :: es => (s ≠ [] → opened = true) ∧ Separated opened es
  | opened, .partDataEnd :: es => opened = true ∧ Separated false es
  | opened, .partDataBegin :: es => Separated opened es
  | opened, .headersComplete :: es => Separated opened es
  | opened, .bodyEnd :: es => Separated opened es

section Callback

variable (b : RequestBody)

theorem content_setParseState (i : FileItem) (state : Int) :
    (i.setParseState state).content = i.content := rfl

/-- The items behind a header name. -/
theorem content_headerField (s : Bytes) :
    ((multipartCallback (.headerField s) b).2.fileItems.map FileItem.content) =
      b.fileItems.map FileItem.content ++
        if s = bytes "Content-Disposition" then [FileItem.content {}] else [] := by
  have hcd : bytes "Content-Disposition" ≠ bytes "Content-Type" := by decide
  simp only [multipartCallback, ssOnMultipartName]
  by_cases h : s = bytes "Content-Disposition"
  · simp only [h, hcd, ↓reduceIte, List.map_append, List.map_cons, List.map_nil,
      content_setParseState]
  · simp only [h, ↓reduceIte, List.append_nil]
    split
    · split
      · rfl
      · rw [map_updateBack _ _ _ fun i => content_setParseState i _]
    · rfl

/-- **Frame.**  A callback leaves the content of every other item alone. -/
theorem callback_frame (e : MultipartEvent) (j : Nat) (h : writesItem e b.fileItems ≠ some j) :
    ((multipartCallback e b).2.fileItems.map FileItem.content)[j]? =
      (b.fileItems.map FileItem.content)[j]? := by
  have hlast : ∀ f : FileItem → FileItem, j ≠ b.fileItems.length - 1 →
      ((updateBack f b.fileItems).map FileItem.content)[j]? =
        (b.fileItems.map FileItem.content)[j]? := by
    intro f hj
    rw [List.getElem?_map, List.getElem?_map, getElem?_updateBack f _ j hj]
  cases e with
  | partDataBegin => rfl
  | headersComplete => rfl
  | bodyEnd => rfl
  | headerField s =>
    rw [content_headerField]
    split
    · rename_i hs
      have hj : j ≠ b.fileItems.length := by
        rintro rfl
        exact h (by simp [writesItem, hs])
      rcases Nat.lt_or_gt_of_ne hj with hlt | hgt
      · rw [List.getElem?_append_left (by simpa using hlt)]
      · rw [List.getElem?_eq_none (by simp; omega), List.getElem?_eq_none (by simp; omega)]
    · rw [List.append_nil]
  | headerValue s =>
    simp only [multipartCallback, ssOnMultipartValue]
    cases hl : b.fileItems.getLast? with
    | none => rfl
    | some item =>
      apply hlast
      rintro rfl
      exact h rfl
  | partData s =>
    simp only [multipartCallback, ssOnMultipartData]
    split
    · rfl
    · rename_i hs
      split
      · rfl
      · apply hlast
        rintro rfl
        have hne : s ≠ [] := fun e => hs (by rw [e]; rfl)
        exact h (by simp [writesItem, hne])
  | partDataEnd =>
    simp only [multipartCallback, ssOnMultipartDataOver]
    split
    · rfl
    · rw [map_updateBack _ _ _ fun i => content_setParseState i _]

/-- How many items a callback adds. -/
theorem length_callback (e : MultipartEvent) :
    (multipartCallback e b).2.fileItems.length = b.fileItems.length +
      if e = .headerField (bytes "Content-Disposition") then 1 else 0 := by
  cases e with
  | partDataBegin => rfl
  | headersComplete => rfl
  | bodyEnd => rfl
  | headerField s =>
    have h := congrArg List.length (content_headerField b s)
    simp only [List.length_map, List.length_append] at h
    rw [h]
    simp only [MultipartEvent.headerField.injEq]
    split <;> rfl
  | headerValue s =>
    simp only [multipartCallback, ssOnMultipartValue]
    split <;> simp [length_updateBack]
  | partData s =>
    simp only [multipartCallback, ssOnMultipartData]
    split
    · simp
    · split <;> simp [length_updateBack]
  | partDataEnd =>
    simp only [multipartCallback, ssOnMultipartDataOver]
    split <;> simp [length_updateBack]

/-- What is written is the last item then; with no item the callback fails. -/
theorem writesItem_last (e : MultipartEvent) (hok : (multipartCallback e b).1 = .ret 0) (j : Nat)
    (h : writesItem e b.fileItems = some j) :
    j + 1 = (multipartCallback e b).2.fileItems.length := by
  rw [length_callback]
  cases e with
  | partDataBegin => simp [writesItem] at h
  | headersComplete => simp [writesItem] at h
  | bodyEnd => simp [writesItem] at h
  | partDataEnd => simp [writesItem] at h
  | headerField s =>
    simp only [writesItem] at h
    split at h
    · rename_i hs
      simp only [Option.some.injEq] at h
      simp [hs, h]
    · simp at h
  | headerValue s =>
    have hpos : 0 < b.fileItems.length := by
      apply List.length_pos_iff.mpr
      intro hnil
      simp [multipartCallback, ssOnMultipartValue, hnil] at hok
    simp only [writesItem, Option.some.injEq] at h
    simp
    omega
  | partData s =>
    simp only [writesItem] at h
    split at h
    · simp at h
    · rename_i hs
      have hpos : 0 < b.fileItems.length := by
        apply List.length_pos_iff.mpr
        intro hnil
        simp [multipartCallback, ssOnMultipartData, hnil, hs] at hok
      simp only [Option.some.injEq] at h
      simp
      omega

end Callback

/-! ## Logs -/

/-- Parts that are over after one more event. -/
theorem count_snoc (front : List MultipartEvent) (e : MultipartEvent) :
    (front ++ [e]).count .partDataEnd =
      front.count .partDataEnd + if e = .partDataEnd then 1 else 0 := by
  rw [List.count_append, List.count_singleton]
  simp only [beq_iff_eq]

/-- **One callback** of a separated log.  `k` parts are over before it. -/
theorem separated_step (b : RequestBody) (e : MultipartEvent) (es : List MultipartEvent)
    (opened : Bool) (k : Nat) (hok : (multipartCallback e b).1 = .ret 0)
    (hlen : b.fileItems.length = k + opened.toNat) (h : Separated opened (e :: es)) :
    (∀ j, writesItem e b.fileItems = some j → j = k) ∧
      ∃ opened' : Bool, Separated opened' es ∧
        (multipartCallback e b).2.fileItems.length =
          k + (if e = .partDataEnd then 1 else 0) + opened'.toNat := by
  have hwrites := writesItem_last b e hok
  rw [length_callback] at hwrites ⊢
  rw [hlen] at hwrites ⊢
  cases e with
  | partDataBegin => exact ⟨nofun, opened, h, by simp⟩
  | headersComplete => exact ⟨nofun, opened, h, by simp⟩
  | bodyEnd => exact ⟨nofun, opened, h, by simp⟩
  | partDataEnd =>
    obtain ⟨rfl, h⟩ := h
    exact ⟨nofun, false, h, by simp⟩
  | headerField s =>
    simp only [Separated] at h
    split at h
    · rename_i hs
      obtain ⟨rfl, h⟩ := h
      refine ⟨?_, true, h, by simp [hs]⟩
      intro j hj
      have := hwrites j hj
      simp [hs] at this
      exact this
    · rename_i hs
      refine ⟨?_, opened, h, by simp [hs]⟩
      intro j hj
      simp [writesItem, hs] at hj
  | headerValue s =>
    obtain ⟨rfl, h⟩ := h
    refine ⟨?_, true, h, by simp⟩
    intro j hj
    have := hwrites j hj
    simp at this
    exact this
  | partData s =>
    obtain ⟨hs, h⟩ := h
    refine ⟨?_, opened, h, by simp⟩
    intro j hj
    have hne : s ≠ [] := by
      rintro rfl
      simp [writesItem] at hj
    have := hwrites j hj
    simp [hs hne] at this
    exact this

/-- One callback that writes the item of its part, or none: then the log is
separated if what is behind the callback is. -/
theorem separated_of_step (b : RequestBody) (e : MultipartEvent) (es : List MultipartEvent)
    (opened : Bool) (k : Nat) (hok : (multipartCallback e b).1 = .ret 0)
    (hlen : b.fileItems.length = k + opened.toNat)
    (hown : ∀ j, writesItem e b.fileItems = some j → j = k)
    (hend : e = .partDataEnd → opened = true) :
    ∃ opened' : Bool, (multipartCallback e b).2.fileItems.length =
        k + (if e = .partDataEnd then 1 else 0) + opened'.toNat ∧
      (Separated opened' es → Separated opened (e :: es)) := by
  have hlast := writesItem_last b e hok
  rw [length_callback] at hlast ⊢
  rw [hlen] at hlast ⊢
  -- a callback that writes the last item is behind the header of its part
  have hopen : ∀ j, writesItem e b.fileItems = some j →
      e ≠ .headerField (bytes "Content-Disposition") → opened = true := by
    intro j hj hne
    have hplace := hown j hj
    have hadded := hlast j hj
    rw [if_neg hne] at hadded
    cases opened with
    | true => rfl
    | false => simp only [Bool.toNat_false] at hadded; omega
  cases e with
  | partDataBegin => exact ⟨opened, by simp, fun h => h⟩
  | headersComplete => exact ⟨opened, by simp, fun h => h⟩
  | bodyEnd => exact ⟨opened, by simp, fun h => h⟩
  | partDataEnd =>
    have hopened := hend rfl
    exact ⟨false, by simp [hopened], fun h => ⟨hopened, h⟩⟩
  | headerField s =>
    simp only [Separated]
    by_cases hs : s = bytes "Content-Disposition"
    · have hplace := hown b.fileItems.length (by simp only [writesItem, hs, ↓reduceIte])
      have hclosed : opened = false := by
        cases opened with
        | false => rfl
        | true => simp only [Bool.toNat_true] at hlen; omega
      rw [if_pos hs]
      exact ⟨true, by simp [hs, hclosed], fun h => ⟨hclosed, h⟩⟩
    · rw [if_neg hs]
      exact ⟨opened, by simp [hs], fun h => h⟩
  | headerValue s =>
    exact ⟨opened, by simp, fun h => ⟨hopen _ rfl (by simp), h⟩⟩
  | partData s =>
    refine ⟨opened, by simp, fun h => ⟨fun hs => ?_, h⟩⟩
    exact hopen _ (by simp only [writesItem, if_neg hs]; rfl) (by simp)

section Log

variable (log : List MultipartEvent) (b : RequestBody)

/-- **The run** of a separated log: at every place there are as many items as
parts over, and one more inside a part that has had its header. -/
theorem separated_run (hok : (runAll multipartCallback log b).1 = none)
    (hb : b.fileItems = []) (h : Separated false log) (front back : List MultipartEvent)
    (hlog : log = front ++ back) :
    ∃ opened : Bool, Separated opened back ∧
      (itemsAfter front b).length = front.count .partDataEnd + opened.toNat := by
  have hgo : ∀ (mid done : List MultipartEvent) (opened : Bool), log = done ++ (mid ++ back) →
      Separated opened (mid ++ back) →
      (itemsAfter done b).length = done.count .partDataEnd + opened.toNat →
      ∃ opened' : Bool, Separated opened' back ∧
        (itemsAfter (done ++ mid) b).length =
          (done ++ mid).count .partDataEnd + opened'.toNat := by
    intro mid
    induction mid with
    | nil =>
      intro done opened _ hsep hlen
      exact ⟨opened, hsep, by simpa using hlen⟩
    | cons e mid ih =>
      intro done opened hsplit hsep hlen
      rw [hsplit, List.cons_append] at hok
      obtain ⟨he, hafter⟩ := RunAll.runAll_middle multipartCallback done (mid ++ back) e b hok
      obtain ⟨-, opened', hsep', hlen'⟩ := separated_step _ e (mid ++ back) opened _ he hlen hsep
      have hnext := ih (done ++ [e]) opened' (by simpa using hsplit) hsep' (by
        rw [itemsAfter, hafter, hlen', count_snoc])
      simpa using hnext
  exact hgo front [] false hlog (by rw [← hlog]; exact h) (by simp [itemsAfter, runAll, hb])

theorem partsSeparate_of_separated (hok : (runAll multipartCallback log b).1 = none)
    (hb : b.fileItems = []) (h : Separated false log) : PartsSeparate log b := by
  have hown : ∀ front e back, log = front ++ e :: back →
      ∀ j, writesItem e (itemsAfter front b) = some j → j = front.count .partDataEnd := by
    intro front e back hlog
    obtain ⟨opened, hsep, hlen⟩ := separated_run log b hok hb h front (e :: back) hlog
    rw [hlog] at hok
    obtain ⟨he, -⟩ := RunAll.runAll_middle multipartCallback front back e b hok
    exact (separated_step _ e back opened _ he hlen hsep).1
  constructor
  · obtain ⟨opened, hsep, hlen⟩ := separated_run log b hok hb h log [] (by simp)
    rw [hlen, show opened = false from hsep]
    rfl
  · exact hown
  · intro front e back hlog j hj
    have hrun := hok
    rw [hlog] at hrun
    obtain ⟨-, hafter⟩ := RunAll.runAll_middle multipartCallback front back e b hrun
    rw [itemsAfter, hafter]
    apply callback_frame
    intro hw
    have := hown front e back hlog j hw
    omega

/-- Items that have fallen behind the parts stay behind. -/
theorem behind_run (hok : (runAll multipartCallback log b).1 = none)
    (hown : ∀ front e back, log = front ++ e :: back →
      ∀ j, writesItem e (itemsAfter front b) = some j → j = front.count .partDataEnd)
    (back front : List MultipartEvent) (hlog : log = front ++ back)
    (hlt : (itemsAfter front b).length < front.count .partDataEnd) :
    (itemsAfter log b).length < log.count .partDataEnd := by
  induction back generalizing front with
  | nil =>
    rw [hlog, List.append_nil]
    exact hlt
  | cons e back ih =>
    have hrun := hok
    rw [hlog] at hrun
    obtain ⟨-, hafter⟩ := RunAll.runAll_middle multipartCallback front back e b hrun
    apply ih (front ++ [e]) (by simpa using hlog)
    have hne : e ≠ .headerField (bytes "Content-Disposition") := by
      rintro rfl
      have := hown front _ back hlog _ (by simp only [writesItem, ↓reduceIte]; rfl)
      omega
    rw [itemsAfter, hafter, length_callback, if_neg hne, count_snoc]
    exact Nat.lt_of_lt_of_le hlt (Nat.le_add_right _ _)

theorem separated_of_partsSeparate (hok : (runAll multipartCallback log b).1 = none)
    (h : PartsSeparate log b) (back front : List MultipartEvent) (opened : Bool)
    (hlog : log = front ++ back)
    (hlen : (itemsAfter front b).length = front.count .partDataEnd + opened.toNat) :
    Separated opened back := by
  induction back generalizing front opened with
  | nil =>
    have hcount := h.count
    rw [hlog, List.append_nil, hlen] at hcount
    cases opened with
    | false => rfl
    | true => simp at hcount
  | cons e back ih =>
    have hrun := hok
    rw [hlog] at hrun
    obtain ⟨he, hafter⟩ := RunAll.runAll_middle multipartCallback front back e b hrun
    have hend : e = .partDataEnd → opened = true := by
      intro hend
      cases opened with
      | true => rfl
      | false =>
        -- a part without an item: from here on there are fewer items than parts
        have hlen' : (itemsAfter (front ++ [e]) b).length = (itemsAfter front b).length := by
          rw [itemsAfter, hafter, length_callback, hend]
          rfl
        have hbehind := behind_run log b hok h.own back (front ++ [e]) (by simpa using hlog) (by
          rw [hlen', hlen, count_snoc, if_pos hend]
          simp)
        rw [h.count] at hbehind
        omega
    obtain ⟨opened', hlen', hsep⟩ :=
      separated_of_step _ e back opened _ he hlen (h.own front e back hlog) hend
    apply hsep
    apply ih (front ++ [e]) opened' (by simpa using hlog)
    rw [itemsAfter, hafter, hlen', count_snoc]

/-- **Parts do not mix** exactly in separated logs. -/
theorem partsSeparate_iff (hok : (runAll multipartCallback log b).1 = none)
    (hb : b.fileItems = []) : PartsSeparate log b ↔ Separated false log := by
  constructor
  · intro h
    exact separated_of_partsSeparate log b hok h log [] false (by simp) (by
      simp [itemsAfter, runAll, hb])
  · exact partsSeparate_of_separated log b hok hb

end Log

end Ehttp
