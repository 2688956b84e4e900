import Ehttp.Multipart.Variants

/-!
# Variants that keep the items

The varied parts run as the plain ones do exactly when they are `Kept`.

* `run_kept`, `run_first_kept`: kept parts do;
* `kept_of_run`, `kept_of_first_run`: no others do, if no plain part is refused.
-/

namespace Ehttp

open Lib

/-! ## What a variant keeps -/

theorem fieldChar_tolower (c : UInt8) :
    MultipartParser.fieldChar (tolower c) = MultipartParser.fieldChar c := by
  unfold tolower
  split
  · rename_i hc
    obtain ⟨hl, hu⟩ := hc
    simp only [MultipartParser.fieldChar, tolower]
    grind
  · rfl

theorem all_fieldChar_lower (name : Bytes) :
    (ssStrTolower name).all MultipartParser.fieldChar = name.all MultipartParser.fieldChar := by
  rw [ssStrTolower, List.all_map]
  congr 1
  exact funext fieldChar_tolower

theorem lower_disposition_ne_type : ssStrTolower dispositionName ≠ ssStrTolower typeName := by
  decide

namespace Varies

variable {p : FormPart} {v : HeadedPart}

/-- A line of the variant is one of the part, but for the letters of its name. -/
theorem exists_line (h : Varies p v) (k : Bytes × Bytes) (hk : k ∈ v.headers) :
    ∃ l, (l ∈ p.headed.headers ∨ IsExtra l) ∧ ssStrTolower l.1 = ssStrTolower k.1 ∧ l.2 = k.2 := by
  obtain ⟨extras, hextras, hperm⟩ := h.headers
  have hmem := hperm.subset (List.mem_map_of_mem hk)
  obtain ⟨l, hl, heq⟩ := List.mem_map.mp hmem
  refine ⟨l, (List.mem_append.mp hl).imp_right (hextras l), ?_⟩
  simp only [lowerName, Prod.mk.injEq] at heq
  exact heq

theorem mem_headed {p : FormPart} {l : Bytes × Bytes} (hl : l ∈ p.headed.headers) :
    l = (dispositionName, p.disposition) ∨ ∃ text ∈ p.contentType, l = (typeName, text) := by
  simp only [FormPart.headed, FormPart.typeLine, List.mem_cons] at hl
  rcases hl with rfl | hl
  · exact Or.inl rfl
  · cases hc : p.contentType with
    | none => simp [hc] at hl
    | some text => exact Or.inr ⟨text, rfl, by simpa [hc] using hl⟩

/-- One line has the name `Content-Disposition`, in whatever letters. -/
theorem count_disposition (h : Varies p v) :
    v.headers.countP (fun k => ssStrTolower k.1 = ssStrTolower dispositionName) = 1 := by
  obtain ⟨extras, hextras, hperm⟩ := h.headers
  have hnone : ∀ l ∈ p.typeLine ++ extras, ssStrTolower l.1 ≠ ssStrTolower dispositionName := by
    intro l hl
    rcases List.mem_append.mp hl with hl | hl
    · cases hc : p.contentType with
      | none => simp [FormPart.typeLine, hc] at hl
      | some text =>
        simp only [FormPart.typeLine, hc, List.mem_singleton] at hl
        rw [hl]
        exact lower_disposition_ne_type.symm
    · exact (hextras l hl).unknown.1
  have hcount := hperm.countP_eq (fun k : Bytes × Bytes => k.1 = ssStrTolower dispositionName)
  have hzero : (p.typeLine ++ extras).countP
      ((fun k => decide (k.1 = ssStrTolower dispositionName)) ∘ lowerName) = 0 :=
    List.countP_eq_zero.mpr fun l hl => by simp [lowerName, hnone l hl]
  rw [List.countP_map, List.countP_map, FormPart.headed, List.cons_append,
    List.countP_cons_of_pos (by simp [lowerName]), hzero] at hcount
  exact hcount

/-- Named exactly, it is followed by the text of the part and no such line again. -/
theorem own_cons (h : Varies p v) (hne : v.own ≠ []) :
    ∃ back, v.own = (dispositionName, p.disposition) :: back ∧
      ∀ k ∈ back, k.1 ≠ dispositionName := by
  obtain ⟨text, back, hown⟩ := HeadedPart.dropWhile_name dispositionName v.headers hne
  have hsplit := v.leading_append_own
  rw [HeadedPart.own, hown] at hsplit
  have htext : text = p.disposition := by
    obtain ⟨l, hl, hname, hsnd⟩ := h.exists_line (dispositionName, text) (by
      rw [← hsplit]
      simp)
    rcases hl with hl | hextra
    · rcases mem_headed hl with rfl | ⟨t, -, rfl⟩
      · exact hsnd.symm
      · exact absurd hname.symm lower_disposition_ne_type
    · exact absurd hname hextra.unknown.1
  refine ⟨back, by rw [HeadedPart.own, hown, htext], ?_⟩
  have hcount := h.count_disposition
  rw [← hsplit, List.countP_append, List.countP_cons_of_pos (by simp)] at hcount
  have hback : back.countP (fun k => ssStrTolower k.1 = ssStrTolower dispositionName) = 0 := by
    omega
  intro k hk hname
  have hnot := List.countP_eq_zero.mp hback k hk
  rw [hname] at hnot
  exact hnot (by simp)

theorem once (h : Varies p v) : v.Once := by
  by_cases hnil : v.own = []
  · simp [HeadedPart.Once, hnil]
  · obtain ⟨back, hown, hback⟩ := h.own_cons hnil
    rw [HeadedPart.Once, hown]
    exact hback

theorem once_all (ps : List (FormPart × HeadedPart)) (h : ∀ x ∈ ps, Varies x.1 x.2) :
    ∀ v ∈ ps.map (·.2), v.Once := by
  intro v hv
  obtain ⟨x, hx, rfl⟩ := List.mem_map.mp hv
  exact (h x hx).once

theorem headers_ne_nil (h : Varies p v) : v.headers ≠ [] := by
  intro hnil
  have hcount := h.count_disposition
  rw [hnil] at hcount
  exact absurd hcount (by simp)

theorem legal (h : Varies p v) {B : Bytes} (hp : p.Legal B) : v.Legal B := by
  have hline : ∀ k ∈ v.headers, k.1 ≠ [] ∧ k.1.all MultipartParser.fieldChar ∧ CR ∉ k.2 := by
    intro k hk
    obtain ⟨l, hl, hname, htext⟩ := h.exists_line k hk
    have hnames : (dispositionName ≠ [] ∧ dispositionName.all MultipartParser.fieldChar) ∧
        typeName ≠ [] ∧ typeName.all MultipartParser.fieldChar := by decide
    have hlegal : l.1 ≠ [] ∧ l.1.all MultipartParser.fieldChar ∧ CR ∉ l.2 := by
      rcases hl with hl | hextra
      · rcases mem_headed hl with rfl | ⟨text, ht, rfl⟩
        · exact ⟨hnames.1.1, hnames.1.2, hp.disposition.1⟩
        · exact ⟨hnames.2.1, hnames.2.2, (hp.contentType text ht).1⟩
      · exact ⟨hextra.name.1, hextra.name.2, hextra.text.1⟩
    obtain ⟨hne, hchars, hcr⟩ := hlegal
    refine ⟨?_, ?_, htext ▸ hcr⟩
    · rintro hnil
      rw [hnil] at hname
      exact hne (List.map_eq_nil_iff.mp hname)
    · rw [← all_fieldChar_lower, ← hname, all_fieldChar_lower]
      exact hchars
  refine ⟨fun k hk => ⟨(hline k hk).1, (hline k hk).2.1⟩, fun k hk => (hline k hk).2.2, ?_⟩
  rw [h.data]
  exact hp.data

end Varies

/-! ## The plain part -/

namespace FormPart

variable (p : FormPart)

theorem varies_headed : Varies p p.headed :=
  ⟨rfl, [], by simp, by simp⟩

theorem leading_headed : p.headed.leading = [] := by simp [HeadedPart.leading, headed]

theorem own_headed : p.headed.own = (dispositionName, p.disposition) :: p.typeLine := by
  simp [HeadedPart.own, headed]

theorem described_headed : p.headed.described = [(dispositionName, p.disposition)] := by
  have hnames : dispositionName ≠ typeName := by decide
  rw [HeadedPart.described, own_headed]
  cases hc : p.contentType <;> simp [typeLine, hc, hnames]

theorem typed_headed : p.headed.typed = p.typeLine := by
  have hnames : dispositionName ≠ typeName := by decide
  rw [HeadedPart.typed, own_headed]
  cases hc : p.contentType <;> simp [typeLine, hc, hnames]

theorem readDispositions_headed : readDispositions p.headed.described = p.described := by
  rw [described_headed, readDispositions, List.foldlM_cons]
  cases hd : readDisposition freshItem (dispositionName, p.disposition) with
  | none => simp [described, hd]
  | some item => simp [described, hd]

/-- The item of the part. -/
def item : FileItem := p.headed.finished (p.described.getD freshItem)

end FormPart

/-! ## Kept variants run as the plain parts do -/

/-- A refused disposition ends the run, whatever is behind it. -/
theorem run_refused (text : Bytes) (hd : readDisposition freshItem (dispositionName, text) = none)
    (back back' : List (Bytes × Bytes)) (es es' : List MultipartEvent) (b : RequestBody) :
    runAll multipartCallback (headerEvents ((dispositionName, text) :: back) ++ es) b =
      runAll multipartCallback (headerEvents ((dispositionName, text) :: back') ++ es') b := by
  have hrun := run_described b freshItem b dispositionName (lineValue (dispositionName, text))
    (onName_disposition b) rfl
  have hret : (ssParseMultiDisposition (lineValue (dispositionName, text)) freshItem).1 ≠
      .ret 0 := by
    intro h0
    simp [readDisposition, h0] at hd
  rw [headerEvents_cons, headerEvents_cons, List.append_assoc, List.append_assoc, hrun, hrun,
    if_neg hret, if_neg hret]

theorem finished_headed (p : FormPart) (v : HeadedPart) (hv : Varies p v) (item : FileItem) :
    p.headed.finished item = { v.finished item with contentType := p.type } := by
  have hdata : p.headed.data = v.data := hv.data.symm
  rw [HeadedPart.finished, HeadedPart.finished, p.typed_headed, hdata]
  rfl

/-- One part, and `fs` and `fs'` for the parts behind it. -/
theorem run_own_kept (p : FormPart) (v : HeadedPart) (rest : List (FormPart × HeadedPart))
    (hv : Varies p v) (hkept : Kept ((p, v) :: rest)) (datas datas' : List Bytes)
    (hdatas : datas.flatten = v.data) (hdatas' : datas'.flatten = p.headed.data)
    (fs fs' : List MultipartEvent)
    (ih : ∀ (b : RequestBody) (item : FileItem) (c : Bytes), item.parseState = true →
      lastValue item.contentType (leadingOf rest) = c → Kept rest →
      runAll multipartCallback fs (b.push item) =
        runAll multipartCallback fs' (b.push { item with contentType := c })) (b : RequestBody) :
    runAll multipartCallback (v.ownEvents datas ++ fs) b =
      runAll multipartCallback (p.headed.ownEvents datas' ++ fs') b := by
  obtain ⟨hne, hrest⟩ := hkept
  have hne' : p.headed.own ≠ [] := by simp [p.own_headed]
  cases hd : p.described with
  | none =>
    obtain ⟨back, hown, -⟩ := hv.own_cons hne
    rw [HeadedPart.ownEvents, HeadedPart.ownEvents, hown, p.own_headed,
      List.append_assoc (headerEvents _), List.append_assoc (headerEvents _)]
    exact run_refused p.disposition hd back p.typeLine _ _ b
  | some item =>
    obtain ⟨hsame, htype, hkept⟩ := hrest (by simp [hd])
    rw [hd] at hsame
    have hplain := p.readDispositions_headed.trans hd
    rw [(v.run_own hne hv.once datas hdatas b fs).1 item hsame,
      (p.headed.run_own hne' p.varies_headed.once datas' hdatas' b fs').1 item hplain,
      finished_headed p v hv item]
    exact ih b (v.finished item) p.type rfl (by rw [← htype, lastValue_append]; rfl) hkept

/-- **Forward**, behind an item that is over; `c` is the content type it has in
the plain run. -/
theorem run_kept (ps : List (FormPart × HeadedPart)) (ess ess' : List (List MultipartEvent))
    (hes : List.Forall₂ HeadedPart.Events (ps.map (·.2)) ess)
    (hes' : List.Forall₂ HeadedPart.Events (ps.map (·.1.headed)) ess')
    (hvaries : ∀ x ∈ ps, Varies x.1 x.2) (fs : List MultipartEvent) (b : RequestBody)
    (item : FileItem) (c : Bytes) (hs : item.parseState = true)
    (hc : lastValue item.contentType (leadingOf ps) = c) (hkept : Kept ps) :
    runAll multipartCallback (ess.flatten ++ fs) (b.push item) =
      runAll multipartCallback (ess'.flatten ++ fs) (b.push { item with contentType := c }) := by
  induction ps generalizing ess ess' b item c with
  | nil =>
    obtain rfl := List.forall₂_nil_left_iff.mp hes
    obtain rfl := List.forall₂_nil_left_iff.mp hes'
    have hsame : { item with contentType := c } = item := by rw [← hc]; rfl
    rw [hsame]
  | cons x rest ih =>
    obtain ⟨p, v⟩ := x
    obtain ⟨es, ess, hesv, hrest, rfl⟩ := List.forall₂_cons_left_iff.mp hes
    obtain ⟨es', ess', hesp, hrest', rfl⟩ := List.forall₂_cons_left_iff.mp hes'
    obtain ⟨datas, hdatas, hsplit⟩ := v.run_split es hesv
    obtain ⟨datas', hdatas', hsplit'⟩ := p.headed.run_split es' hesp
    rw [List.flatten_cons, List.flatten_cons, List.append_assoc, List.append_assoc, hsplit, hsplit',
      v.run_leading b item hs, p.leading_headed]
    have hlead : lastValue item.contentType v.leading = c := hc
    rw [hlead]
    exact run_own_kept p v rest (hvaries _ (List.mem_cons_self ..)) hkept datas datas' hdatas
      hdatas' _ _ (ih ess ess' hrest hrest' fun y hy => hvaries y (List.mem_cons_of_mem _ hy)) _

/-- The same for the first part, which nothing may stand in front of. -/
theorem run_first_kept (ps : List (FormPart × HeadedPart)) (ess ess' : List (List MultipartEvent))
    (hes : List.Forall₂ HeadedPart.Events (ps.map (·.2)) ess)
    (hes' : List.Forall₂ HeadedPart.Events (ps.map (·.1.headed)) ess')
    (hvaries : ∀ x ∈ ps, Varies x.1 x.2) (fs : List MultipartEvent) (b : RequestBody)
    (hlead : leadingOf ps = []) (hkept : Kept ps) :
    runAll multipartCallback (ess.flatten ++ fs) b =
      runAll multipartCallback (ess'.flatten ++ fs) b := by
  cases ps with
  | nil =>
    obtain rfl := List.forall₂_nil_left_iff.mp hes
    obtain rfl := List.forall₂_nil_left_iff.mp hes'
    rfl
  | cons x rest =>
    obtain ⟨p, v⟩ := x
    obtain ⟨es, ess, hesv, hrest, rfl⟩ := List.forall₂_cons_left_iff.mp hes
    obtain ⟨es', ess', hesp, hrest', rfl⟩ := List.forall₂_cons_left_iff.mp hes'
    obtain ⟨datas, hdatas, hsplit⟩ := v.run_split es hesv
    obtain ⟨datas', hdatas', hsplit'⟩ := p.headed.run_split es' hesp
    have hnone : v.leading = [] := hlead
    rw [List.flatten_cons, List.flatten_cons, List.append_assoc, List.append_assoc, hsplit, hsplit',
      hnone, p.leading_headed]
    exact run_own_kept p v rest (hvaries _ (List.mem_cons_self ..)) hkept datas datas' hdatas
      hdatas' _ _ (run_kept rest ess ess' hrest hrest'
        (fun y hy => hvaries y (List.mem_cons_of_mem _ hy)) fs) b

/-! ## Only kept variants do -/

/-- The plain parts, none of them refused, make their items. -/
theorem run_plain (ps : List FormPart) (ess : List (List MultipartEvent))
    (hes : List.Forall₂ HeadedPart.Events (ps.map (·.headed)) ess)
    (hread : ∀ p ∈ ps, p.described ≠ none) (fs : List MultipartEvent) (b : RequestBody) :
    runAll multipartCallback (ess.flatten ++ fs) b =
      runAll multipartCallback fs { b with fileItems := b.fileItems ++ ps.map (·.item) } := by
  induction ps generalizing ess b with
  | nil =>
    obtain rfl := List.forall₂_nil_left_iff.mp hes
    simp
  | cons p ps ih =>
    obtain ⟨es, ess, hesp, hrest, rfl⟩ := List.forall₂_cons_left_iff.mp hes
    obtain ⟨datas, hdatas, hsplit⟩ := p.headed.run_split es hesp
    obtain ⟨item, hitem⟩ := Option.ne_none_iff_exists'.mp (hread p (List.mem_cons_self ..))
    have hplain := p.readDispositions_headed.trans hitem
    have hne : p.headed.own ≠ [] := by simp [p.own_headed]
    rw [List.flatten_cons, List.append_assoc, hsplit, p.leading_headed, headerEvents,
      List.flatMap_nil, List.nil_append,
      (p.headed.run_own hne p.varies_headed.once datas hdatas b _).1 item hplain,
      ih ess hrest fun q hq => hread q (List.mem_cons_of_mem _ hq)]
    simp [RequestBody.push, FormPart.item, hitem]

/-- **Frame.**  Later parts write the content type and the data of the last item,
and add no more items than they are. -/
theorem run_frame (vs : List HeadedPart) (ess : List (List MultipartEvent))
    (hes : List.Forall₂ HeadedPart.Events vs ess) (honce : ∀ v ∈ vs, v.Once) (b : RequestBody)
    (item : FileItem) (hs : item.parseState = true)
    (hok : (runAll multipartCallback ess.flatten (b.push item)).1 = none) :
    ∃ (contentType data : Bytes) (tail : List FileItem),
      (runAll multipartCallback ess.flatten (b.push item)).2.fileItems =
        b.fileItems ++ { item with contentType, data := item.data ++ data } :: tail ∧
      tail.length ≤ vs.length ∧ ∀ i ∈ tail, i.parseState = true := by
  induction vs generalizing ess b item with
  | nil =>
    obtain rfl := List.forall₂_nil_left_iff.mp hes
    exact ⟨item.contentType, [], [], by simp [runAll, RequestBody.push], Nat.le_refl 0, nofun⟩
  | cons v vs ih =>
    obtain ⟨es, ess, hesv, hrest, rfl⟩ := List.forall₂_cons_left_iff.mp hes
    obtain ⟨datas, hdatas, hsplit⟩ := v.run_split es hesv
    have honce' := honce v (List.mem_cons_self ..)
    have ih := ih ess hrest fun w hw => honce w (List.mem_cons_of_mem _ hw)
    rw [List.flatten_cons, hsplit, v.run_leading b item hs] at hok ⊢
    by_cases hnil : v.own = []
    · rw [v.run_hidden hnil datas hdatas b
        { item with contentType := lastValue item.contentType v.leading } hs] at hok ⊢
      obtain ⟨contentType, data, tail, hitems, hlen, hover⟩ := ih b { item with
        contentType := lastValue item.contentType v.leading, data := item.data ++ v.data } hs hok
      refine ⟨contentType, v.data ++ data, tail, ?_, Nat.le_succ_of_le hlen, hover⟩
      rw [hitems]
      simp
    · cases hread : readDispositions v.described with
      | none =>
        exact absurd hok ((v.run_own hnil honce' datas hdatas _ _).2 hread)
      | some own =>
        rw [(v.run_own hnil honce' datas hdatas _ _).1 own hread] at hok ⊢
        obtain ⟨contentType, data, tail, hitems, hlen, hover⟩ := ih _ (v.finished own) rfl hok
        refine ⟨lastValue item.contentType v.leading, [],
          { v.finished own with contentType, data := (v.finished own).data ++ data } :: tail, ?_,
          Nat.succ_le_succ hlen, List.forall_mem_cons.mpr ⟨rfl, hover⟩⟩
        rw [hitems]
        simp [RequestBody.push]

/-- A reading says the name, the flag and the filename, and nothing else. -/
theorem readDispositions_ext (hs ks : List (Bytes × Bytes)) (item item' : FileItem)
    (h : readDispositions hs = some item) (h' : readDispositions ks = some item')
    (hfile : item.isFile = item'.isFile) (hname : item.name = item'.name)
    (hfilename : item.filename = item'.filename) : item = item' := by
  obtain ⟨hstate, htype, hdata⟩ := foldlM_frame hs freshItem item h
  obtain ⟨hstate', htype', hdata'⟩ := foldlM_frame ks freshItem item' h'
  cases item
  cases item'
  simp only at hfile hname hfilename hstate htype hdata hstate' htype' hdata'
  rw [hfile, hname, hfilename, hstate, htype, hdata, hstate', htype', hdata']

/-- One part; `front` are the items there should be before it. -/
theorem own_of_run (p : FormPart) (v : HeadedPart) (rest : List (FormPart × HeadedPart))
    (hv : Varies p v) (hread : p.described ≠ none) (hne : v.own ≠ []) (datas : List Bytes)
    (hdatas : datas.flatten = v.data) (ess : List (List MultipartEvent))
    (hes : List.Forall₂ HeadedPart.Events (rest.map (·.2)) ess)
    (hvaries : ∀ x ∈ rest, Varies x.1 x.2)
    (ih : ∀ (b : RequestBody) (item : FileItem) (c : Bytes), item.parseState = true →
      (runAll multipartCallback ess.flatten (b.push item)).1 = none →
      (runAll multipartCallback ess.flatten (b.push item)).2.fileItems =
        b.fileItems ++ { item with contentType := c } :: rest.map (·.1.item) →
      lastValue item.contentType (leadingOf rest) = c ∧ Kept rest)
    (b : RequestBody) (front : List FileItem) (hlen : front.length = b.fileItems.length)
    (hok : (runAll multipartCallback (v.ownEvents datas ++ ess.flatten) b).1 = none)
    (hitems : (runAll multipartCallback (v.ownEvents datas ++ ess.flatten) b).2.fileItems =
      front ++ p.item :: rest.map (·.1.item)) :
    b.fileItems = front ∧ Kept ((p, v) :: rest) := by
  obtain ⟨d, hd⟩ := Option.ne_none_iff_exists'.mp hread
  have hplain := p.readDispositions_headed.trans hd
  have hitem : p.item = { v.finished d with contentType := p.type } := by
    rw [FormPart.item, hd, Option.getD_some, finished_headed p v hv]
  cases hr : readDispositions v.described with
  | none => exact absurd hok ((v.run_own hne hv.once datas hdatas b _).2 hr)
  | some own =>
    have hrun := (v.run_own hne hv.once datas hdatas b ess.flatten).1 own hr
    rw [hrun] at hok hitems
    obtain ⟨contentType, data, tail, hframe, -⟩ :=
      run_frame (rest.map (·.2)) ess hes (Varies.once_all rest hvaries) b (v.finished own) rfl hok
    obtain ⟨hfront, htail⟩ := List.append_inj (hframe.symm.trans hitems) hlen.symm
    have hhead := (List.cons.inj htail).1
    rw [hitem, FileItem.mk.injEq] at hhead
    have hown : own = d := readDispositions_ext _ _ own d hr hplain hhead.1 hhead.2.2.2.1
      hhead.2.2.2.2.1
    rw [hitem, ← hown, ← hfront] at hitems
    obtain ⟨hlast, hkept⟩ := ih b (v.finished own) p.type rfl hok hitems
    refine ⟨hfront, hne, fun _ => ⟨by rw [hr, hd, hown], ?_, hkept⟩⟩
    rw [lastValue_append]
    exact hlast

/-- **Backward**, behind an item that is over. -/
theorem kept_of_run (ps : List (FormPart × HeadedPart)) (ess : List (List MultipartEvent))
    (hes : List.Forall₂ HeadedPart.Events (ps.map (·.2)) ess)
    (hvaries : ∀ x ∈ ps, Varies x.1 x.2) (hread : ∀ x ∈ ps, x.1.described ≠ none)
    (b : RequestBody) (item : FileItem) (c : Bytes) (hs : item.parseState = true)
    (hok : (runAll multipartCallback ess.flatten (b.push item)).1 = none)
    (hitems : (runAll multipartCallback ess.flatten (b.push item)).2.fileItems =
      b.fileItems ++ { item with contentType := c } :: ps.map (·.1.item)) :
    lastValue item.contentType (leadingOf ps) = c ∧ Kept ps := by
  induction ps generalizing ess b item c with
  | nil =>
    obtain rfl := List.forall₂_nil_left_iff.mp hes
    have hsame : b.fileItems ++ [item] = b.fileItems ++ [{ item with contentType := c }] := hitems
    have hlast := (List.cons.inj (List.append_cancel_left hsame)).1
    exact ⟨congrArg FileItem.contentType hlast, trivial⟩
  | cons x rest ih =>
    obtain ⟨p, v⟩ := x
    obtain ⟨es, ess, hesv, hrest, rfl⟩ := List.forall₂_cons_left_iff.mp hes
    obtain ⟨datas, hdatas, hsplit⟩ := v.run_split es hesv
    have hv := hvaries (p, v) (List.mem_cons_self ..)
    have hvaries := fun y (hy : y ∈ rest) => hvaries y (List.mem_cons_of_mem _ hy)
    rw [List.flatten_cons, hsplit, v.run_leading b item hs] at hok hitems
    by_cases hnil : v.own = []
    · -- the part adds no item, and the parts behind it cannot make up for it
      rw [v.run_hidden hnil datas hdatas b
        { item with contentType := lastValue item.contentType v.leading } hs] at hok hitems
      obtain ⟨contentType, data, tail, hframe, hlen, -⟩ :=
        run_frame (rest.map (·.2)) ess hrest (Varies.once_all rest hvaries) b { item with
          contentType := lastValue item.contentType v.leading, data := item.data ++ v.data } hs hok
      have hcount := congrArg List.length (hframe.symm.trans hitems)
      simp only [List.length_append, List.length_cons, List.length_map] at hcount hlen
      omega
    · have ih := ih ess hrest hvaries fun y hy => hread y (List.mem_cons_of_mem _ hy)
      obtain ⟨hfront, hkept⟩ := own_of_run p v rest hv (hread (p, v) (List.mem_cons_self ..)) hnil
        datas hdatas ess hrest hvaries ih _ (b.fileItems ++ [{ item with contentType := c }])
        (by simp [RequestBody.push]) hok (by rw [hitems]; simp)
      refine ⟨?_, hkept⟩
      have hlast := (List.cons.inj (List.append_cancel_left hfront)).1
      exact congrArg FileItem.contentType hlast

/-- Items that are over differ in their content. -/
theorem eq_of_content (items items' : List FileItem) (h : ∀ i ∈ items, i.parseState = true)
    (h' : ∀ i ∈ items', i.parseState = true)
    (heq : items.map FileItem.content = items'.map FileItem.content) : items = items' := by
  induction items generalizing items' with
  | nil => exact (List.map_eq_nil_iff.mp heq.symm).symm
  | cons i items ih =>
    cases items' with
    | nil => simp at heq
    | cons i' items' =>
      rw [List.forall_mem_cons] at h h'
      rw [List.map_cons, List.map_cons, List.cons.injEq] at heq
      have hhead : i = i' := by
        have hi := heq.1
        cases i
        cases i'
        simp only [FileItem.content, FileItem.mk.injEq, true_and] at hi h h'
        rw [h.1, h'.1, hi.1, hi.2.1, hi.2.2.1, hi.2.2.2.1, hi.2.2.2.2]
      rw [hhead, ih items' h.2 h'.2 heq.2]

/-- The same for the first part. -/
theorem kept_of_first_run (ps : List (FormPart × HeadedPart)) (ess : List (List MultipartEvent))
    (hes : List.Forall₂ HeadedPart.Events (ps.map (·.2)) ess)
    (hvaries : ∀ x ∈ ps, Varies x.1 x.2) (hread : ∀ x ∈ ps, x.1.described ≠ none)
    (b : RequestBody) (hb : b.fileItems = [])
    (hok : (runAll multipartCallback ess.flatten b).1 = none)
    (hitems : (runAll multipartCallback ess.flatten b).2.fileItems.map FileItem.content =
      (ps.map (·.1.item)).map FileItem.content) :
    leadingOf ps = [] ∧ Kept ps := by
  cases ps with
  | nil => exact ⟨rfl, trivial⟩
  | cons x rest =>
    obtain ⟨p, v⟩ := x
    obtain ⟨es, ess, hesv, hrest, rfl⟩ := List.forall₂_cons_left_iff.mp hes
    obtain ⟨datas, hdatas, hsplit⟩ := v.run_split es hesv
    have hv := hvaries (p, v) (List.mem_cons_self ..)
    have hvaries := fun y (hy : y ∈ rest) => hvaries y (List.mem_cons_of_mem _ hy)
    have hread' := fun y (hy : y ∈ rest) => hread y (List.mem_cons_of_mem _ hy)
    rw [List.flatten_cons, hsplit] at hok hitems
    have hlead : v.leading = [] := by
      by_contra hne
      exact run_no_item b v.leading hne v.name_leading hb _ hok
    have hne : v.own ≠ [] := by
      intro hnil
      have hheaders := v.leading_append_own
      rw [hlead, hnil] at hheaders
      exact hv.headers_ne_nil hheaders.symm
    rw [hlead, headerEvents, List.flatMap_nil, List.nil_append] at hok hitems
    have hover : ∀ i ∈ (runAll multipartCallback (v.ownEvents datas ++ ess.flatten) b).2.fileItems,
        i.parseState = true := by
      cases hr : readDispositions v.described with
      | none => exact absurd hok ((v.run_own hne hv.once datas hdatas b _).2 hr)
      | some own =>
        have hrun := (v.run_own hne hv.once datas hdatas b ess.flatten).1 own hr
        rw [hrun] at hok ⊢
        obtain ⟨contentType, data, tail, hframe, -, htail⟩ := run_frame (rest.map (·.2)) ess hrest
          (Varies.once_all rest hvaries) b (v.finished own) rfl hok
        rw [hframe, hb]
        exact List.forall_mem_cons.mpr ⟨rfl, htail⟩
    have hplain : ∀ i ∈ ((p, v) :: rest).map (·.1.item), i.parseState = true := by
      intro i hi
      obtain ⟨y, -, rfl⟩ := List.mem_map.mp hi
      rfl
    have hitems := eq_of_content _ _ hover hplain hitems
    obtain ⟨-, hkept⟩ := own_of_run p v rest hv (hread (p, v) (List.mem_cons_self ..)) hne datas
      hdatas ess hrest hvaries (kept_of_run rest ess hrest hvaries hread') b [] (by simp [hb]) hok
      hitems
    exact ⟨hlead, hkept⟩

end Ehttp
