import Ehttp.Epoll.Clients

/-!
# The handlers of `epoll_socket.cpp`, one by one

What a dispatch, the end of a task, a sweep and an accept do to the contexts and
to the client table.

* `Inv.finish`: the end of a task, which closes its context or arms it again;
* `clearIdleClients_spec`: a sweep leaves the busy contexts alone;
* `Passive`: the steps that run no task;
* `Inv.exact`: what the invariant says of the client table.
-/

namespace Ehttp

open Lib

namespace Clients

variable {s : Clients} {p : Ptr}

/-! ## Tasks -/

section StartTask

variable (hp : s.Live p) (func : TaskFunc) (q : Ptr)
include hp

theorem live_startTask : (s.startTask p func).Live q ↔ s.Live q :=
  (live_modify ((live_setCtxStatus hp _ p).mpr hp) _ q).trans (live_setCtxStatus hp _ q)

theorem idAt_startTask : (s.startTask p func).idAt q = s.idAt q := by
  have hset : (s.setCtxStatus p func.ctxStatus).idAt q = s.idAt q := by
    refine idAt_modify hp _ ?_ q
    exact fun _ => rfl
  rw [startTask, ← hset]
  refine idAt_modify ((live_setCtxStatus hp _ p).mpr hp) _ ?_ q
  exact fun _ => rfl

theorem armed_startTask : (s.startTask p func).Armed q ↔ s.Armed q :=
  (armed_modify ((live_setCtxStatus hp _ p).mpr hp) _ q).trans (armed_setCtxStatus hp _ q)

theorem busy_startTask : (s.startTask p func).Busy q ↔ q = p ∨ s.Busy q := by
  rw [startTask, busy_updateInteractTime ((live_setCtxStatus hp _ p).mpr hp),
    busy_setCtxStatus hp]
  split
  · rename_i hq
    exact iff_of_true func.ctxStatus_eq (Or.inl hq)
  · rename_i hq
    rw [or_iff_right hq]

omit q in
theorem Inv.startTask (h : s.Inv) (hidle : ¬ s.Armed p) : (s.startTask p func).Inv := by
  have hset := Inv.setCtxStatus hp h func.ctxStatus fun _ => hidle
  exact Inv.updateInteractTime ((live_setCtxStatus hp _ p).mpr hp) hset

end StartTask

/-- What the end of a task does to its context: it is closed, or armed again. -/
def finish (s : Clients) (p : Ptr) : Option Interest → Clients
  | none => s.closeAndRelease p
  | some interest => (s.setCtxStatus p CONTEXT_READ_OVER).arm p interest

theorem readFunc_eq (ret : ReadRet) :
    s.readFunc p ret = s.finish p (EpollSocket.readInterest ret) := by
  rw [readFunc]
  cases EpollSocket.readInterest ret <;> rfl

/-- `write_func` sets the status behind the re-arm. -/
theorem writeFunc_eq (ret : WriteRet) :
    s.writeFunc p ret = s.finish p (EpollSocket.writeInterest s.status ret) := by
  rw [writeFunc]
  cases EpollSocket.writeInterest s.status ret with
  | none => rfl
  | some interest =>
    simp only [finish, setCtxStatus, modify, deref, arm]
    cases s.heap p <;> rfl

theorem runTask_eq (s : Clients) (task : Task) (onReadable : ReadRet) (onWriteable : WriteRet) :
    ∃ events, s.runTask task onReadable onWriteable = s.finish task.ctx events := by
  rw [runTask]
  cases task.func with
  | readFunc => exact ⟨_, readFunc_eq _⟩
  | writeFunc => exact ⟨_, writeFunc_eq _⟩

theorem runTask_close (task : Task) :
    s.runTask task .readClose .connClose = s.closeAndRelease task.ctx := by
  rw [runTask]
  cases task.func <;> rfl

section Finish

variable (hp : s.Live p) (events : Option Interest) (q : Ptr)
include hp

theorem live_finish (hq : (s.finish p events).Live q) : s.Live q := by
  cases events with
  | none => exact ((live_closeAndRelease hp q).mp hq).1
  | some interest => exact (live_setCtxStatus hp _ q).mp hq

theorem busy_finish : (s.finish p events).Busy q ↔ s.Busy q ∧ q ≠ p := by
  cases events with
  | none => exact busy_closeAndRelease hp q
  | some interest =>
    refine (busy_setCtxStatus hp _ q).trans ?_
    split
    · rename_i hq
      simp [hq, CONTEXT_READ_OVER, CONTEXT_READING]
    · rename_i hq
      rw [and_iff_left hq]

/-- A context that is still there is armed. -/
theorem armed_finish_self (hlive : (s.finish p events).Live p) : (s.finish p events).Armed p := by
  cases events with
  | none => exact absurd rfl ((live_closeAndRelease hp p).mp hlive).2
  | some interest => exact (armed_arm interest p).mpr (Or.inl rfl)

theorem armed_finish_of_ne (hq : q ≠ p) : (s.finish p events).Armed q ↔ s.Armed q := by
  cases events with
  | none => exact (armed_closeAndRelease hp q).trans (and_iff_left hq)
  | some interest =>
    exact ((armed_arm interest q).trans (or_iff_right hq)).trans (armed_setCtxStatus hp _ q)

omit q in
theorem Inv.finish (h : s.Inv) : (s.finish p events).Inv := by
  cases events with
  | none => exact h.closeAndRelease hp
  | some interest =>
    have hidle : ¬ (s.setCtxStatus p CONTEXT_READ_OVER).Busy p := by
      rw [busy_setCtxStatus hp, if_pos rfl]
      decide
    have hset := h.setCtxStatus hp CONTEXT_READ_OVER fun hread => absurd hread (by decide)
    exact hset.arm interest ((live_setCtxStatus hp _ p).mpr hp) hidle

end Finish

/-! ## `clear_idle_clients` -/

theorem removeEvs_live (maxIdleSec : Int) (hp : p ∈ s.removeEvs maxIdleSec) :
    s.Live p ∧ ¬ s.Busy p := by
  obtain ⟨-, hidle⟩ := List.mem_filter.mp hp
  rw [isIdle] at hidle
  cases hctx : s.heap p with
  | none => simp [hctx] at hidle
  | some ctx =>
    simp only [hctx, Bool.decide_and, Bool.and_eq_true, decide_eq_true_eq] at hidle
    refine ⟨live_iff.mpr ⟨ctx, hctx⟩, ?_⟩
    rw [Busy, statusAt, hctx, Option.map_some, Option.some_inj]
    exact hidle.2.1

theorem removeEvs_nodup (h : s.Inv) (maxIdleSec : Int) : (s.removeEvs maxIdleSec).Nodup := by
  apply List.Nodup.filter
  apply List.Nodup.map_on _ (List.Nodup.of_map _ h.keys)
  rintro ⟨id, p⟩ hp ⟨id', p'⟩ hp' rfl
  have hid := (h.keyed id p).mp hp
  have hid' := (h.keyed id' p).mp hp'
  rw [hid] at hid'
  obtain rfl := Option.some.inj hid'
  rfl

/-- Distinct contexts that are there are closed one after the other. -/
theorem foldl_closeAndRelease (ps : List Ptr) (hnodup : ps.Nodup) (s : Clients)
    (hlive : ∀ p ∈ ps, s.Live p) (h : s.Inv) :
    (ps.foldl closeAndRelease s).Inv ∧
      (∀ q, (ps.foldl closeAndRelease s).Live q ↔ s.Live q ∧ q ∉ ps) ∧
      (∀ q, (ps.foldl closeAndRelease s).Busy q ↔ s.Busy q ∧ q ∉ ps) ∧
      ∀ q, (ps.foldl closeAndRelease s).Armed q ↔ s.Armed q ∧ q ∉ ps := by
  induction ps generalizing s with
  | nil => simpa using h
  | cons p ps ih =>
    obtain ⟨hp, hrest⟩ := List.nodup_cons.mp hnodup
    have hplive := hlive p List.mem_cons_self
    have hlive' : ∀ q ∈ ps, (s.closeAndRelease p).Live q := by
      intro q hq
      refine (live_closeAndRelease hplive q).mpr ⟨hlive q (List.mem_cons_of_mem _ hq), ?_⟩
      rintro rfl
      exact hp hq
    obtain ⟨hinv, hl, hb, ha⟩ := ih hrest (s.closeAndRelease p) hlive' (h.closeAndRelease hplive)
    rw [List.foldl_cons]
    refine ⟨hinv, fun q => ?_, fun q => ?_, fun q => ?_⟩
    · rw [hl, live_closeAndRelease hplive, List.mem_cons, not_or, and_assoc]
    · rw [hb, busy_closeAndRelease hplive, List.mem_cons, not_or, and_assoc]
    · rw [ha, armed_closeAndRelease hplive, List.mem_cons, not_or, and_assoc]

/-- Under the invariant the first loop uses no freed context. -/
theorem clearIdleClients_eq (h : s.Inv) (maxIdleSec : Int) (hmax : 0 < maxIdleSec) :
    s.clearIdleClients maxIdleSec = (s.removeEvs maxIdleSec).foldl closeAndRelease s := by
  have hany : (s.eclients.any fun e => (s.heap e.2).isNone) = false := by
    rw [List.any_eq_false]
    rintro ⟨id, p⟩ hp
    have hlive := live_iff_idAt.mpr ⟨id, (h.keyed id p).mp hp⟩
    rw [Live] at hlive
    simp [Option.isSome_iff_ne_none.mp hlive]
  rw [clearIdleClients, if_neg (by omega), hany, Bool.or_false]

/-- A sweep closes every context when all have been idle for long. -/
theorem clearIdleClients_all (h : s.Inv) (maxIdleSec : Int) (hmax : 0 < maxIdleSec)
    (hbusy : ∀ p, ¬ s.Busy p)
    (hidle : ∀ p ctx, s.heap p = some ctx → ctx.lastInteractTime ≤ s.now - maxIdleSec) (q : Ptr) :
    ¬ (s.clearIdleClients maxIdleSec).Live q := by
  have hspec := foldl_closeAndRelease (s.removeEvs maxIdleSec) (removeEvs_nodup h maxIdleSec) s
    (fun p hp => (removeEvs_live maxIdleSec hp).1) h
  rw [← clearIdleClients_eq h maxIdleSec hmax] at hspec
  intro hq
  obtain ⟨hlive, hnot⟩ := (hspec.2.1 q).mp hq
  obtain ⟨ctx, hctx⟩ := live_iff.mp hlive
  have hentry : q ∈ s.eclients.map (·.2) :=
    List.mem_map.mpr ⟨(ctx.id, q), (h.keyed _ _).mpr (by rw [idAt, hctx, Option.map_some]), rfl⟩
  have hstatus : ctx.ctxStatus ≠ CONTEXT_READING := by
    intro heq
    apply hbusy q
    rw [Busy, statusAt, hctx, Option.map_some, heq]
  refine hnot (List.mem_filter.mpr ⟨hentry, ?_⟩)
  simp only [isIdle, hctx, decide_eq_true_eq]
  exact ⟨hidle q ctx hctx, hstatus, hstatus⟩

/-- The contexts are finitely many, so one of them was used last. -/
theorem exists_lastInteractTime (h : s.Inv) :
    ∃ t, ∀ p ctx, s.heap p = some ctx → ctx.lastInteractTime ≤ t := by
  have hlist : ∀ m : StdMap Nat Ptr, ∃ t, ∀ e ∈ m, ∀ ctx, s.heap e.2 = some ctx →
      ctx.lastInteractTime ≤ t := by
    intro m
    induction m with
    | nil => exact ⟨0, fun e he => absurd he List.not_mem_nil⟩
    | cons e m ih =>
      obtain ⟨t, ht⟩ := ih
      cases hctx : s.heap e.2 with
      | none =>
        refine ⟨t, fun e' he' ctx hctx' => ?_⟩
        rcases List.mem_cons.mp he' with rfl | he'
        · rw [hctx] at hctx'
          cases hctx'
        · exact ht e' he' ctx hctx'
      | some first =>
        refine ⟨max first.lastInteractTime t, fun e' he' ctx hctx' => ?_⟩
        rcases List.mem_cons.mp he' with rfl | he'
        · rw [hctx] at hctx'
          obtain rfl := Option.some.inj hctx'
          omega
        · have hle := ht e' he' ctx hctx'
          omega
  obtain ⟨t, ht⟩ := hlist s.eclients
  refine ⟨t, fun p ctx hctx => ht (ctx.id, p) ?_ ctx hctx⟩
  rw [h.keyed, idAt, hctx, Option.map_some]

theorem clearIdleClients_spec (h : s.Inv) (maxIdleSec : Int) :
    (s.clearIdleClients maxIdleSec).Inv ∧
      (∀ q, (s.clearIdleClients maxIdleSec).Live q → s.Live q) ∧
      (∀ q, (s.clearIdleClients maxIdleSec).Busy q ↔ s.Busy q) ∧
      ∀ q, (s.clearIdleClients maxIdleSec).Live q → s.Armed q →
        (s.clearIdleClients maxIdleSec).Armed q := by
  by_cases hmax : maxIdleSec ≤ 0
  · rw [clearIdleClients, if_pos hmax]
    exact ⟨h, fun _ hq => hq, fun _ => Iff.rfl, fun _ _ hq => hq⟩
  · have hspec := foldl_closeAndRelease (s.removeEvs maxIdleSec) (removeEvs_nodup h maxIdleSec) s
      (fun p hp => (removeEvs_live maxIdleSec hp).1) h
    rw [← clearIdleClients_eq h maxIdleSec (by omega)] at hspec
    obtain ⟨hinv, hl, hb, ha⟩ := hspec
    refine ⟨hinv, fun q hq => ((hl q).mp hq).1, fun q => ?_, fun q hq harm => ?_⟩
    · rw [hb]
      exact and_iff_left_of_imp fun hbusy hmem => (removeEvs_live maxIdleSec hmem).2 hbusy
    · exact (ha q).mpr ⟨harm, ((hl q).mp hq).2⟩

/-! ## `handle_accept_event` -/

theorem live_register (id : Nat) (q : Ptr) :
    ((s.createClient p).addClient p id).Live q ↔ q = p ∨ s.Live q := by
  simp only [Live, createClient, addClient, Function.update_apply]
  split
  · rename_i hq
    exact iff_of_true rfl (Or.inl hq)
  · rename_i hq
    rw [or_iff_right hq]

theorem live_register_self (s : Clients) (p : Ptr) (id : Nat) :
    ((s.createClient p).addClient p id).Live p := (live_register id p).mpr (Or.inl rfl)

section Accept

variable (hp : ¬ s.Live p)
include hp

theorem busy_register (id : Nat) (q : Ptr) :
    ((s.createClient p).addClient p id).Busy q ↔ s.Busy q := by
  simp only [Busy, statusAt, createClient, addClient, Function.update_apply]
  split
  · rename_i hq
    subst hq
    refine iff_of_false (fun hnew => ?_) fun hbusy => hp (Busy.live hbusy)
    simp [CONTEXT_READING] at hnew
  · rfl

theorem Inv.register (h : s.Inv) : ((s.createClient p).addClient p (s.gClientId + 1)).Inv := by
  have hnew : s.gClientId + 1 ∉ s.accepted := by
    intro hmem
    have hle := h.fresh _ hmem
    omega
  have hkey : s.gClientId + 1 ∉ StdMap.keys s.eclients := fun hmem =>
    hnew ((h.live _).mp hmem).1
  have hrel : s.gClientId + 1 ∉ s.released := fun hmem => hnew (h.known _ hmem)
  have hperm := StdMap.insert_perm (fun a b => decide (a < b)) s.eclients (s.gClientId + 1) p hkey
  have hkeys := hperm.map Prod.fst
  constructor
  · exact h.noDangling
  · have hlen := hperm.length_eq
    have hcount := h.clients
    simp only [createClient, addClient, hlen, List.length_cons]
    omega
  · exact hkeys.nodup_iff.mpr (List.nodup_cons.mpr ⟨hkey, h.keys⟩)
  · intro id q
    have hmem : (id, q) ∈ StdMap.insert (fun a b => decide (a < b)) (s.gClientId + 1) p s.eclients ↔
        (id, q) = (s.gClientId + 1, p) ∨ (id, q) ∈ s.eclients := by
      rw [hperm.mem_iff, List.mem_cons]
    refine hmem.trans ?_
    simp only [h.keyed, idAt, createClient, addClient, Function.update_apply, Prod.mk.injEq]
    split
    · rename_i hq
      subst hq
      have hnone : s.heap q = none := Option.not_isSome_iff_eq_none.mp hp
      simp [hnone, eq_comm]
    · rename_i hq
      simp [hq]
  · intro id
    refine (hkeys.mem_iff.trans List.mem_cons).trans ?_
    change id = s.gClientId + 1 ∨ id ∈ StdMap.keys s.eclients ↔
      id ∈ s.accepted ++ [s.gClientId + 1] ∧ id ∉ s.released
    rw [h.live, List.mem_append, List.mem_singleton]
    constructor
    · rintro (rfl | ⟨hacc, hnot⟩)
      · exact ⟨Or.inr rfl, hrel⟩
      · exact ⟨Or.inl hacc, hnot⟩
    · rintro ⟨hacc | rfl, hnot⟩
      · exact Or.inr ⟨hacc, hnot⟩
      · exact Or.inl rfl
  · simp only [createClient, addClient, ← List.concat_eq_append]
    exact h.accepted.concat hnew
  · intro id hmem
    rcases List.mem_append.mp hmem with hmem | hmem
    · exact Nat.le_succ_of_le (h.fresh id hmem)
    · exact le_of_eq (List.mem_singleton.mp hmem)
  · exact h.released
  · exact fun id hmem => List.mem_append_left _ (h.known id hmem)
  · exact h.closed
  · intro q hq
    rw [live_register, busy_register hp]
    exact ⟨Or.inr (h.armed q hq).1, (h.armed q hq).2⟩

theorem busy_accept (addOk : Bool) (q : Ptr) : (s.accept p addOk).Busy q ↔ s.Busy q := by
  have hlive := live_register_self s p (s.gClientId + 1)
  have hreg := busy_register hp (s.gClientId + 1) q
  rw [accept]
  cases addOk with
  | true => exact hreg
  | false =>
    refine ((busy_closeAndRelease hlive q).trans (and_congr_left' hreg)).trans ?_
    refine and_iff_left_of_imp fun hbusy => ?_
    rintro rfl
    exact hp hbusy.live

theorem Inv.accept (h : s.Inv) (addOk : Bool) : (s.accept p addOk).Inv := by
  have hlive := live_register_self s p (s.gClientId + 1)
  have hbusy := (busy_register hp (s.gClientId + 1) p).not.mpr fun hbusy => hp hbusy.live
  rw [Clients.accept]
  cases addOk with
  | true => exact (h.register hp).arm .epollin hlive hbusy
  | false => exact (h.register hp).closeAndRelease hlive

omit hp in
/-- A context that is accepted is armed, or closed at once. -/
theorem attended_accept (addOk : Bool) (q : Ptr) (hq : (s.accept p addOk).Live q) :
    (s.accept p addOk).Armed q ∨ (s.Live q ∧ (s.Armed q → (s.accept p addOk).Armed q)) := by
  have hlive := live_register_self s p (s.gClientId + 1)
  rw [accept] at hq ⊢
  cases addOk with
  | true =>
    simp only [↓reduceIte] at hq ⊢
    rcases (live_register (s.gClientId + 1) q).mp hq with rfl | hq
    · exact Or.inl ((armed_arm _ _).mpr (Or.inl rfl))
    · exact Or.inr ⟨hq, fun harm => (armed_arm _ _).mpr (Or.inr harm)⟩
  | false =>
    simp only [Bool.false_eq_true, ↓reduceIte] at hq ⊢
    obtain ⟨hq, hne⟩ := (live_closeAndRelease hlive q).mp hq
    rcases (live_register (s.gClientId + 1) q).mp hq with rfl | hq
    · exact absurd rfl hne
    · exact Or.inr ⟨hq, fun harm => (armed_closeAndRelease hlive q).mpr ⟨harm, hne⟩⟩

end Accept

/-! ## `_status` -/

theorem run_of_stopIfEmpty (h : s.stopIfEmpty.status = .run) : s.status = .run := by
  rw [stopIfEmpty_eq] at h
  split at h
  · cases h
  · exact h

theorem run_of_closeAndRelease (h : (s.closeAndRelease p).status = .run) : s.status = .run := by
  rw [closeAndRelease, deref] at h
  cases hctx : s.heap p with
  | none =>
    simp only [hctx] at h
    exact h
  | some ctx =>
    simp only [hctx] at h
    have hrun := run_of_stopIfEmpty h
    exact hrun

theorem run_of_foldl (ps : List Ptr) (s : Clients)
    (h : (ps.foldl closeAndRelease s).status = .run) : s.status = .run := by
  induction ps generalizing s with
  | nil => exact h
  | cons p ps ih => exact run_of_closeAndRelease (ih (s.closeAndRelease p) h)

theorem run_of_clearIdleClients (maxIdleSec : Int)
    (h : (s.clearIdleClients maxIdleSec).status = .run) : s.status = .run := by
  rw [clearIdleClients] at h
  split at h
  · exact h
  · have hrun := run_of_foldl _ _ h
    exact hrun

theorem status_modify (f : Client → Client) : (s.modify p f).status = s.status := by
  rw [modify, deref]
  cases s.heap p <;> rfl

theorem status_startTask (func : TaskFunc) : (s.startTask p func).status = s.status :=
  (status_modify _).trans (status_modify _)

theorem run_of_finish (events : Option Interest) (h : (s.finish p events).status = .run) :
    s.status = .run := by
  cases events with
  | none => exact run_of_closeAndRelease h
  | some interest => exact (status_modify _).symm.trans h

/-! ## Dispatch -/

/-- What `multi_thread_handle_read_event` and its twin pass to `add_task`. -/
structure Dispatched (s : Clients) (p : Ptr) (t : Clients) : Prop where
  inv : t.Inv
  live : ∀ q, t.Live q ↔ s.Live q
  busy : ∀ q, t.Busy q ↔ q = p ∨ s.Busy q
  armed : ∀ q, t.Armed q ↔ s.Armed q ∧ q ≠ p
  idAt : ∀ q, t.idAt q = s.idAt q
  status : t.status = s.status

theorem Inv.dispatch (h : s.Inv) (hp : s.Armed p) (func : TaskFunc) :
    Dispatched s p ((s.disarm p).startTask p func) := by
  have hlive : (s.disarm p).Live p := (h.armed p hp).1
  have hdis : ¬ (s.disarm p).Armed p := fun harm => ((armed_disarm p).mp harm).2 rfl
  constructor
  · exact h.disarm.startTask hlive func hdis
  · exact live_startTask hlive func
  · exact busy_startTask hlive func
  · exact fun q => (armed_startTask hlive func q).trans (armed_disarm q)
  · exact idAt_startTask hlive func
  · exact status_startTask func

/-! ## The steps that run no task -/

/-- No context becomes busy or idle, and the server does not start. -/
structure Passive (s t : Clients) : Prop where
  inv : t.Inv
  busy : ∀ q, t.Busy q ↔ s.Busy q
  run : t.status = .run → s.status = .run

theorem Inv.passive_accept (h : s.Inv) (hp : ¬ s.Live p) (hrun : s.status = .run)
    (addOk : Bool) : Passive s (s.accept p addOk) :=
  ⟨h.accept hp addOk, busy_accept hp addOk, fun _ => hrun⟩

theorem Inv.passive_disarm (h : s.Inv) : Passive s (s.disarm p) :=
  ⟨h.disarm, fun _ => Iff.rfl, id⟩

theorem Inv.passive_sweep (h : s.Inv) (maxIdleSec : Int) :
    Passive s (s.clearIdleClients maxIdleSec) := by
  obtain ⟨hinv, -, hbusy, -⟩ := clearIdleClients_spec h maxIdleSec
  exact ⟨hinv, hbusy, run_of_clearIdleClients maxIdleSec⟩

theorem Inv.passive_check (h : s.Inv) : Passive s s.stopIfEmpty := by
  refine ⟨h.stopIfEmpty, fun q => ?_, run_of_stopIfEmpty⟩
  rw [stopIfEmpty_eq]
  rfl

theorem Inv.passive_tick (h : s.Inv) : Passive s { s with now := s.now + 1 } :=
  ⟨{ h with }, fun _ => Iff.rfl, id⟩

theorem Inv.passive_reject (h : s.Inv) : Passive s { s with status := .rejectConn } :=
  ⟨{ h with }, fun _ => Iff.rfl, fun hrun => by cases hrun⟩

/-- A context whose task is refused. -/
theorem Inv.passive_refuse (h : s.Inv) (hp : s.Armed p) (func : TaskFunc) :
    Passive s (((s.disarm p).startTask p func).closeAndRelease p) := by
  obtain ⟨hlive, hidle⟩ := h.armed p hp
  have hd := h.dispatch hp func
  have hlive' := (hd.live p).mpr hlive
  refine ⟨hd.inv.closeAndRelease hlive', fun q => ?_, fun hrun => ?_⟩
  · rw [busy_closeAndRelease hlive', hd.busy]
    constructor
    · rintro ⟨rfl | hq, hne⟩
      · exact absurd rfl hne
      · exact hq
    · intro hq
      refine ⟨Or.inr hq, ?_⟩
      rintro rfl
      exact hidle hq
  · rw [← hd.status]
    exact run_of_closeAndRelease hrun

/-! ## The last context -/

theorem Inv.clients_eq_zero (h : s.Inv) (hnone : ∀ p, ¬ s.Live p) : s.clients = 0 := by
  have hempty : s.eclients = [] := by
    rw [List.eq_nil_iff_forall_not_mem]
    rintro ⟨id, p⟩ he
    exact hnone p (live_iff_idAt.mpr ⟨id, (h.keyed id p).mp he⟩)
  rw [h.clients, hempty]
  rfl

/-- The last context is gone. -/
theorem Inv.stopIfEmpty_stop (h : s.Inv) (hrun : s.status ≠ .run) (hnone : ∀ p, ¬ s.Live p) :
    s.stopIfEmpty.status = .stop := by
  rw [stopIfEmpty_eq]
  cases hstatus : s.status with
  | run => exact absurd hstatus hrun
  | rejectConn => exact if_pos ⟨h.clients_eq_zero hnone, rfl⟩
  | stop => exact ite_self _

/-! ## Exactness -/

/-- The counter, the table, the ids and the calls of `on_close` agree. -/
structure Exact (s : Clients) : Prop where
  entries : s.clients = s.eclients.length
  unreleased : s.clients = (s.accepted.filter (· ∉ s.released)).length
  keyed : ∀ id p, (id, p) ∈ s.eclients → s.idAt p = some id
  live : ∀ id, (∃ p, s.idAt p = some id) ↔ id ∈ s.accepted ∧ id ∉ s.released
  distinct : s.accepted.Nodup
  released : ∀ id ∈ s.released, id ∈ s.accepted ∧ s.closed.count id = 1
  unclosed : ∀ id ∉ s.released, s.closed.count id = 0

theorem Inv.exact (h : s.Inv) : s.Exact := by
  have hlive : ∀ id, (∃ p, s.idAt p = some id) ↔ id ∈ s.accepted ∧ id ∉ s.released := by
    intro id
    rw [← h.live]
    constructor
    · rintro ⟨p, hp⟩
      exact h.mem_keys id hp
    · intro hkey
      obtain ⟨⟨id, p⟩, he, rfl⟩ := List.mem_map.mp hkey
      exact ⟨p, (h.keyed id p).mp he⟩
  have hperm : (StdMap.keys s.eclients).Perm (s.accepted.filter (· ∉ s.released)) := by
    rw [List.perm_ext_iff_of_nodup h.keys (h.accepted.filter _)]
    intro id
    rw [h.live, List.mem_filter, decide_eq_true_eq]
  have hlen : s.eclients.length = (s.accepted.filter (· ∉ s.released)).length := by
    rw [← hperm.length_eq, StdMap.keys, List.length_map]
  exact
    { entries := h.clients
      unreleased := by rw [h.clients, hlen]
      keyed := fun id p he => (h.keyed id p).mp he
      live := hlive
      distinct := h.accepted
      released := fun id hid =>
        ⟨h.known id hid, by rw [h.closed]; exact List.count_eq_one_of_mem h.released hid⟩
      unclosed := fun id hid => by rw [h.closed]; exact List.count_eq_zero_of_not_mem hid }

end Clients

end Ehttp
