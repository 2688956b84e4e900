import Mathlib.Data.List.Nodup
import Mathlib.Logic.Function.Basic
import Ehttp.Epoll.Socket
import Ehttp.Lib.Containers

/-!
# The client table of `epoll_socket.cpp`

Every function of the socket that changes the table is one operation here.  A
context is an object of the heap, named by its address, and an address that is
free is given again; `_eclients` maps ids to addresses.

* `Inv`: the counter, the table and the heap agree, no freed context has been
  used, and epoll has only contexts that `clear_idle_clients` may close;
* `Busy`: the contexts it leaves alone; they are closed by who has them;
* `Inv.modify`, `Inv.arm`, `Inv.disarm`, `Inv.closeAndRelease`: what every
  operation is made of.
-/

namespace Ehttp

open Lib

/-- An address of the heap. -/
abbrev Ptr := Nat

/-- An `EpollContext` with its `_id`. -/
structure Client extends EpollContext where
  id : Nat
  deriving DecidableEq, Repr

/-- The `_ctx_status` under which a task is queued. -/
def TaskFunc.ctxStatus : TaskFunc → Nat
  | .readFunc => CONTEXT_READING
  | .writeFunc => CONTEXT_WRITING

theorem TaskFunc.ctxStatus_eq (func : TaskFunc) : func.ctxStatus = CONTEXT_READING := by
  cases func <;> rfl

/-- `accepted` are the ids that `create_client` has given, `closed` the
arguments of `on_close` and `released` those of `delete`, both by their ids, in
order.  `dangling` is set when a pointer is used and nothing is there.
`g_client_id` is a `long long`, and counts the connections. -/
structure Clients where
  now : Int := 0
  gClientId : Nat := 0
  status : EpollSocketStatus := .run
  clients : Int := 0
  eclients : StdMap Nat Ptr := []
  heap : Ptr → Option Client := fun _ => none
  armed : Ptr → Option Interest := fun _ => none
  accepted : List Nat := []
  closed : List Nat := []
  released : List Nat := []
  dangling : Bool := false

namespace Clients

/-! ## Operations -/

def deref (s : Clients) (p : Ptr) (f : Client → Clients) : Clients :=
  match s.heap p with
  | some ctx => f ctx
  | none => { s with dangling := true }

def modify (s : Clients) (p : Ptr) (f : Client → Client) : Clients :=
  s.deref p fun ctx => { s with heap := Function.update s.heap p (some (f ctx)) }

def setCtxStatus (s : Clients) (p : Ptr) (status : Nat) : Clients :=
  s.modify p fun ctx => { ctx with ctxStatus := status }

def updateInteractTime (s : Clients) (p : Ptr) : Clients :=
  s.modify p fun ctx => { ctx with lastInteractTime := s.now }

def arm (s : Clients) (p : Ptr) (interest : Interest) : Clients :=
  { s with armed := Function.update s.armed p (some interest) }

/-- `epoll_wait` reports a descriptor that is armed with `EPOLLONESHOT`. -/
def disarm (s : Clients) (p : Ptr) : Clients :=
  { s with armed := Function.update s.armed p none }

def createClient (s : Clients) (p : Ptr) : Clients :=
  let id := s.gClientId + 1
  { s with
    gClientId := id
    heap := Function.update s.heap p (some { id, lastInteractTime := s.now })
    accepted := s.accepted ++ [id] }

def addClient (s : Clients) (p : Ptr) (id : Nat) : Clients :=
  { s with
    clients := s.clients + 1
    eclients := StdMap.insert (fun a b => decide (a < b)) id p s.eclients }

def removeClient (s : Clients) (id : Nat) : Clients :=
  { s with clients := s.clients - 1, eclients := StdMap.erase s.eclients id }

/-- `if (_clients == 0 && _status == S_REJECT_CONN)`. -/
def stopIfEmpty (s : Clients) : Clients :=
  if s.clients = 0 ∧ s.status = .rejectConn then { s with status := .stop } else s

def closeAndRelease (s : Clients) (p : Ptr) : Clients :=
  s.deref p fun ctx =>
    let s := { s.disarm p with closed := s.closed ++ [ctx.id] }
    let s := (s.removeClient ctx.id).stopIfEmpty
    { s with heap := Function.update s.heap p none, released := s.released ++ [ctx.id] }

/-- `handle_accept_event` with the address that `new` returns. -/
def accept (s : Clients) (p : Ptr) (addOk : Bool) : Clients :=
  let s := (s.createClient p).addClient p (s.gClientId + 1)
  -- `EPOLL_CTL_ADD`
  if addOk then s.arm p .epollin else s.closeAndRelease p

/-- `multi_thread_handle_read_event` and `multi_thread_handle_write_event` up to
`add_task`. -/
def startTask (s : Clients) (p : Ptr) (func : TaskFunc) : Clients :=
  (s.setCtxStatus p func.ctxStatus).updateInteractTime p

def readFunc (s : Clients) (p : Ptr) (ret : ReadRet) : Clients :=
  match EpollSocket.readInterest ret with
  | none => s.closeAndRelease p
  | some interest => (s.setCtxStatus p CONTEXT_READ_OVER).arm p interest

def writeFunc (s : Clients) (p : Ptr) (ret : WriteRet) : Clients :=
  match EpollSocket.writeInterest s.status ret with
  | none => s.closeAndRelease p
  | some interest => (s.arm p interest).setCtxStatus p CONTEXT_WRITE_OVER

/-- `Task::run` with the codes that the handlers return, of which it uses one. -/
def runTask (s : Clients) (task : Task) (onReadable : ReadRet) (onWriteable : WriteRet) : Clients :=
  match task.func with
  | .readFunc => s.readFunc task.ctx onReadable
  | .writeFunc => s.writeFunc task.ctx onWriteable

def isIdle (s : Clients) (maxIdleSec : Int) (p : Ptr) : Bool :=
  match s.heap p with
  | some ctx =>
    ctx.lastInteractTime ≤ s.now - maxIdleSec ∧
      ctx.ctxStatus ≠ CONTEXT_READING ∧ ctx.ctxStatus ≠ CONTEXT_WRITING
  | none => false

/-- The first loop of `clear_idle_clients`. -/
def removeEvs (s : Clients) (maxIdleSec : Int) : List Ptr :=
  (s.eclients.map (·.2)).filter (s.isIdle maxIdleSec)

def clearIdleClients (s : Clients) (maxIdleSec : Int) : Clients :=
  if maxIdleSec ≤ 0 then s
  else
    let dangling := s.dangling || s.eclients.any fun e => (s.heap e.2).isNone
    (s.removeEvs maxIdleSec).foldl closeAndRelease { s with dangling }

/-! ## The invariant -/

def idAt (s : Clients) (p : Ptr) : Option Nat := (s.heap p).map (·.id)

def statusAt (s : Clients) (p : Ptr) : Option Nat := (s.heap p).map (·.ctxStatus)

def Live (s : Clients) (p : Ptr) : Prop := (s.heap p).isSome

/-- `CONTEXT_READING` or `CONTEXT_WRITING`, which are equal. -/
def Busy (s : Clients) (p : Ptr) : Prop := s.statusAt p = some CONTEXT_READING

def Armed (s : Clients) (p : Ptr) : Prop := (s.armed p).isSome

/-- Epoll or a task will come back to the context. -/
def Attended (s : Clients) (p : Ptr) : Prop := s.Armed p ∨ s.Busy p

instance (s : Clients) (p : Ptr) : Decidable (s.Live p) := inferInstanceAs (Decidable (_ = true))
instance (s : Clients) (p : Ptr) : Decidable (s.Busy p) := inferInstanceAs (Decidable (_ = _))
instance (s : Clients) (p : Ptr) : Decidable (s.Armed p) := inferInstanceAs (Decidable (_ = true))
instance (s : Clients) (p : Ptr) : Decidable (s.Attended p) := inferInstanceAs (Decidable (_ ∨ _))

structure Inv (s : Clients) : Prop where
  noDangling : s.dangling = false
  clients : s.clients = s.eclients.length
  keys : (StdMap.keys s.eclients).Nodup
  keyed : ∀ id p, (id, p) ∈ s.eclients ↔ s.idAt p = some id
  live : ∀ id, id ∈ StdMap.keys s.eclients ↔ id ∈ s.accepted ∧ id ∉ s.released
  accepted : s.accepted.Nodup
  fresh : ∀ id ∈ s.accepted, id ≤ s.gClientId
  released : s.released.Nodup
  known : ∀ id ∈ s.released, id ∈ s.accepted
  closed : s.closed = s.released
  armed : ∀ p, s.Armed p → s.Live p ∧ ¬ s.Busy p

theorem inv_init : Inv {} := by
  constructor <;> simp [StdMap.keys, idAt, Armed]

variable {s : Clients} {p : Ptr}

theorem live_iff : s.Live p ↔ ∃ ctx, s.heap p = some ctx := Option.isSome_iff_exists

theorem Busy.live (h : s.Busy p) : s.Live p := by
  obtain ⟨ctx, hctx, -⟩ := Option.map_eq_some_iff.mp h
  exact live_iff.mpr ⟨ctx, hctx⟩

theorem live_iff_idAt : s.Live p ↔ ∃ id, s.idAt p = some id := by
  rw [live_iff]
  constructor
  · rintro ⟨ctx, h⟩
    exact ⟨ctx.id, by rw [idAt, h, Option.map_some]⟩
  · rintro ⟨id, h⟩
    obtain ⟨ctx, hctx, -⟩ := Option.map_eq_some_iff.mp h
    exact ⟨ctx, hctx⟩

/-- No two contexts have one id. -/
theorem Inv.idAt_inj (h : s.Inv) (q : Ptr) (id : Nat) (hp : s.idAt p = some id)
    (hq : s.idAt q = some id) : p = q := by
  rw [← h.keyed] at hp hq
  have heq := List.inj_on_of_nodup_map h.keys hp hq rfl
  exact congrArg Prod.snd heq

theorem Inv.mem_keys (h : s.Inv) (id : Nat) (hp : s.idAt p = some id) :
    id ∈ StdMap.keys s.eclients :=
  List.mem_map_of_mem ((h.keyed id p).mpr hp)

/-! ## Single fields -/

section Modify

variable (hp : s.Live p)
include hp

theorem modify_eq (f : Client → Client) : ∃ ctx, s.heap p = some ctx ∧
    s.modify p f = { s with heap := Function.update s.heap p (some (f ctx)) } := by
  obtain ⟨ctx, hctx⟩ := live_iff.mp hp
  exact ⟨ctx, hctx, by simp [modify, deref, hctx]⟩

theorem idAt_modify (f : Client → Client) (hf : ∀ ctx, (f ctx).id = ctx.id) (q : Ptr) :
    (s.modify p f).idAt q = s.idAt q := by
  obtain ⟨ctx, hctx, heq⟩ := modify_eq hp f
  simp only [heq, idAt, Function.update_apply]
  split
  · rename_i hq
    rw [Option.map_some, hf, hq, hctx, Option.map_some]
  · rfl

theorem statusAt_modify (f : Client → Client) (st : Nat) (hf : ∀ ctx, (f ctx).ctxStatus = st)
    (q : Ptr) : (s.modify p f).statusAt q = if q = p then some st else s.statusAt q := by
  obtain ⟨ctx, hctx, heq⟩ := modify_eq hp f
  simp only [heq, statusAt, Function.update_apply]
  split
  · rw [Option.map_some, hf ctx]
  · rfl

theorem statusAt_modify_of_keep (f : Client → Client)
    (hf : ∀ ctx, (f ctx).ctxStatus = ctx.ctxStatus) (q : Ptr) :
    (s.modify p f).statusAt q = s.statusAt q := by
  obtain ⟨ctx, hctx, heq⟩ := modify_eq hp f
  simp only [heq, statusAt, Function.update_apply]
  split
  · rename_i hq
    rw [Option.map_some, hf, hq, hctx, Option.map_some]
  · rfl

theorem live_modify (f : Client → Client) (q : Ptr) : (s.modify p f).Live q ↔ s.Live q := by
  obtain ⟨ctx, hctx, heq⟩ := modify_eq hp f
  simp only [heq, Live, Function.update_apply]
  split
  · rename_i hq
    rw [hq]
    exact iff_of_true rfl hp
  · rfl

theorem armed_modify (f : Client → Client) (q : Ptr) : (s.modify p f).Armed q ↔ s.Armed q := by
  obtain ⟨ctx, hctx, heq⟩ := modify_eq hp f
  rw [heq, Armed, Armed]

/-- What a change of a context that keeps its id leaves to show. -/
theorem Inv.modify (h : s.Inv) (f : Client → Client) (hf : ∀ ctx, (f ctx).id = ctx.id)
    (hidle : ∀ q, s.Armed q → ¬ (s.modify p f).Busy q) : (s.modify p f).Inv := by
  have hid := idAt_modify hp f hf
  have hlive := live_modify hp f
  have harm := armed_modify hp f
  obtain ⟨ctx, hctx, heq⟩ := modify_eq hp f
  constructor
  · rw [heq]
    exact h.noDangling
  · rw [heq]
    exact h.clients
  · rw [heq]
    exact h.keys
  · intro id q
    rw [hid, ← h.keyed, heq]
  · rw [heq]
    exact h.live
  · rw [heq]
    exact h.accepted
  · rw [heq]
    exact h.fresh
  · rw [heq]
    exact h.released
  · rw [heq]
    exact h.known
  · rw [heq]
    exact h.closed
  · intro q hq
    rw [harm] at hq
    rw [hlive]
    exact ⟨(h.armed q hq).1, hidle q hq⟩

theorem busy_updateInteractTime (q : Ptr) : (s.updateInteractTime p).Busy q ↔ s.Busy q := by
  have hstatus := statusAt_modify_of_keep hp (fun ctx => { ctx with lastInteractTime := s.now })
    (fun _ => rfl) q
  rw [Busy, Busy, ← hstatus]
  rfl

theorem Inv.updateInteractTime (h : s.Inv) : (s.updateInteractTime p).Inv := by
  refine h.modify hp _ (fun _ => rfl) ?_
  intro q hq hbusy
  exact (h.armed q hq).2 ((busy_updateInteractTime hp q).mp hbusy)

theorem live_setCtxStatus (st : Nat) (q : Ptr) : (s.setCtxStatus p st).Live q ↔ s.Live q :=
  live_modify hp _ q

theorem armed_setCtxStatus (st : Nat) (q : Ptr) : (s.setCtxStatus p st).Armed q ↔ s.Armed q :=
  armed_modify hp _ q

theorem busy_setCtxStatus (st : Nat) (q : Ptr) : (s.setCtxStatus p st).Busy q ↔
    if q = p then st = CONTEXT_READING else s.Busy q := by
  rw [Busy, setCtxStatus, statusAt_modify hp _ st fun _ => rfl]
  split
  · exact Option.some_inj
  · rfl

theorem Inv.setCtxStatus (h : s.Inv) (st : Nat) (hst : st = CONTEXT_READING → ¬ s.Armed p) :
    (s.setCtxStatus p st).Inv := by
  refine h.modify hp _ (fun _ => rfl) ?_
  intro q hq
  change ¬ (s.setCtxStatus p st).Busy q
  rw [busy_setCtxStatus hp]
  split
  · rename_i hqp
    subst hqp
    exact fun hread => hst hread hq
  · exact (h.armed q hq).2

end Modify

/-! ## Epoll -/

theorem armed_arm (interest : Interest) (q : Ptr) :
    (s.arm p interest).Armed q ↔ q = p ∨ s.Armed q := by
  simp only [Armed, arm, Function.update_apply]
  split
  · rename_i hq
    exact iff_of_true rfl (Or.inl hq)
  · rename_i hq
    rw [or_iff_right hq]

theorem armed_disarm (q : Ptr) : (s.disarm p).Armed q ↔ s.Armed q ∧ q ≠ p := by
  simp only [Armed, disarm, Function.update_apply]
  split
  · rename_i hq
    simp [hq]
  · rename_i hq
    rw [and_iff_left hq]

theorem Inv.arm (h : s.Inv) (interest : Interest) (hp : s.Live p) (hbusy : ¬ s.Busy p) :
    (s.arm p interest).Inv := by
  refine { h with armed := ?_ }
  intro q hq
  rcases (armed_arm interest q).mp hq with rfl | hq
  · exact ⟨hp, hbusy⟩
  · exact h.armed q hq

theorem Inv.disarm (h : s.Inv) : (s.disarm p).Inv := by
  refine { h with armed := ?_ }
  intro q hq
  exact h.armed q ((armed_disarm q).mp hq).1

/-! ## `close_and_release` -/

theorem stopIfEmpty_eq : s.stopIfEmpty = { s with
    status := if s.clients = 0 ∧ s.status = .rejectConn then .stop else s.status } := by
  rw [stopIfEmpty]
  split <;> rfl

theorem Inv.stopIfEmpty (h : s.Inv) : s.stopIfEmpty.Inv := by
  rw [stopIfEmpty_eq]
  exact { h with }

theorem closeAndRelease_eq {ctx : Client} (hp : s.heap p = some ctx) :
    s.closeAndRelease p = { s with
      status := if s.clients - 1 = 0 ∧ s.status = .rejectConn then .stop else s.status
      clients := s.clients - 1
      eclients := StdMap.erase s.eclients ctx.id
      heap := Function.update s.heap p none
      armed := Function.update s.armed p none
      closed := s.closed ++ [ctx.id]
      released := s.released ++ [ctx.id] } := by
  simp only [closeAndRelease, deref, hp, stopIfEmpty_eq, removeClient, disarm]

section Close

variable (hp : s.Live p) (q : Ptr)
include hp

theorem live_closeAndRelease : (s.closeAndRelease p).Live q ↔ s.Live q ∧ q ≠ p := by
  obtain ⟨ctx, hctx⟩ := live_iff.mp hp
  simp only [closeAndRelease_eq hctx, Live, Function.update_apply]
  split
  · rename_i hq
    simp [hq]
  · rename_i hq
    rw [and_iff_left hq]

theorem busy_closeAndRelease : (s.closeAndRelease p).Busy q ↔ s.Busy q ∧ q ≠ p := by
  obtain ⟨ctx, hctx⟩ := live_iff.mp hp
  simp only [closeAndRelease_eq hctx, Busy, statusAt, Function.update_apply]
  split
  · rename_i hq
    simp [hq]
  · rename_i hq
    rw [and_iff_left hq]

theorem armed_closeAndRelease : (s.closeAndRelease p).Armed q ↔ s.Armed q ∧ q ≠ p := by
  obtain ⟨ctx, hctx⟩ := live_iff.mp hp
  simp only [closeAndRelease_eq hctx, Armed, Function.update_apply]
  split
  · rename_i hq
    simp [hq]
  · rename_i hq
    rw [and_iff_left hq]

theorem idAt_closeAndRelease (hq : q ≠ p) : (s.closeAndRelease p).idAt q = s.idAt q := by
  obtain ⟨ctx, hctx⟩ := live_iff.mp hp
  simp only [closeAndRelease_eq hctx, idAt, Function.update_of_ne hq]

omit hp q in
theorem released_closeAndRelease (id : Nat) (hid : s.idAt p = some id) :
    (s.closeAndRelease p).released = s.released ++ [id] := by
  obtain ⟨ctx, hctx, rfl⟩ := Option.map_eq_some_iff.mp hid
  rw [closeAndRelease_eq hctx]

omit q in
theorem Inv.closeAndRelease (h : s.Inv) : (s.closeAndRelease p).Inv := by
  have hlive := live_closeAndRelease hp
  have hbusy := busy_closeAndRelease hp
  have harmed := armed_closeAndRelease hp
  obtain ⟨ctx, hctx⟩ := live_iff.mp hp
  have hid : s.idAt p = some ctx.id := by rw [idAt, hctx, Option.map_some]
  have hkey := h.mem_keys ctx.id hid
  obtain ⟨hacc, hnotRel⟩ := (h.live ctx.id).mp hkey
  have heq := closeAndRelease_eq hctx
  constructor
  · rw [heq]
    exact h.noDangling
  · rw [heq]
    have hlen := StdMap.length_erase s.eclients ctx.id h.keys hkey
    have hcount := h.clients
    simp only
    omega
  · rw [heq]
    exact StdMap.nodup_keys_erase s.eclients ctx.id h.keys
  · intro id q
    simp only [heq, StdMap.mem_erase, h.keyed, idAt, Function.update_apply]
    split
    · rename_i hq
      subst hq
      simp only [hctx, Option.map_some, Option.some_inj]
      constructor
      · rintro ⟨rfl, hne⟩
        exact absurd rfl hne
      · intro hnone
        cases hnone
    · rename_i hq
      refine and_iff_left_of_imp fun hold => ?_
      rintro rfl
      exact hq (h.idAt_inj p ctx.id hold hid)
  · intro id
    simp only [heq, StdMap.mem_keys_erase, h.live, List.mem_append, List.mem_singleton, not_or,
      and_assoc]
  · rw [heq]
    exact h.accepted
  · rw [heq]
    exact h.fresh
  · simp only [heq, ← List.concat_eq_append]
    exact h.released.concat hnotRel
  · intro id hmem
    simp only [heq, List.mem_append, List.mem_singleton] at hmem ⊢
    rcases hmem with hmem | rfl
    · exact h.known id hmem
    · exact hacc
  · rw [heq]
    simp only [h.closed]
  · intro q hq
    obtain ⟨hq, hne⟩ := (harmed q).mp hq
    rw [hlive, hbusy]
    exact ⟨⟨(h.armed q hq).1, hne⟩, fun hb => (h.armed q hq).2 hb.1⟩

end Close

end Clients

end Ehttp
