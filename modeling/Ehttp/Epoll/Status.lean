import Mathlib.Logic.Function.Basic
import Ehttp.Lib.Transition

/-!
# `_status`, statement by statement

The thread of `start_epoll`, the threads of the pool in `close_and_release`, and
calls of `stop_epoll`, in any order.  A connection is accepted and added by the
event loop, and closed by the one thread that has it: a thread of the pool, or
the loop itself.

* `start_cases`, `close_cases`, .. `stop_cases`: what the steps do;
* `status_forward`: the status goes forward if each stop falls between `S_RUN`
  and `S_STOP`.
-/

namespace Ehttp

open Lib

/-- `EpollSocketStatus` with the state before the loop. -/
inductive ServerStatus
  | init | run | rejectConn | stop
  deriving DecidableEq, Repr

/-- `S_INIT = 0` to `S_STOP = 3`. -/
def ServerStatus.value : ServerStatus → Nat
  | .init => 0
  | .run => 1
  | .rejectConn => 2
  | .stop => 3

/-- Where the thread of `start_epoll` is, if it is not in `close_and_release`. -/
inductive StartPc
  | initTp | listenOn | createEpoll | addListen
  /-- before `_status = S_RUN` -/
  | setRun
  | loopHead
  | epollWait
  /-- between two events -/
  | events
  /-- `_status` was `S_RUN`, `accept_socket` is next -/
  | accepting
  /-- the connection is accepted, `add_client` is next -/
  | adding (c : Nat)
  /-- `EPOLL_CTL_ADD` is next -/
  | added (c : Nat)
  /-- in `clear_idle_clients` -/
  | sweep
  | exitCheck
  /-- `_client_lock` is held, `_status = S_STOP` is next -/
  | exitStore
  | exited
  deriving DecidableEq, Repr

/-- `_status = S_RUN` is still to come. -/
def StartPc.early : StartPc → Bool
  | .initTp | .listenOn | .createEpoll | .addListen | .setRun => true
  | _ => false

/-- Where a thread is in `close_and_release`. -/
inductive ClosePc
  /-- `on_close` and `EPOLL_CTL_DEL` are done, `remove_client` is next -/
  | remove (c : Nat)
  | check (c : Nat)
  /-- `_status = S_STOP` is next -/
  | store (c : Nat)
  /-- `delete` and `close` are next -/
  | delete (c : Nat)
  deriving DecidableEq, Repr

def ClosePc.conn : ClosePc → Nat
  | .remove c | .check c | .store c | .delete c => c

/-- What has become of a connection. -/
inductive Conn
  | unknown
  /-- `accept_socket` has returned it -/
  | accepted
  /-- it is in the table -/
  | added
  | armed
  /-- `on_close` has been called -/
  | closed
  /-- it is out of the table -/
  | removed
  | released
  deriving DecidableEq, Repr

def Conn.inTable : Conn → Bool
  | .added | .armed | .closed => true
  | .unknown | .accepted | .removed | .released => false

/-- The server with `n` threads in its pool.  `closing none` is the thread of
`start_epoll`.  `drained` is set when a check has seen no client and
`S_REJECT_CONN`. -/
structure Lifecycle (n : Nat) where
  status : ServerStatus := .init
  poolExists : Bool := false
  start : StartPc := .initTp
  closing : Option (Fin n) → Option ClosePc := fun _ => none
  clients : Int := 0
  eclients : List Nat := []
  conn : Nat → Conn := fun _ => .unknown
  accepted : List Nat := []
  drained : Bool := false

namespace Lifecycle

variable {n : Nat}

/-- The statements of `start_epoll` outside `close_and_release`; `ok` is whether
a call succeeds. -/
inductive StartAction
  | setup (ok : Bool)
  | setRun
  | loop
  | epollWait (ok : Bool) | eintr
  | checkRun
  | acceptSocket (ok : Bool)
  | addClient
  | ctlAdd (ok : Bool)
  | endEvents | endSweep
  | exitCheck | exitStore
  deriving DecidableEq, Repr

inductive Action (n : Nat)
  | start (a : StartAction)
  /-- a thread that has an armed connection calls `close_and_release` -/
  | close (t : Option (Fin n)) (c : Nat)
  | remove (t : Option (Fin n)) | check (t : Option (Fin n)) | store (t : Option (Fin n))
  | delete (t : Option (Fin n))
  /-- `_status = S_REJECT_CONN` -/
  | stop
  deriving DecidableEq, Repr

def setConn (s : Lifecycle n) (c : Nat) (conn : Conn) : Lifecycle n :=
  { s with conn := Function.update s.conn c conn }

def setClosing (s : Lifecycle n) (t : Option (Fin n)) (pc : Option ClosePc) : Lifecycle n :=
  { s with closing := Function.update s.closing t pc }

/-- `_clients == 0 && _status == S_REJECT_CONN`. -/
def isDrained (s : Lifecycle n) : Bool := s.clients = 0 ∧ s.status = .rejectConn

/-- `on_close` and `EPOLL_CTL_DEL`. -/
def beginClose (s : Lifecycle n) (t : Option (Fin n)) (c : Nat) : Lifecycle n :=
  (s.setConn c .closed).setClosing t (some (.remove c))

def startStep (s : Lifecycle n) (a : StartAction) : Option (Lifecycle n) :=
  match s.start, a with
  | .initTp, .setup ok =>
    some { s with poolExists := true, start := if ok then .listenOn else .exited }
  | .listenOn, .setup ok => some { s with start := if ok then .createEpoll else .exited }
  | .createEpoll, .setup ok => some { s with start := if ok then .addListen else .exited }
  | .addListen, .setup ok => some { s with start := if ok then .setRun else .exited }
  | .setRun, .setRun => some { s with status := .run, start := .loopHead }
  | .loopHead, .loop => some { s with start := if s.status = .stop then .exited else .epollWait }
  | .epollWait, .epollWait ok => some { s with start := if ok then .events else .exited }
  | .epollWait, .eintr => some { s with start := .loopHead }
  | .events, .checkRun => some { s with start := if s.status = .run then .accepting else .events }
  | .accepting, .acceptSocket true =>
    let c := s.accepted.length + 1
    some { s.setConn c .accepted with accepted := s.accepted ++ [c], start := .adding c }
  | .accepting, .acceptSocket false => some { s with start := .events }
  | .adding c, .addClient =>
    some { s.setConn c .added with
      clients := s.clients + 1
      eclients := s.eclients ++ [c]
      start := .added c }
  | .added c, .ctlAdd true => some { s.setConn c .armed with start := .events }
  | .added c, .ctlAdd false => some { s.beginClose none c with start := .events }
  | .events, .endEvents => some { s with start := .sweep }
  | .sweep, .endSweep => some { s with start := .exitCheck }
  | .exitCheck, .exitCheck =>
    if s.isDrained then some { s with start := .exitStore, drained := true }
    else some { s with start := .loopHead }
  | .exitStore, .exitStore => some { s with status := .stop, start := .loopHead }
  | _, _ => none

/-- The loop closes connections between two events, when a task is refused, and
in `clear_idle_clients`. -/
def mayClose (s : Lifecycle n) : Option (Fin n) → Bool
  | none => s.start = .events ∨ s.start = .sweep
  | some _ => true

def step (s : Lifecycle n) : Action n → Option (Lifecycle n)
  | .start a => if s.closing none = none then s.startStep a else none
  | .close t c =>
    if s.closing t = none ∧ s.conn c = .armed ∧ s.mayClose t then some (s.beginClose t c) else none
  | .remove t =>
    match s.closing t with
    | some (.remove c) =>
      -- `_client_lock`
      if s.start = .exitStore then none
      else
        some { (s.setConn c .removed).setClosing t (some (.check c)) with
          clients := s.clients - 1
          eclients := s.eclients.erase c }
    | _ => none
  | .check t =>
    match s.closing t with
    | some (.check c) =>
      if s.isDrained then some { s.setClosing t (some (.store c)) with drained := true }
      else some (s.setClosing t (some (.delete c)))
    | _ => none
  | .store t =>
    match s.closing t with
    | some (.store c) => some { s.setClosing t (some (.delete c)) with status := .stop }
    | _ => none
  | .delete t =>
    match s.closing t with
    | some (.delete c) => some ((s.setConn c .released).setClosing t none)
    | _ => none
  | .stop => if s.poolExists then some { s with status := .rejectConn } else none

variable {s s' : Lifecycle n}

/-! ## What the steps do -/

theorem start_cases (a : StartAction) (h : step s (.start a) = some s') :
    s.closing none = none ∧ s.startStep a = some s' := Option.ite_none_right_eq_some.mp h

theorem close_cases (t : Option (Fin n)) (c : Nat) (h : step s (.close t c) = some s') :
    s.closing t = none ∧ s.conn c = .armed ∧ s.mayClose t ∧ s' = s.beginClose t c := by
  obtain ⟨⟨hidle, harmed, hmay⟩, h⟩ := Option.ite_none_right_eq_some.mp h
  exact ⟨hidle, harmed, hmay, (Option.some.inj h).symm⟩

theorem remove_cases (t : Option (Fin n)) (h : step s (.remove t) = some s') :
    ∃ c, s.closing t = some (.remove c) ∧ s.start ≠ .exitStore ∧
      s' = { (s.setConn c .removed).setClosing t (some (.check c)) with
        clients := s.clients - 1
        eclients := s.eclients.erase c } := by
  rw [step] at h
  split at h
  · rename_i c ht
    obtain ⟨hlock, h⟩ := Option.ite_none_left_eq_some.mp h
    exact ⟨c, ht, hlock, (Option.some.inj h).symm⟩
  · cases h

theorem check_cases (t : Option (Fin n)) (h : step s (.check t) = some s') :
    ∃ c, s.closing t = some (.check c) ∧
      ((s.isDrained ∧ s' = { s.setClosing t (some (.store c)) with drained := true }) ∨
        (¬ s.isDrained ∧ s' = s.setClosing t (some (.delete c)))) := by
  rw [step] at h
  split at h
  · rename_i c ht
    refine ⟨c, ht, ?_⟩
    split at h
    · rename_i hd
      exact Or.inl ⟨hd, (Option.some.inj h).symm⟩
    · rename_i hd
      exact Or.inr ⟨hd, (Option.some.inj h).symm⟩
  · cases h

theorem store_cases (t : Option (Fin n)) (h : step s (.store t) = some s') :
    ∃ c, s.closing t = some (.store c) ∧
      s' = { s.setClosing t (some (.delete c)) with status := .stop } := by
  rw [step] at h
  split at h
  · rename_i c ht
    exact ⟨c, ht, (Option.some.inj h).symm⟩
  · cases h

theorem delete_cases (t : Option (Fin n)) (h : step s (.delete t) = some s') :
    ∃ c, s.closing t = some (.delete c) ∧
      s' = (s.setConn c .released).setClosing t none := by
  rw [step] at h
  split at h
  · rename_i c ht
    exact ⟨c, ht, (Option.some.inj h).symm⟩
  · cases h

theorem stop_cases (h : step s .stop = some s') :
    s.poolExists ∧ s' = { s with status := .rejectConn } := by
  obtain ⟨hpool, h⟩ := Option.ite_none_right_eq_some.mp h
  exact ⟨hpool, (Option.some.inj h).symm⟩

/-! ## The order of the status -/

/-- The state while nothing runs but the start. -/
structure Early (s : Lifecycle n) : Prop where
  status : s.status = .init
  closing : ∀ t, s.closing t = none
  conn : ∀ c, s.conn c = .unknown

/-- A stop falls behind `_status = S_RUN`, or behind a start that has failed, and
before `S_STOP`. -/
def Timely (s : Lifecycle n) : Action n → Prop
  | .stop => s.start.early = false ∧ s.status ≠ .stop
  | _ => True

theorem ServerStatus.value_le (status : ServerStatus) : status.value ≤ ServerStatus.stop.value := by
  cases status <;> decide

theorem early_startStep (a : StartAction) (h : s.startStep a = some s')
    (hearly : s.start.early → s.Early) :
    s.status.value ≤ s'.status.value ∧ (s'.start.early → s'.Early) := by
  unfold startStep at h
  split at h
  case h_1 | h_2 | h_3 | h_4 =>
    rename_i hpc
    have he := hearly (by rw [hpc]; rfl)
    obtain rfl := Option.some.inj h
    exact ⟨Nat.le_refl _, fun _ => ⟨he.status, he.closing, he.conn⟩⟩
  case h_5 =>
    rename_i hpc
    have he := hearly (by rw [hpc]; rfl)
    obtain rfl := Option.some.inj h
    refine ⟨?_, fun hf => Bool.noConfusion hf⟩
    simp [he.status, ServerStatus.value]
  case h_6 | h_7 | h_9 =>
    obtain rfl := Option.some.inj h
    refine ⟨Nat.le_refl _, fun hf => ?_⟩
    simp only at hf
    split at hf <;> cases hf
  case h_17 =>
    split at h
    · obtain rfl := Option.some.inj h
      exact ⟨Nat.le_refl _, fun hf => Bool.noConfusion hf⟩
    · obtain rfl := Option.some.inj h
      exact ⟨Nat.le_refl _, fun hf => Bool.noConfusion hf⟩
  case h_18 =>
    obtain rfl := Option.some.inj h
    exact ⟨ServerStatus.value_le _, fun hf => Bool.noConfusion hf⟩
  case h_19 => cases h
  all_goals
    obtain rfl := Option.some.inj h
    exact ⟨Nat.le_refl _, fun hf => Bool.noConfusion hf⟩

theorem early_step (s : Lifecycle n) (a : Action n) (s' : Lifecycle n)
    (hearly : s.start.early → s.Early) (htimely : s.Timely a) (hc : step s a = some s') :
    s.status.value ≤ s'.status.value ∧ (s'.start.early → s'.Early) := by
  have hidle : ∀ t pc, s.closing t = some pc → s.start.early = false := by
    intro t pc ht
    cases hpc : s.start.early with
    | false => rfl
    | true =>
      rw [(hearly hpc).closing] at ht
      cases ht
  cases a with
  | start a => exact early_startStep a (start_cases a hc).2 hearly
  | close t c =>
    obtain ⟨-, harmed, -, rfl⟩ := close_cases t c hc
    refine ⟨Nat.le_refl _, fun hf => ?_⟩
    rw [(hearly hf).conn] at harmed
    cases harmed
  | remove t =>
    obtain ⟨c, ht, -, rfl⟩ := remove_cases t hc
    exact ⟨Nat.le_refl _, fun hf => Bool.noConfusion ((hidle t _ ht).symm.trans hf)⟩
  | check t =>
    obtain ⟨c, ht, ⟨-, rfl⟩ | ⟨-, rfl⟩⟩ := check_cases t hc
    · exact ⟨Nat.le_refl _, fun hf => Bool.noConfusion ((hidle t _ ht).symm.trans hf)⟩
    · exact ⟨Nat.le_refl _, fun hf => Bool.noConfusion ((hidle t _ ht).symm.trans hf)⟩
  | store t =>
    obtain ⟨c, ht, rfl⟩ := store_cases t hc
    exact ⟨ServerStatus.value_le _, fun hf => Bool.noConfusion ((hidle t _ ht).symm.trans hf)⟩
  | delete t =>
    obtain ⟨c, ht, rfl⟩ := delete_cases t hc
    exact ⟨Nat.le_refl _, fun hf => Bool.noConfusion ((hidle t _ ht).symm.trans hf)⟩
  | stop =>
    obtain ⟨-, rfl⟩ := stop_cases hc
    refine ⟨?_, fun hf => Bool.noConfusion (htimely.1.symm.trans hf)⟩
    cases hstatus : s.status with
    | stop => exact absurd hstatus htimely.2
    | init | run | rejectConn => simp [ServerStatus.value]

/-- The pool exists from the start if it has been set by `set_thread_pool`. -/
def initial (poolExists : Bool) : Lifecycle n := { poolExists }

/-- **The status goes forward**, and a stop is not lost, in a run whose stops are
timely. -/
theorem status_forward (userPool : Bool) (as : List (Action n))
    (h : Throughout step Timely (initial userPool) as) :
    Throughout step (fun s a => ∀ s', step s a = some s' → s.status.value ≤ s'.status.value)
      (initial userPool : Lifecycle n) as := by
  refine Throughout.of_invariant step (fun s => s.start.early → s.Early) Timely _ ?_ _ ?_ as h
  · intro s a s' hearly htimely hc
    obtain ⟨hle, hearly'⟩ := early_step s a s' hearly htimely hc
    refine ⟨fun t ht => ?_, hearly'⟩
    rw [hc] at ht
    obtain rfl := Option.some.inj ht
    exact hle
  · exact fun _ => ⟨rfl, fun _ => rfl, fun _ => rfl⟩

/-- The thread of a pool of one. -/
def worker : Fin 1 := Fin.last 0

/-- A start and one connection, up to the next event. -/
def oneConnection : List (Action 1) :=
  [.start (.setup true), .start (.setup true), .start (.setup true), .start (.setup true),
    .start .setRun, .start .loop, .start (.epollWait true), .start .checkRun,
    .start (.acceptSocket true), .start .addClient, .start (.ctlAdd true)]

/-- The connection is closed by a thread of the pool behind the stop. -/
def startAndStop : List (Action 1) :=
  oneConnection ++ [.stop, .close (some worker) 1, .remove (some worker), .check (some worker),
    .store (some worker), .delete (some worker), .start .endEvents, .start .endSweep,
    .start .exitCheck, .start .loop]

instance (s : Lifecycle n) (a : Action n) : Decidable (s.Timely a) :=
  match a with
  | .stop => inferInstanceAs (Decidable (s.start.early = false ∧ s.status ≠ .stop))
  | .start _ | .close _ _ | .remove _ | .check _ | .store _ | .delete _ => isTrue trivial

theorem status_forward_once : Throughout step
    (fun s a => ∀ s', step s a = some s' → s.status.value ≤ s'.status.value)
    (initial false) startAndStop :=
  status_forward false startAndStop (by decide +kernel)

/-- A stop before `_status = S_RUN` is overwritten, and one behind `S_STOP`
overwrites that. -/
theorem stop_overwritten :
    (∃ s s' : Lifecycle 1,
      ([.start (.setup true), .stop, .start (.setup true), .start (.setup true),
        .start (.setup true)] : List (Action 1)).foldlM step (initial false) = some s ∧
      step s (.start .setRun) = some s' ∧ s.status = .rejectConn ∧ s'.status = .run) ∧
    ∃ s s' : Lifecycle 1, startAndStop.foldlM step (initial false) = some s ∧
      step s .stop = some s' ∧ s.status = .stop ∧ s'.status = .rejectConn :=
  ⟨⟨_, _, rfl, rfl, rfl, rfl⟩, _, _, rfl, rfl, rfl, rfl⟩

end Lifecycle

end Ehttp
