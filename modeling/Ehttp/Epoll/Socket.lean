import Mathlib.Logic.Function.Basic
import Ehttp.Parse.Driver
import Ehttp.Writer

/-!
# `epoll_socket.cpp`: the event loop, its workers and the client table

The steps are the actions the threads take one after the other; the scheduler,
the network and the clock choose among those that are possible.  A context is
named by its `_id`, which `create_client` never gives twice.  What the
handlers do to their own connection is not part of the state: they return any
of their codes.
-/

namespace Ehttp

/-! ## State -/

/-- `EPOLLIN | EPOLLONESHOT` and `EPOLLOUT | EPOLLONESHOT`. -/
inductive Interest
  | epollin | epollout
  deriving DecidableEq, Repr

/-- The members of `EpollContext` that are shared. -/
structure EpollContext where
  lastInteractTime : Int := 0
  ctxStatus : Nat := 0
  deriving DecidableEq, Repr

def CONTEXT_READING : Nat := 1
def CONTEXT_READ_OVER : Nat := 2
def CONTEXT_WRITING : Nat := 1
def CONTEXT_WRITE_OVER : Nat := 2

inductive EpollSocketStatus
  | run | rejectConn | stop
  deriving DecidableEq, Repr

/-- The function of a `Task`. -/
inductive TaskFunc
  | readFunc | writeFunc
  deriving DecidableEq, Repr

structure Task where
  func : TaskFunc
  ctx : Nat
  deriving DecidableEq, Repr

/-- An entry of `events`: a listen socket, or a context with the interest that
is reported, if the event has one of the two. -/
inductive Ready
  | listen
  | client (ctx : Nat) (events : Option Interest)
  deriving DecidableEq, Repr

/-- Where the thread of `start_event_loop` is.  `evs` are the events that
`handle_event` has not been called for yet. -/
inductive MainPc
  | wait
  | events (evs : List Ready)
  /-- `add_client` and `on_accept` are done, `EPOLL_CTL_ADD` is next -/
  | accepted (ctx : Nat) (evs : List Ready)
  /-- `_ctx_status` is set, `update_interact_time` is next -/
  | marked (ctx : Nat) (func : TaskFunc) (evs : List Ready)
  /-- `add_task` is next -/
  | stamped (ctx : Nat) (func : TaskFunc) (evs : List Ready)
  /-- the second loop of `clear_idle_clients` -/
  | sweep (removeEvs : List Nat)
  /-- behind the loop -/
  | exited
  deriving DecidableEq, Repr

/-- The context the thread is at. -/
def MainPc.ctx : MainPc → Option Nat
  | .events (.client c _ :: _) | .accepted c _ | .marked c _ _ | .stamped c _ _
  | .sweep (c :: _) => some c
  | _ => none

/-- Where a thread of the pool is. -/
inductive WorkerPc
  | idle
  /-- in `handle_readable_event`, before `on_readable` returns -/
  | reading (ctx : Nat)
  /-- in `BuildInGetClientHandler::action`, called from `on_readable` -/
  | listing (ctx : Nat) (eclients : List Nat)
  /-- `on_readable` has returned -/
  | readDone (ctx : Nat) (ret : ReadRet)
  /-- `_ctx_status` is set, `EPOLL_CTL_MOD` is next -/
  | readStored (ctx : Nat) (events : Interest)
  /-- in `handle_writeable_event`, before `on_writeable` returns -/
  | writing (ctx : Nat)
  /-- `on_writeable` has returned -/
  | writeDone (ctx : Nat) (ret : WriteRet)
  /-- back in `write_func`, behind `EPOLL_CTL_MOD` -/
  | written (ctx : Nat)
  deriving DecidableEq, Repr

/-- The context of the task a thread is at. -/
def WorkerPc.ctx : WorkerPc → Option Nat
  | .reading c | .listing c _ | .readDone c _ | .readStored c _
  | .writing c | .writeDone c _ | .written c => some c
  | .idle => none

/-- The contexts that `/_clients` has copied and not read. -/
def WorkerPc.unread : WorkerPc → List Nat
  | .listing _ eclients => eclients
  | _ => []

/-- Where `Task::run` begins. -/
def Task.start : Task → WorkerPc
  | ⟨.readFunc, c⟩ => .reading c
  | ⟨.writeFunc, c⟩ => .writing c

/-- `set_client_max_idle_time`, `set_task_size_limit`. -/
structure EpollConfig where
  maxIdleSec : Int := 0
  taskSizeLimit : Int := -1
  deriving DecidableEq, Repr

/-- The server with a pool of `n` threads.  `armed` is the interest list of epoll,
`released` the contexts that `close_and_release` has deleted, `poolStopped` that
`_pool_state` is `STOPPED`. -/
structure EpollSocket (n : Nat) where
  now : Int := 0
  gClientId : Nat := 0
  status : EpollSocketStatus := .run
  poolStopped : Bool := false
  clients : Int := 0
  eclients : List Nat := []
  context : Nat → EpollContext := fun _ => {}
  armed : Nat → Option Interest := fun _ => none
  tasks : List Task := []
  main : MainPc := .wait
  workers : Fin n → WorkerPc := fun _ => .idle
  released : List Nat := []

namespace EpollSocket

variable {n : Nat}

/-! ## Actions of the main loop -/

/-- `epoll_wait` reports armed contexts only, and disarms them. -/
def deliver : List Ready → (Nat → Option Interest) → Option (Nat → Option Interest)
  | [], armed => some armed
  | .listen :: evs, armed => deliver evs armed
  | .client c events :: evs, armed =>
    match armed c with
    | none => none
    | some interest =>
      if events = none ∨ events = some interest then deliver evs (Function.update armed c none)
      else none

/-- `close_and_release`. -/
def closeAndRelease (s : EpollSocket n) (c : Nat) : EpollSocket n :=
  let clients := s.clients - 1
  { s with
    armed := Function.update s.armed c none
    clients
    eclients := s.eclients.erase c
    status := if clients = 0 ∧ s.status = .rejectConn then .stop else s.status
    released := c :: s.released }

def setCtxStatus (s : EpollSocket n) (c status : Nat) : EpollSocket n :=
  { s with context := Function.update s.context c { s.context c with ctxStatus := status } }

def updateInteractTime (s : EpollSocket n) (c : Nat) : EpollSocket n :=
  { s with context := Function.update s.context c { s.context c with lastInteractTime := s.now } }

/-- The condition under which `clear_idle_clients` collects a context. -/
def isIdle (cfg : EpollConfig) (s : EpollSocket n) (c : Nat) : Bool :=
  (s.context c).lastInteractTime ≤ s.now - cfg.maxIdleSec ∧
    (s.context c).ctxStatus ≠ CONTEXT_READING ∧ (s.context c).ctxStatus ≠ CONTEXT_WRITING

/-- The first loop of `clear_idle_clients`. -/
def removeEvs (cfg : EpollConfig) (s : EpollSocket n) : List Nat :=
  if cfg.maxIdleSec ≤ 0 then [] else s.eclients.filter (s.isIdle cfg)

def taskLimitReached (cfg : EpollConfig) (s : EpollSocket n) : Bool :=
  cfg.taskSizeLimit > 0 ∧ (s.tasks.length : Int) > cfg.taskSizeLimit

def addTask (cfg : EpollConfig) (s : EpollSocket n) (task : Task) : Option (EpollSocket n) :=
  if s.taskLimitReached cfg then none else some { s with tasks := s.tasks ++ [task] }

inductive MainAction
  | poll (evs : List Ready) | pollFail (eintr : Bool)
  | accept | add (ok : Bool)
  | mark | stamp | enqueue
  | skip
  | collect | remove | endSweep
  deriving DecidableEq, Repr

/-- `while (_status != S_STOP)`. -/
def loopHead (status : EpollSocketStatus) : MainPc := if status = .stop then .exited else .wait

/-- One action of `start_event_loop`.  `skip` is an event that `handle_event`
does nothing for: an unknown one, or one of a listen socket that is not
accepted. -/
def mainStep (cfg : EpollConfig) (s : EpollSocket n) : MainAction → Option (EpollSocket n)
  | .poll evs =>
    match s.main with
    | .wait => (deliver evs s.armed).map fun armed => { s with armed, main := .events evs }
    | _ => none
  | .pollFail eintr =>
    match s.main with
    | .wait => some { s with main := if eintr then loopHead s.status else .exited }
    | _ => none
  | .accept =>
    match s.main with
    | .events (.listen :: evs) =>
      if s.status = .run then
        let c := s.gClientId + 1
        some { s with
          gClientId := c
          context := Function.update s.context c { lastInteractTime := s.now }
          clients := s.clients + 1
          eclients := s.eclients ++ [c]
          main := .accepted c evs }
      else none
    | _ => none
  | .add ok =>
    match s.main with
    | .accepted c evs =>
      if ok then
        some { s with armed := Function.update s.armed c (some .epollin), main := .events evs }
      else some { s.closeAndRelease c with main := .events evs }
    | _ => none
  | .mark =>
    match s.main with
    | .events (.client c (some .epollin) :: evs) =>
      some { s.setCtxStatus c CONTEXT_READING with main := .marked c .readFunc evs }
    | .events (.client c (some .epollout) :: evs) =>
      some { s.setCtxStatus c CONTEXT_WRITING with main := .marked c .writeFunc evs }
    | _ => none
  | .stamp =>
    match s.main with
    | .marked c func evs => some { s.updateInteractTime c with main := .stamped c func evs }
    | _ => none
  | .enqueue =>
    match s.main with
    | .stamped c func evs =>
      match s.addTask cfg ⟨func, c⟩ with
      | some s => some { s with main := .events evs }
      | none => some { s.closeAndRelease c with main := .events evs }
    | _ => none
  | .skip =>
    match s.main with
    | .events (.listen :: evs) => some { s with main := .events evs }
    | .events (.client _ none :: evs) => some { s with main := .events evs }
    | _ => none
  | .collect =>
    match s.main with
    | .events [] => some { s with main := .sweep (s.removeEvs cfg) }
    | _ => none
  | .remove =>
    match s.main with
    | .sweep (c :: evs) => some { s.closeAndRelease c with main := .sweep evs }
    | _ => none
  | .endSweep =>
    match s.main with
    | .sweep [] =>
      let status := if s.clients = 0 ∧ s.status = .rejectConn then .stop else s.status
      some { s with status, main := loopHead status }
    | _ => none

/-! ## Actions of the workers -/

inductive WorkerAction
  | take
  | onReadable (ret : ReadRet) | getClients | look | endList
  | onWriteable (ret : WriteRet)
  | close | store | rearm
  deriving DecidableEq, Repr

def setWorker (s : EpollSocket n) (w : Fin n) (pc : WorkerPc) : EpollSocket n :=
  { s with workers := Function.update s.workers w pc }

def arm (s : EpollSocket n) (c : Nat) (interest : Interest) : EpollSocket n :=
  { s with armed := Function.update s.armed c (some interest) }

/-- What `handle_readable_event` arms for. -/
def readInterest : ReadRet → Option Interest
  | .readContinue => some .epollin
  | .readOver => some .epollout
  | .readClose => none
  | .thrown => none

/-- What `handle_writeable_event` arms for; `none` closes the connection. -/
def writeInterest (status : EpollSocketStatus) : WriteRet → Option Interest
  | .connContinue => some .epollout
  | .connAlive => if status = .rejectConn then none else some .epollin
  | .connClose => none

/-- One action of `execute_thread`. -/
def workerStep (s : EpollSocket n) (w : Fin n) (a : WorkerAction) :
    Option (EpollSocket n) :=
  match a with
  | .take =>
    match s.workers w, s.tasks with
    | .idle, task :: tasks =>
      if s.poolStopped then none else some ({ s with tasks }.setWorker w task.start)
    | _, _ => none
  | .onReadable ret =>
    match s.workers w with
    | .reading c => if ret = .thrown then none else some (s.setWorker w (.readDone c ret))
    | _ => none
  | .getClients =>
    match s.workers w with
    | .reading c => some (s.setWorker w (.listing c s.eclients))
    | _ => none
  | .look =>
    match s.workers w with
    | .listing c (_ :: eclients) => some (s.setWorker w (.listing c eclients))
    | _ => none
  | .endList =>
    match s.workers w with
    | .listing c [] => some (s.setWorker w (.readDone c .readOver))
    | _ => none
  | .onWriteable ret =>
    match s.workers w with
    | .writing c => some (s.setWorker w (.writeDone c ret))
    | _ => none
  | .close =>
    match s.workers w with
    | .readDone c ret =>
      if readInterest ret = none then some ((s.closeAndRelease c).setWorker w .idle) else none
    | .writeDone c ret =>
      if writeInterest s.status ret = none then some ((s.closeAndRelease c).setWorker w .idle)
      else none
    | _ => none
  | .store =>
    match s.workers w with
    | .readDone c ret =>
      (readInterest ret).map fun interest =>
        (s.setCtxStatus c CONTEXT_READ_OVER).setWorker w (.readStored c interest)
    | .written c => some ((s.setCtxStatus c CONTEXT_WRITE_OVER).setWorker w .idle)
    | _ => none
  | .rearm =>
    match s.workers w with
    | .readStored c interest => some ((s.arm c interest).setWorker w .idle)
    | .writeDone c ret =>
      (writeInterest s.status ret).map fun interest =>
        (s.arm c interest).setWorker w (.written c)
    | _ => none

/-- `tick` is the clock, `stop` and `destroy` the two statements of
`stop_epoll`. -/
inductive Action (n : Nat)
  | main (a : MainAction)
  | worker (w : Fin n) (a : WorkerAction)
  | tick
  | stop | destroy
  deriving DecidableEq, Repr

def step (cfg : EpollConfig) (s : EpollSocket n) : Action n → Option (EpollSocket n)
  | .main a => s.mainStep cfg a
  | .worker w a => s.workerStep w a
  | .tick => some { s with now := s.now + 1 }
  | .stop => some { s with status := .rejectConn }
  | .destroy => if s.status = .run then none else some { s with poolStopped := true }

/-! ## What an action does to contexts -/

def mainTouches (cfg : EpollConfig) (s : EpollSocket n) : MainAction → List Nat
  | .add _ | .mark | .stamp | .remove => s.main.ctx.toList
  | .enqueue => if s.taskLimitReached cfg then s.main.ctx.toList else []
  | .collect => if cfg.maxIdleSec ≤ 0 then [] else s.eclients
  | .poll _ | .pollFail _ | .accept | .skip | .endSweep => []

def workerTouches (s : EpollSocket n) (w : Fin n) : WorkerAction → List Nat
  | .look => (s.workers w).unread.take 1
  | _ => (s.workers w).ctx.toList

/-- The contexts that an action, when it is possible, reads, writes, arms or
closes. -/
def touches (cfg : EpollConfig) (s : EpollSocket n) : Action n → List Nat
  | .main a => s.mainTouches cfg a
  | .worker w a => s.workerTouches w a
  | .tick | .stop | .destroy => []

/-- The context that an action, when it is possible, releases. -/
def releases (cfg : EpollConfig) (s : EpollSocket n) : Action n → Option Nat
  | .main (.add false) | .main .remove => s.main.ctx
  | .main .enqueue => if s.taskLimitReached cfg then s.main.ctx else none
  | .worker w .close => (s.workers w).ctx
  | _ => none

end EpollSocket

end Ehttp
