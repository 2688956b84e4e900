import Ehttp.Epoll.Handlers
import Ehttp.Lib.Transition

/-!
# Dispatch, tasks and sweeps as single steps

The socket and the queue of its pool, where each event that is dispatched, each
task that is run, each sweep and each accept is one step.  The network chooses
the events and what the handlers return; an event has any mask that is not
empty, whatever was armed.

* `Inv`: the tasks are those of the busy contexts;
* `table_exact`: the client table is exact in every reachable state;
* `held_iff_known`: when no context is left to nobody.
-/

namespace Ehttp

open Lib

/-- The bits of `epoll_event::events`. -/
structure Mask where
  epollin : Bool := false
  epollout : Bool := false
  epollerr : Bool := false
  epollhup : Bool := false
  deriving DecidableEq, Repr

def Mask.any (m : Mask) : Bool := m.epollin || m.epollout || m.epollerr || m.epollhup

/-- `Task.ctx` is the address in `data.ptr` here. -/
structure Table where
  core : Clients := {}
  tasks : List Task := []
  poolStopped : Bool := false

namespace Table

/-- `addTask` behind `startTask`; a task that is refused closes its context. -/
def addTask (cfg : EpollConfig) (s : Table) (task : Task) : Table :=
  if cfg.taskSizeLimit > 0 ∧ (s.tasks.length : Int) > cfg.taskSizeLimit then
    { s with core := s.core.closeAndRelease task.ctx }
  else { s with tasks := s.tasks ++ [task] }

def multiThreadHandleReadEvent (cfg : EpollConfig) (s : Table) (p : Ptr) : Table :=
  { s with core := s.core.startTask p .readFunc }.addTask cfg ⟨.readFunc, p⟩

def multiThreadHandleWriteEvent (cfg : EpollConfig) (s : Table) (p : Ptr) : Table :=
  { s with core := s.core.startTask p .writeFunc }.addTask cfg ⟨.writeFunc, p⟩

/-- `handle_event` for the event of a context. -/
def handleEvent (cfg : EpollConfig) (s : Table) (p : Ptr) (events : Mask) : Table :=
  if events.epollin then s.multiThreadHandleReadEvent cfg p
  else if events.epollout then s.multiThreadHandleWriteEvent cfg p
  else s

/-- `destroy` is `destroy_threadpool`, behind the store of `stop`. -/
inductive Action
  | accept (p : Ptr) (addOk : Bool)
  | dispatch (p : Ptr) (events : Mask)
  | run (onReadable : ReadRet) (onWriteable : WriteRet)
  | sweep | check | tick
  | stop | destroy
  deriving DecidableEq, Repr

def step (cfg : EpollConfig) (s : Table) : Action → Option Table
  | .accept p addOk =>
    -- `new` returns an address that is free
    if s.core.status = .run ∧ ¬ s.core.Live p then some { s with core := s.core.accept p addOk }
    else none
  | .dispatch p events =>
    if s.core.Armed p ∧ events.any then
      some ({ s with core := s.core.disarm p }.handleEvent cfg p events)
    else none
  | .run onReadable onWriteable =>
    match s.tasks with
    | [] => none
    | task :: tasks =>
      -- an exception out of the handler ends the process
      if s.poolStopped ∨ onReadable = .thrown then none
      else some { s with tasks, core := s.core.runTask task onReadable onWriteable }
  | .sweep => some { s with core := s.core.clearIdleClients cfg.maxIdleSec }
  | .check => some { s with core := s.core.stopIfEmpty }
  | .tick => some { s with core := { s.core with now := s.core.now + 1 } }
  | .stop => some { s with core := { s.core with status := .rejectConn } }
  | .destroy => if s.core.status = .run then none else some { s with poolStopped := true }

/-! ## The invariant -/

structure Inv (s : Table) : Prop where
  core : s.core.Inv
  queued : ∀ p, p ∈ s.tasks.map Task.ctx ↔ s.core.Busy p
  nodup : (s.tasks.map Task.ctx).Nodup
  stopped : s.poolStopped = true → s.core.status ≠ .run

theorem inv_init : Inv {} := by
  constructor
  · exact Clients.inv_init
  · simp [Clients.Busy, Clients.statusAt]
  · exact List.nodup_nil
  · exact fun h => absurd h (by decide)

variable {cfg : EpollConfig} {s s' : Table} {p : Ptr}

/-- An event is passed on, or is not known. -/
theorem dispatch_cases (events : Mask) (hc : step cfg s (.dispatch p events) = some s') :
    s.core.Armed p ∧
      ((∃ func, (events.epollin ∨ events.epollout) ∧
        s' = addTask cfg { s with core := (s.core.disarm p).startTask p func } ⟨func, p⟩) ∨
      (¬ (events.epollin ∨ events.epollout) ∧ s' = { s with core := s.core.disarm p })) := by
  obtain ⟨⟨hp, -⟩, hc⟩ := Option.ite_none_right_eq_some.mp hc
  refine ⟨hp, ?_⟩
  rw [handleEvent] at hc
  split at hc
  · rename_i hin
    exact Or.inl ⟨.readFunc, Or.inl hin, (Option.some.inj hc).symm⟩
  · rename_i hin
    split at hc
    · rename_i hout
      exact Or.inl ⟨.writeFunc, Or.inr hout, (Option.some.inj hc).symm⟩
    · rename_i hout
      exact Or.inr ⟨not_or.mpr ⟨hin, hout⟩, (Option.some.inj hc).symm⟩

theorem run_cases (onReadable : ReadRet) (onWriteable : WriteRet)
    (hc : step cfg s (.run onReadable onWriteable) = some s') : ∃ task tasks events,
      s.tasks = task :: tasks ∧
        s' = { s with tasks, core := s.core.finish task.ctx events } := by
  rw [step] at hc
  split at hc
  · cases hc
  · rename_i task tasks htasks
    obtain ⟨-, hc⟩ := Option.ite_none_left_eq_some.mp hc
    obtain ⟨events, heq⟩ := s.core.runTask_eq task onReadable onWriteable
    exact ⟨task, tasks, events, htasks, by rw [← heq]; exact (Option.some.inj hc).symm⟩

theorem Inv.core_step (h : s.Inv) (core : Clients) (hc : s.core.Passive core) :
    Inv { s with core } where
  core := hc.inv
  queued q := (h.queued q).trans (hc.busy q).symm
  nodup := h.nodup
  stopped hstop := mt hc.run (h.stopped hstop)

theorem Inv.addTask (h : s.Inv) (hp : s.core.Armed p) (func : TaskFunc) :
    (Table.addTask cfg { s with core := (s.core.disarm p).startTask p func } ⟨func, p⟩).Inv := by
  have hd := h.core.dispatch hp func
  rw [Table.addTask]
  split
  · exact h.core_step _ (h.core.passive_refuse hp func)
  · constructor
    · exact hd.inv
    · intro q
      simp only [List.map_append, List.map_cons, List.map_nil, List.mem_append, List.mem_singleton,
        hd.busy, h.queued, or_comm]
    · have hnot : p ∉ s.tasks.map Task.ctx := fun hmem =>
        (h.core.armed p hp).2 ((h.queued p).mp hmem)
      have hconcat := h.nodup.concat hnot
      rw [List.concat_eq_append] at hconcat
      simp only [List.map_append]
      exact hconcat
    · intro hstop
      simp only [hd.status]
      exact h.stopped hstop

theorem attended_addTask (cfg : EpollConfig) (h : s.Inv) (hp : s.core.Armed p) (func : TaskFunc)
    (hatt : ∀ q, s.core.Live q → s.core.Attended q) (q : Ptr)
    (hq : (Table.addTask cfg { s with core := (s.core.disarm p).startTask p func }
      ⟨func, p⟩).core.Live q) :
    (Table.addTask cfg { s with core := (s.core.disarm p).startTask p func }
      ⟨func, p⟩).core.Attended q := by
  have hd := h.core.dispatch hp func
  have hlive := (hd.live p).mpr (h.core.armed p hp).1
  have hstart : ∀ q, ((s.core.disarm p).startTask p func).Live q →
      ((s.core.disarm p).startTask p func).Attended q := by
    intro q hq
    rw [Clients.Attended, hd.armed, hd.busy]
    by_cases hqp : q = p
    · exact Or.inr (Or.inl hqp)
    · have hold := hatt q ((hd.live q).mp hq)
      exact hold.imp (fun harm => ⟨harm, hqp⟩) Or.inr
  rw [Table.addTask] at hq ⊢
  split at hq
  · rename_i hfull
    rw [if_pos hfull]
    obtain ⟨hq, hne⟩ := (Clients.live_closeAndRelease hlive q).mp hq
    exact (hstart q hq).imp (fun harm => (Clients.armed_closeAndRelease hlive q).mpr ⟨harm, hne⟩)
      fun hbusy => (Clients.busy_closeAndRelease hlive q).mpr ⟨hbusy, hne⟩
  · rename_i hroom
    rw [if_neg hroom]
    exact hstart q hq

theorem Inv.runTask (h : s.Inv) (task : Task) (tasks : List Task) (htasks : s.tasks = task :: tasks)
    (events : Option Interest) :
    Inv { s with tasks, core := s.core.finish task.ctx events } := by
  have hqueued := h.queued
  have hnodup := h.nodup
  simp only [htasks, List.map_cons, List.mem_cons] at hqueued
  rw [htasks, List.map_cons, List.nodup_cons] at hnodup
  have hlive : s.core.Live task.ctx := Clients.Busy.live ((hqueued _).mp (Or.inl rfl))
  constructor
  · exact h.core.finish hlive events
  · intro q
    simp only [Clients.busy_finish hlive, ← hqueued]
    constructor
    · intro hq
      refine ⟨Or.inr hq, ?_⟩
      rintro rfl
      exact hnodup.1 hq
    · rintro ⟨rfl | hq, hne⟩
      · exact absurd rfl hne
      · exact hq
  · exact hnodup.2
  · exact fun hstop hrun => h.stopped hstop (Clients.run_of_finish events hrun)

theorem inv_step (s : Table) (a : Action) (s' : Table) (h : s.Inv) (hc : step cfg s a = some s') :
    s'.Inv := by
  cases a with
  | accept p addOk =>
    obtain ⟨⟨hrun, hp⟩, hc⟩ := Option.ite_none_right_eq_some.mp hc
    obtain rfl := Option.some.inj hc
    exact h.core_step _ (h.core.passive_accept hp hrun addOk)
  | dispatch p events =>
    obtain ⟨hp, ⟨func, -, rfl⟩ | ⟨-, rfl⟩⟩ := dispatch_cases events hc
    · exact h.addTask hp func
    · exact h.core_step _ h.core.passive_disarm
  | run onReadable onWriteable =>
    obtain ⟨task, tasks, events, htasks, rfl⟩ := run_cases onReadable onWriteable hc
    exact h.runTask task tasks htasks events
  | sweep =>
    obtain rfl := Option.some.inj hc
    exact h.core_step _ (h.core.passive_sweep cfg.maxIdleSec)
  | check =>
    obtain rfl := Option.some.inj hc
    exact h.core_step _ h.core.passive_check
  | tick =>
    obtain rfl := Option.some.inj hc
    exact h.core_step _ h.core.passive_tick
  | stop =>
    obtain rfl := Option.some.inj hc
    exact h.core_step _ h.core.passive_reject
  | destroy =>
    obtain ⟨hrun, hc⟩ := Option.ite_none_left_eq_some.mp hc
    obtain rfl := Option.some.inj hc
    exact { h with stopped := fun _ => hrun }

/-! ## The client table -/

/-- **The client table is exact.** -/
theorem table_exact (cfg : EpollConfig) (s : Table) (h : Reachable (step cfg) {} s) :
    s.core.Exact :=
  (Reachable.invariant (step cfg) Inv inv_step inv_init h).core.exact

/-- A connection whose `EPOLL_CTL_ADD` fails, and one that sends a request,
gets its response and is closed. -/
def twoConnections : List Action :=
  [.accept 16 false, .accept 16 true,
    .dispatch 16 { epollin := true }, .run .readOver .connClose,
    .dispatch 16 { epollout := true }, .run .readOver .connClose]

theorem table_exact_two : ∃ s, twoConnections.foldlM (step {}) {} = some s ∧
    s.core.released = [1, 2] ∧ s.core.Exact := by
  refine ⟨_, rfl, rfl, ?_⟩
  exact table_exact {} _ (reachable_of_run (step {}) twoConnections rfl)

/-! ## Orphans -/

/-- An event that is dispatched while the server runs has one of the bits that
`handle_event` knows. -/
def Known (s : Table) : Action → Prop
  | .dispatch _ events => s.core.status = .run → events.epollin ∨ events.epollout
  | _ => True

/-- Every context is in one hand: armed, or in one task. -/
def Held (s : Table) : Prop := ∀ p, s.core.Live p →
  (s.core.Armed p ∧ (s.tasks.map Task.ctx).count p = 0) ∨
    (¬ s.core.Armed p ∧ (s.tasks.map Task.ctx).count p = 1)

/-- Some further steps release every context that is there. -/
def CanClose (cfg : EpollConfig) (s : Table) : Prop := ∀ p id, s.core.idAt p = some id →
  ∃ s', Reachable (step cfg) s s' ∧ id ∈ s'.core.released

theorem Inv.held_iff (h : s.Inv) : s.Held ↔ ∀ p, s.core.Live p → s.core.Attended p := by
  have hcount : ∀ p, (s.tasks.map Task.ctx).count p = if s.core.Busy p then 1 else 0 := by
    intro p
    split
    · rename_i hbusy
      exact List.count_eq_one_of_mem h.nodup ((h.queued p).mpr hbusy)
    · rename_i hbusy
      exact List.count_eq_zero_of_not_mem fun hmem => hbusy ((h.queued p).mp hmem)
  constructor
  · intro hheld p hp
    rcases hheld p hp with ⟨harm, -⟩ | ⟨-, hone⟩
    · exact Or.inl harm
    · rw [hcount] at hone
      split at hone
      · rename_i hbusy
        exact Or.inr hbusy
      · cases hone
  · intro hatt p hp
    rcases hatt p hp with harm | hbusy
    · have hidle := (h.core.armed p harm).2
      exact Or.inl ⟨harm, by rw [hcount, if_neg hidle]⟩
    · have hidle : ¬ s.core.Armed p := fun harm => (h.core.armed p harm).2 hbusy
      exact Or.inr ⟨hidle, by rw [hcount, if_pos hbusy]⟩

/-- The tasks are run, and each handler asks for its connection to be closed. -/
theorem drain (cfg : EpollConfig) (tasks : List Task) (s : Table) (htasks : s.tasks = tasks)
    (h : s.Inv) (hstop : ¬ s.poolStopped) : ∃ s', Reachable (step cfg) s s' ∧
      (∀ id ∈ s.core.released, id ∈ s'.core.released) ∧
      ∀ p ∈ tasks.map Task.ctx, ∀ id, s.core.idAt p = some id → id ∈ s'.core.released := by
  induction tasks generalizing s with
  | nil => exact ⟨s, .refl, fun _ hid => hid, fun _ hp => absurd hp List.not_mem_nil⟩
  | cons task tasks ih =>
    have hc : step cfg s (.run .readClose .connClose) =
        some { s with tasks, core := s.core.closeAndRelease task.ctx } := by
      simp only [step, htasks, hstop, reduceCtorEq, or_self, ↓reduceIte, Clients.runTask_close,
        Bool.false_eq_true]
    have hbusy : s.core.Busy task.ctx := by
      rw [← h.queued, htasks]
      exact List.mem_cons_self
    obtain ⟨id', hid'⟩ := Clients.live_iff_idAt.mp hbusy.live
    have hrel := Clients.released_closeAndRelease id' hid'
    obtain ⟨s', hreach, hkeep, hall⟩ := ih _ rfl (inv_step s _ _ h hc) hstop
    refine ⟨s', hreach.head _ _ hc, fun id hid => hkeep id ?_, fun p hp id hid => ?_⟩
    · simp only [hrel]
      exact List.mem_append_left _ hid
    · rcases List.mem_cons.mp hp with rfl | hp
      · apply hkeep
        rw [hid] at hid'
        obtain rfl := Option.some.inj hid'
        simp only [hrel]
        exact List.mem_append_right _ List.mem_cons_self
      · refine hall p hp id ?_
        have hnodup := h.nodup
        rw [htasks, List.map_cons, List.nodup_cons] at hnodup
        have hne : p ≠ task.ctx := by
          rintro rfl
          exact hnodup.1 hp
        simp only [Clients.idAt_closeAndRelease hbusy.live p hne]
        exact hid

theorem Inv.canClose (h : s.Inv) (hrun : s.core.status = .run) (hheld : s.Held) :
    s.CanClose cfg := by
  intro p id hid
  have hlive : s.core.Live p := Clients.live_iff_idAt.mpr ⟨id, hid⟩
  have hstop : ¬ s.poolStopped := fun hstop => h.stopped hstop hrun
  rcases h.held_iff.mp hheld p hlive with harm | hbusy
  · -- an event is reported: the task is refused, or queued and run
    have hc : step cfg s (.dispatch p { epollin := true }) =
        some (Table.addTask cfg { s with core := (s.core.disarm p).startTask p .readFunc }
          ⟨.readFunc, p⟩) := by
      simp [step, harm, Mask.any, handleEvent, multiThreadHandleReadEvent]
    have hlive' : (s.core.disarm p).Live p := hlive
    have hid' : ((s.core.disarm p).startTask p .readFunc).idAt p = some id :=
      (Clients.idAt_startTask hlive' _ p).trans hid
    have hinv := inv_step s _ _ h hc
    rw [Table.addTask] at hc hinv
    split at hc
    · refine ⟨_, Reachable.refl.tail _ hc, ?_⟩
      simp only [Clients.released_closeAndRelease id hid']
      exact List.mem_append_right _ List.mem_cons_self
    · rename_i hroom
      rw [if_neg hroom] at hinv
      obtain ⟨s', hreach, -, hall⟩ := drain cfg _ _ rfl hinv hstop
      refine ⟨s', hreach.head _ _ hc, hall p ?_ id hid'⟩
      simp
  · obtain ⟨s', hreach, -, hall⟩ := drain cfg s.tasks s rfl h hstop
    exact ⟨s', hreach, hall p ((h.queued p).mpr hbusy) id hid⟩

theorem run_of_step (a : Action) (s' : Table) (h : s.Inv) (hc : step cfg s a = some s')
    (hrun : s'.core.status = .run) : s.core.status = .run := by
  cases a with
  | accept p addOk => exact ((Option.ite_none_right_eq_some.mp hc).1).1
  | dispatch p events =>
    obtain ⟨hp, ⟨func, -, rfl⟩ | ⟨-, rfl⟩⟩ := dispatch_cases events hc
    · rw [Table.addTask] at hrun
      split at hrun
      · exact (h.core.passive_refuse hp func).run hrun
      · exact (h.core.dispatch hp func).status.symm.trans hrun
    · exact hrun
  | run onReadable onWriteable =>
    obtain ⟨task, tasks, events, -, rfl⟩ := run_cases onReadable onWriteable hc
    exact Clients.run_of_finish events hrun
  | sweep =>
    obtain rfl := Option.some.inj hc
    exact (h.core.passive_sweep cfg.maxIdleSec).run hrun
  | check =>
    obtain rfl := Option.some.inj hc
    exact h.core.passive_check.run hrun
  | tick =>
    obtain rfl := Option.some.inj hc
    exact hrun
  | stop =>
    obtain rfl := Option.some.inj hc
    cases hrun
  | destroy =>
    obtain ⟨-, hc⟩ := Option.ite_none_left_eq_some.mp hc
    obtain rfl := Option.some.inj hc
    exact hrun

/-- What is known before the step stays so, if the event is one of those that
`handle_event` knows. -/
theorem attended_step (a : Action) (s' : Table) (h : s.Inv) (hc : step cfg s a = some s')
    (hknown : s.Known a) (hrun : s'.core.status = .run)
    (hatt : ∀ q, s.core.Live q → s.core.Attended q) (q : Ptr) (hq : s'.core.Live q) :
    s'.core.Attended q := by
  have hrun' := run_of_step a s' h hc hrun
  cases a with
  | accept p addOk =>
    obtain ⟨⟨-, hp⟩, hc⟩ := Option.ite_none_right_eq_some.mp hc
    obtain rfl := Option.some.inj hc
    rcases Clients.attended_accept addOk q hq with harm | ⟨hlive, harm⟩
    · exact Or.inl harm
    · exact (hatt q hlive).imp harm (Clients.busy_accept hp addOk q).mpr
  | dispatch p events =>
    obtain ⟨hp, ⟨func, -, rfl⟩ | ⟨hunknown, rfl⟩⟩ := dispatch_cases events hc
    · exact attended_addTask cfg h hp func hatt q hq
    · exact absurd (hknown hrun') hunknown
  | run onReadable onWriteable =>
    obtain ⟨task, tasks, events, htasks, rfl⟩ := run_cases onReadable onWriteable hc
    have hbusy : s.core.Busy task.ctx := by
      rw [← h.queued, htasks]
      exact List.mem_cons_self
    by_cases hqt : q = task.ctx
    · subst hqt
      exact Or.inl (Clients.armed_finish_self hbusy.live events hq)
    · have hold := hatt q (Clients.live_finish hbusy.live events q hq)
      exact hold.imp (Clients.armed_finish_of_ne hbusy.live events q hqt).mpr
        fun hb => (Clients.busy_finish hbusy.live events q).mpr ⟨hb, hqt⟩
  | sweep =>
    obtain rfl := Option.some.inj hc
    obtain ⟨-, hlive, hbusy, harm⟩ := Clients.clearIdleClients_spec h.core cfg.maxIdleSec
    exact (hatt q (hlive q hq)).imp (harm q hq) (hbusy q).mpr
  | check =>
    obtain rfl := Option.some.inj hc
    rw [Clients.stopIfEmpty_eq] at hq ⊢
    exact hatt q hq
  | tick =>
    obtain rfl := Option.some.inj hc
    exact hatt q hq
  | stop =>
    obtain rfl := Option.some.inj hc
    cases hrun
  | destroy =>
    obtain ⟨-, hc⟩ := Option.ite_none_left_eq_some.mp hc
    obtain rfl := Option.some.inj hc
    exact hatt q hq

/-- An event that `handle_event` does not know leaves its context to nobody. -/
theorem known_of_held (a : Action) (s' : Table) (h : s.Inv) (hc : step cfg s a = some s')
    (hheld : s'.core.status = .run → s'.Held) : s.Known a := by
  have h' := inv_step s a s' h hc
  cases a with
  | dispatch p events =>
    intro hrun
    obtain ⟨hp, ⟨func, hknown, -⟩ | ⟨-, rfl⟩⟩ := dispatch_cases events hc
    · exact hknown
    · obtain ⟨hlive, hidle⟩ := h.core.armed p hp
      rcases h'.held_iff.mp (hheld hrun) p hlive with harm | hbusy
      · exact absurd rfl ((Clients.armed_disarm p).mp harm).2
      · exact absurd hbusy hidle
  | accept | run | sweep | check | tick | stop | destroy => exact trivial

/-- **No context is left to nobody while the server runs**, behind any step of
the run, exactly when each event that is dispatched until then is known. -/
theorem held_iff_known (cfg : EpollConfig) (as : List Action) :
    Throughout (step cfg) (fun s a => ∀ s', step cfg s a = some s' →
      s'.core.status = .run → s'.Held ∧ s'.CanClose cfg) {} as ↔
    Throughout (step cfg) Known {} as := by
  constructor
  · refine Throughout.of_invariant (step cfg) Inv _ _ ?_ {} inv_init as
    intro s a s' h hheld hc
    exact ⟨known_of_held a s' h hc fun hrun => (hheld s' hc hrun).1, inv_step s a s' h hc⟩
  · have hinit : Inv {} ∧ (({} : Table).core.status = .run →
        ∀ q, ({} : Table).core.Live q → ({} : Table).core.Attended q) :=
      ⟨inv_init, fun _ q hq => by cases hq⟩
    refine Throughout.of_invariant (step cfg) (fun s => s.Inv ∧ (s.core.status = .run →
      ∀ q, s.core.Live q → s.core.Attended q)) _ _ ?_ {} hinit as
    rintro s a s' ⟨h, hatt⟩ hknown hc
    have h' := inv_step s a s' h hc
    have hatt' : s'.core.status = .run → ∀ q, s'.core.Live q → s'.core.Attended q :=
      fun hrun => attended_step a s' h hc hknown hrun (hatt (run_of_step a s' h hc hrun))
    refine ⟨fun t ht hrun => ?_, h', hatt'⟩
    rw [hc] at ht
    obtain rfl := Option.some.inj ht
    have hheld := h'.held_iff.mpr (hatt' hrun)
    exact ⟨hheld, h'.canClose hrun hheld⟩

/-- `EPOLLHUP` alone. -/
theorem hangup_orphans : ¬ ∀ (cfg : EpollConfig) (s : Table), Reachable (step cfg) {} s →
    s.core.status = .run → s.Held := by
  intro hall
  have hreach : Reachable (step {}) {} _ :=
    reachable_of_run (step {}) [.accept 16 true, .dispatch 16 { epollhup := true }] rfl
  rcases hall {} _ hreach rfl 16 rfl with ⟨harm, -⟩ | ⟨-, hone⟩
  · cases harm
  · cases hone

end Table

end Ehttp
