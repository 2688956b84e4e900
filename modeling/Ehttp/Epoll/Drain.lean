import Mathlib.Data.List.Nodup
import Ehttp.Epoll.Status

/-!
# The drain of the event loop

Whether a connection is left when `_status` is `S_STOP`.

* `Inv`: the counter, the table and who closes what;
* `Drained`: what holds once a check has seen no client and `S_REJECT_CONN`;
* `stops_empty`: no connection is left behind if none is accepted around such a
  check.
-/

namespace Ehttp

open Lib

namespace Lifecycle

variable {n : Nat} {s s' : Lifecycle n}

/-! ## The table -/

/-- The state of the connection at each point of `close_and_release`. -/
def stateAt : ClosePc → Conn
  | .remove _ => .closed
  | .check _ | .store _ | .delete _ => .removed

def Closes (s : Lifecycle n) (t : Option (Fin n)) (c : Nat) : Prop :=
  ∃ pc, s.closing t = some pc ∧ pc.conn = c

structure Inv (s : Lifecycle n) : Prop where
  exclusive : Exclusive s.Closes
  closing : ∀ t pc, s.closing t = some pc → s.conn pc.conn = stateAt pc
  table : ∀ c, c ∈ s.eclients ↔ (s.conn c).inTable
  nodup : s.eclients.Nodup
  clients : s.clients = s.eclients.length
  pending : ∀ c, s.conn c = .accepted ↔ s.start = .adding c
  added : ∀ c, s.start = .added c → s.conn c = .added
  accepted : ∀ c, c ∈ s.accepted ↔ s.conn c ≠ .unknown
  fresh : ∀ c ∈ s.accepted, c ≤ s.accepted.length

theorem inv_initial (userPool : Bool) : Inv (initial userPool : Lifecycle n) := by
  constructor
  · rintro c t u ⟨pc, hpc, -⟩
    cases hpc
  · intro t pc hpc
    cases hpc
  · simp [initial, Conn.inTable]
  · exact List.nodup_nil
  · rfl
  · simp [initial]
  · simp [initial]
  · simp [initial]
  · simp [initial]

theorem Inv.not_closes (h : s.Inv) (c : Nat) (hclosed : s.conn c ≠ .closed)
    (hremoved : s.conn c ≠ .removed) (t : Option (Fin n)) : ¬ s.Closes t c := by
  rintro ⟨pc, hpc, rfl⟩
  have hstate := h.closing t pc hpc
  cases pc with
  | remove c => exact hclosed hstate
  | check c | store c | delete c => exact hremoved hstate

/-- One connection changes, which at most one thread closes. -/
theorem Inv.update (h : s.Inv) (c : Nat) (t : Option (Fin n)) (x : Conn)
    (hconn : ∀ d, s'.conn d = if d = c then x else s.conn d)
    (hclosing : ∀ u, u ≠ t → s'.closing u = s.closing u)
    (hother : ∀ u, u ≠ t → ¬ s.Closes u c)
    (hself : ∀ pc, s'.closing t = some pc → pc.conn = c ∧ x = stateAt pc)
    (htable : ∀ d, d ∈ s'.eclients ↔ if d = c then x.inTable = true else d ∈ s.eclients)
    (hnodup : s'.eclients.Nodup) (hclients : s'.clients = s'.eclients.length)
    (hpending : ∀ d, s'.start = .adding d ↔ if d = c then x = .accepted else s.start = .adding d)
    (hadded : ∀ d, s'.start = .added d → if d = c then x = .added else s.start = .added d)
    (hx : x ≠ .unknown) (haccepted : ∀ d, d ∈ s'.accepted ↔ d = c ∨ d ∈ s.accepted)
    (hfresh : ∀ d ∈ s'.accepted, d ≤ s'.accepted.length) : s'.Inv := by
  have hsame : ∀ u pc, s'.closing u = some pc →
      (u = t ∧ pc.conn = c ∧ x = stateAt pc) ∨
        (u ≠ t ∧ s.closing u = some pc ∧ pc.conn ≠ c) := by
    intro u pc hpc
    by_cases hu : u = t
    · subst hu
      exact Or.inl ⟨rfl, hself pc hpc⟩
    · rw [hclosing u hu] at hpc
      exact Or.inr ⟨hu, hpc, fun hc => hother u hu ⟨pc, hpc, hc⟩⟩
  constructor
  · refine h.exclusive.give (· = c) t fun u d hu => ?_
    obtain ⟨pc, hpc, rfl⟩ := hu
    rcases hsame u pc hpc with ⟨hu, hc, -⟩ | ⟨-, hold, hc⟩
    · exact Or.inl ⟨hc, hu⟩
    · exact Or.inr ⟨hc, pc, hold, rfl⟩
  · intro u pc hpc
    rw [hconn]
    rcases hsame u pc hpc with ⟨-, hc, hstate⟩ | ⟨-, hold, hc⟩
    · rw [if_pos hc]
      exact hstate
    · rw [if_neg hc]
      exact h.closing u pc hold
  · intro d
    rw [htable, hconn, h.table]
    split
    · rfl
    · rfl
  · exact hnodup
  · exact hclients
  · intro d
    rw [hpending, hconn, ← h.pending]
    split
    · rfl
    · rfl
  · intro d hd
    have hold := hadded d hd
    rw [hconn]
    split at hold
    · rename_i hdc
      rw [if_pos hdc]
      exact hold
    · rename_i hdc
      rw [if_neg hdc]
      exact h.added d hold
  · intro d
    rw [haccepted, hconn, h.accepted]
    split
    · rename_i hd
      exact iff_of_true (Or.inl hd) hx
    · rename_i hd
      exact or_iff_right hd
  · exact hfresh

/-- A known connection changes, and stays in the table or out of it. -/
theorem Inv.change (h : s.Inv) (c : Nat) (t : Option (Fin n)) (x : Conn)
    (hconn : ∀ d, s'.conn d = if d = c then x else s.conn d)
    (hclosing : ∀ u, u ≠ t → s'.closing u = s.closing u)
    (hother : ∀ u, u ≠ t → ¬ s.Closes u c)
    (hself : ∀ pc, s'.closing t = some pc → pc.conn = c ∧ x = stateAt pc)
    (htable : x.inTable = (s.conn c).inTable)
    (hold : s.conn c ≠ .unknown ∧ s.conn c ≠ .accepted) (hnew : x ≠ .unknown ∧ x ≠ .accepted)
    (heclients : s'.eclients = s.eclients) (hclients : s'.clients = s.clients)
    (haccepted : s'.accepted = s.accepted)
    (hstart : ∀ d, s'.start = .adding d ↔ s.start = .adding d)
    (hadded : ∀ d, s'.start = .added d → s.start = .added d ∧ d ≠ c) : s'.Inv := by
  refine h.update c t x hconn hclosing hother hself ?_ ?_ ?_ ?_ ?_ hnew.1 ?_ ?_
  · intro d
    rw [heclients]
    split
    · rename_i hd
      rw [hd, h.table, htable]
    · rfl
  · rw [heclients]
    exact h.nodup
  · rw [hclients, heclients]
    exact h.clients
  · intro d
    rw [hstart]
    split
    · rename_i hd
      rw [hd, ← h.pending]
      exact iff_of_false hold.2 hnew.2
    · rfl
  · intro d hd
    obtain ⟨hd, hne⟩ := hadded d hd
    rw [if_neg hne]
    exact hd
  · intro d
    rw [haccepted]
    refine (or_iff_right_of_imp fun hd => ?_).symm
    rw [hd]
    exact (h.accepted c).mpr hold.1
  · rw [haccepted]
    exact h.fresh

theorem Inv.acceptSocket (h : s.Inv) (hidle : s.closing none = none) (hpc : s.start = .accepting) :
    let c := s.accepted.length + 1
    Inv { s.setConn c .accepted with accepted := s.accepted ++ [c], start := .adding c } := by
  intro c
  have hunknown : s.conn c = .unknown := by
    by_contra hne
    have hle : c ≤ s.accepted.length := h.fresh c ((h.accepted c).mpr hne)
    omega
  have hout : c ∉ s.eclients := by
    rw [h.table, hunknown]
    exact Bool.noConfusion
  refine h.update c none .accepted (Function.update_apply s.conn c .accepted) (fun _ _ => rfl)
    (fun u _ => h.not_closes c (by simp [hunknown]) (by simp [hunknown]) u)
    (fun pc hpc => absurd (hidle.symm.trans hpc) (by simp)) (fun d => ?_) h.nodup h.clients
    (fun d => ?_) (fun d hd => by cases hd) (by simp) (fun d => ?_) (fun d hd => ?_)
  · split
    · rename_i hd
      rw [hd]
      exact iff_of_false hout Bool.noConfusion
    · rfl
  · rw [hpc]
    split
    · rename_i hd
      simp [hd]
    · rename_i hd
      simp [Ne.symm hd]
  · exact (List.mem_append.trans or_comm).trans (or_congr_left List.mem_singleton)
  · rw [List.mem_append, List.mem_singleton] at hd
    rw [List.length_append, List.length_singleton]
    rcases hd with hd | rfl
    · exact Nat.le_succ_of_le (h.fresh d hd)
    · exact Nat.le_refl _

theorem Inv.addClient (h : s.Inv) (hidle : s.closing none = none) (c : Nat)
    (hpc : s.start = .adding c) :
    Inv { s.setConn c .added with
      clients := s.clients + 1
      eclients := s.eclients ++ [c]
      start := .added c } := by
  have hold : s.conn c = .accepted := (h.pending c).mpr hpc
  have hknown : c ∈ s.accepted := (h.accepted c).mpr (by simp [hold])
  have hout : c ∉ s.eclients := by
    rw [h.table, hold]
    exact Bool.noConfusion
  refine h.update c none .added (Function.update_apply s.conn c .added) (fun _ _ => rfl)
    (fun u _ => h.not_closes c (by simp [hold]) (by simp [hold]) u)
    (fun pc hpc => absurd (hidle.symm.trans hpc) (by simp)) (fun d => ?_) ?_ ?_ (fun d => ?_)
    (fun d hd => ?_) (by simp) (fun d => ?_) h.fresh
  · rw [List.mem_append, List.mem_singleton]
    split
    · rename_i hd
      exact iff_of_true (Or.inr hd) rfl
    · rename_i hd
      exact or_iff_left hd
  · rw [← List.concat_eq_append]
    exact h.nodup.concat hout
  · have hcount := h.clients
    rw [List.length_append, List.length_singleton]
    show s.clients + 1 = _
    omega
  · rw [hpc]
    split
    · simp
    · rename_i hd
      simp [Ne.symm hd]
  · cases hd
    rw [if_pos rfl]
  · refine (or_iff_right_of_imp ?_).symm
    rintro rfl
    exact hknown

theorem Inv.remove (h : s.Inv) (t : Option (Fin n)) (c : Nat)
    (ht : s.closing t = some (.remove c)) :
    Inv { (s.setConn c .removed).setClosing t (some (.check c)) with
      clients := s.clients - 1
      eclients := s.eclients.erase c } := by
  have hold : s.conn c = .closed := h.closing t _ ht
  have hknown : c ∈ s.accepted := (h.accepted c).mpr (by simp [hold])
  have hin : c ∈ s.eclients := by
    rw [h.table, hold]
    rfl
  refine h.update c t .removed (Function.update_apply s.conn c .removed)
    (fun u hu => Function.update_of_ne hu _ _)
    (fun u hu hclose => hu (h.exclusive c u t hclose ⟨_, ht, rfl⟩)) (fun pc hpc => ?_)
    (fun d => ?_) (h.nodup.erase c) ?_ (fun d => ?_) (fun d hd => ?_) (by simp) (fun d => ?_)
    h.fresh
  · obtain rfl := Option.some.inj ((Function.update_self t _ s.closing).symm.trans hpc)
    exact ⟨rfl, rfl⟩
  · rw [h.nodup.mem_erase_iff]
    split
    · rename_i hd
      exact iff_of_false (fun hmem => hmem.1 hd) Bool.noConfusion
    · rename_i hd
      exact and_iff_right hd
  · have hcount := h.clients
    have hpos := List.length_pos_of_mem hin
    rw [List.length_erase_of_mem hin]
    show s.clients - 1 = _
    omega
  · split
    · rename_i hd
      rw [hd]
      refine iff_of_false (fun hadding => ?_) (by simp)
      have haccepted := (h.pending c).mpr hadding
      rw [hold] at haccepted
      cases haccepted
    · rfl
  · have hne : d ≠ c := by
      rintro rfl
      have hadded := h.added d hd
      rw [hold] at hadded
      cases hadded
    rw [if_neg hne]
    exact hd
  · refine (or_iff_right_of_imp ?_).symm
    rintro rfl
    exact hknown

/-- A step of the loop that is about no connection. -/
theorem Inv.loop (h : s.Inv) (start : StartPc) (status : ServerStatus) (poolExists drained : Bool)
    (hpc : ∀ c, s.start ≠ .adding c) (hpending : ∀ c, start ≠ .adding c)
    (hadded : ∀ c, start ≠ .added c) : Inv { s with start, status, poolExists, drained } :=
  { h with
    pending := fun c => (h.pending c).trans (iff_of_false (hpc c) (hpending c))
    added := fun c hc => absurd hc (hadded c) }

theorem Inv.startStep (h : s.Inv) (hidle : s.closing none = none) (a : StartAction)
    (hc : s.startStep a = some s') : s'.Inv := by
  unfold Lifecycle.startStep at hc
  split at hc
  case h_10 hpc =>
    obtain rfl := Option.some.inj hc
    exact h.acceptSocket hidle hpc
  case h_12 c hpc =>
    obtain rfl := Option.some.inj hc
    exact h.addClient hidle c hpc
  case h_13 c hpc =>
    have hold := h.added c hpc
    obtain rfl := Option.some.inj hc
    exact h.change c none .armed (Function.update_apply s.conn c .armed) (fun _ _ => rfl)
      (fun u _ => h.not_closes c (by simp [hold]) (by simp [hold]) u)
      (fun pc hpc => absurd (hidle.symm.trans hpc) (by simp)) (by rw [hold]; rfl)
      (by simp [hold]) (by simp) rfl rfl rfl (by simp [hpc]) (by simp)
  case h_14 c hpc =>
    have hold := h.added c hpc
    obtain rfl := Option.some.inj hc
    refine h.change c none .closed (Function.update_apply s.conn c .closed)
      (fun u hu => Function.update_of_ne hu _ _)
      (fun u _ => h.not_closes c (by simp [hold]) (by simp [hold]) u) (fun pc hpc => ?_)
      (by rw [hold]; rfl) (by simp [hold]) (by simp) rfl rfl rfl (by simp [hpc]) (by simp)
    obtain rfl := Option.some.inj ((Function.update_self none _ s.closing).symm.trans hpc)
    exact ⟨rfl, rfl⟩
  case h_17 hpc =>
    split at hc
    · obtain rfl := Option.some.inj hc
      exact h.loop _ _ _ _ (by simp [hpc]) (by simp) (by simp)
    · obtain rfl := Option.some.inj hc
      exact h.loop _ _ _ _ (by simp [hpc]) (by simp) (by simp)
  case h_1 hpc | h_2 hpc | h_3 hpc | h_4 hpc | h_6 hpc | h_7 hpc | h_9 hpc =>
    obtain rfl := Option.some.inj hc
    refine h.loop _ _ _ _ (by simp [hpc]) (fun c => ?_) (fun c => ?_)
    · split <;> simp
    · split <;> simp
  case h_19 => cases hc
  all_goals
    rename_i hpc
    obtain rfl := Option.some.inj hc
    exact h.loop _ _ _ _ (by simp [hpc]) (by simp) (by simp)

theorem Inv.close (h : s.Inv) (t : Option (Fin n)) (c : Nat) (harmed : s.conn c = .armed) :
    (s.beginClose t c).Inv := by
  refine h.change c t .closed (Function.update_apply s.conn c .closed)
    (fun u hu => Function.update_of_ne hu _ _)
    (fun u _ => h.not_closes c (by simp [harmed]) (by simp [harmed]) u) (fun pc hpc => ?_)
    (by rw [harmed]; rfl) (by simp [harmed]) (by simp) rfl rfl rfl (fun _ => Iff.rfl)
    fun d hd => ⟨hd, ?_⟩
  · obtain rfl := Option.some.inj ((Function.update_self t _ s.closing).symm.trans hpc)
    exact ⟨rfl, rfl⟩
  · rintro rfl
    have hadded := h.added d hd
    rw [harmed] at hadded
    cases hadded

/-- A thread goes on in `close_and_release`, behind `remove_client`. -/
theorem Inv.goOn (h : s.Inv) (t : Option (Fin n)) (pc : ClosePc) (ht : s.closing t = some pc)
    (hpc : stateAt pc = .removed) (x : Conn) (hx : x = .removed ∨ x = .released)
    (next : Option ClosePc)
    (hnext : ∀ pc', next = some pc' → pc'.conn = pc.conn ∧ x = stateAt pc') :
    ((s.setConn pc.conn x).setClosing t next).Inv := by
  have hold : s.conn pc.conn = .removed := (h.closing t pc ht).trans hpc
  refine h.change pc.conn t x (Function.update_apply s.conn pc.conn x)
    (fun u hu => Function.update_of_ne hu _ _)
    (fun u hu hclose => hu (h.exclusive pc.conn u t hclose ⟨pc, ht, rfl⟩))
    (fun pc' hpc' => hnext pc' ((Function.update_self t _ s.closing).symm.trans hpc'))
    ?_ (by simp [hold]) ?_ rfl rfl rfl (fun _ => Iff.rfl) fun d hd => ⟨hd, ?_⟩
  · rw [hold]
    rcases hx with rfl | rfl <;> rfl
  · rcases hx with rfl | rfl <;> simp
  · rintro rfl
    have hadded := h.added _ hd
    rw [hold] at hadded
    cases hadded

theorem Inv.setClosing (h : s.Inv) (t : Option (Fin n)) (pc next : ClosePc)
    (ht : s.closing t = some pc) (hpc : stateAt pc = .removed) (hnext : next.conn = pc.conn)
    (hstate : stateAt next = .removed) : (s.setClosing t (some next)).Inv := by
  have hgo := h.goOn t pc ht hpc .removed (Or.inl rfl) (some next) fun pc' hpc' => by
    obtain rfl := Option.some.inj hpc'
    exact ⟨hnext, hstate.symm⟩
  have hsame : s.setConn pc.conn .removed = s := by
    have hold : s.conn pc.conn = .removed := (h.closing t pc ht).trans hpc
    rw [setConn, ← hold, Function.update_eq_self]
  rw [hsame] at hgo
  exact hgo

theorem inv_step (s : Lifecycle n) (a : Action n) (s' : Lifecycle n) (h : s.Inv)
    (hc : step s a = some s') : s'.Inv := by
  cases a with
  | start a =>
    obtain ⟨hidle, hc⟩ := start_cases a hc
    exact h.startStep hidle a hc
  | close t c =>
    obtain ⟨-, harmed, -, rfl⟩ := close_cases t c hc
    exact h.close t c harmed
  | remove t =>
    obtain ⟨c, ht, -, rfl⟩ := remove_cases t hc
    exact h.remove t c ht
  | check t =>
    obtain ⟨c, ht, ⟨-, rfl⟩ | ⟨-, rfl⟩⟩ := check_cases t hc
    · exact { h.setClosing t _ (.store c) ht rfl rfl rfl with }
    · exact h.setClosing t _ (.delete c) ht rfl rfl rfl
  | store t =>
    obtain ⟨c, ht, rfl⟩ := store_cases t hc
    exact { h.setClosing t _ (.delete c) ht rfl rfl rfl with }
  | delete t =>
    obtain ⟨c, ht, rfl⟩ := delete_cases t hc
    exact h.goOn t _ ht rfl .released (Or.inr rfl) none fun _ hnone => by cases hnone
  | stop =>
    obtain ⟨-, rfl⟩ := stop_cases hc
    exact { h with }

/-! ## The stop of an empty loop -/

/-- No connection is accepted around the check that leads to `S_STOP`: none waits
for `add_client` when a check sees no client and `S_REJECT_CONN`, and none is
accepted afterwards. -/
def Clear (s : Lifecycle n) : Action n → Prop
  | .check _ => s.isDrained → ∀ c ∈ s.accepted, s.conn c ≠ .accepted
  | .start (.acceptSocket true) => ¬ s.drained
  | _ => True

/-- `S_STOP` is stored when no thread is in `close_and_release` behind
`remove_client`. -/
def Settled (s : Lifecycle n) : Action n → Prop
  | .start .exitStore | .store _ => ∀ c ∈ s.accepted, s.conn c ≠ .removed
  | _ => True

instance (s : Lifecycle n) (a : Action n) : Decidable (s.Clear a) :=
  match a with
  | .check _ => inferInstanceAs (Decidable (s.isDrained = true →
      ∀ c ∈ s.accepted, s.conn c ≠ .accepted))
  | .start (.acceptSocket true) => inferInstanceAs (Decidable (¬ s.drained = true))
  | .start (.acceptSocket false) | .start (.setup _) | .start .setRun | .start .loop
  | .start (.epollWait _) | .start .eintr | .start .checkRun | .start .addClient
  | .start (.ctlAdd _) | .start .endEvents | .start .endSweep | .start .exitCheck
  | .start .exitStore | .close _ _ | .remove _ | .store _ | .delete _ | .stop => isTrue trivial

instance (s : Lifecycle n) (a : Action n) : Decidable (s.Settled a) :=
  match a with
  | .start .exitStore | .store _ =>
    inferInstanceAs (Decidable (∀ c ∈ s.accepted, s.conn c ≠ .removed))
  | .start (.acceptSocket _) | .start (.setup _) | .start .setRun | .start .loop
  | .start (.epollWait _) | .start .eintr | .start .checkRun | .start .addClient
  | .start (.ctlAdd _) | .start .endEvents | .start .endSweep | .start .exitCheck
  | .close _ _ | .remove _ | .check _ | .delete _ | .stop => isTrue trivial

structure Drained (s : Lifecycle n) : Prop where
  inv : s.Inv
  stop : s.status = .stop → s.drained
  store : ∀ t c, s.closing t = some (.store c) → s.drained
  exitStore : s.start = .exitStore → s.drained
  empty : s.drained → s.eclients = [] ∧ ∀ c, s.start ≠ .adding c

theorem drained_initial (userPool : Bool) : Drained (initial userPool : Lifecycle n) where
  inv := inv_initial userPool
  stop := fun h => by cases h
  store := fun t c h => by cases h
  exitStore := fun h => by cases h
  empty := fun h => by cases h

/-- A check that sees no client. -/
theorem Inv.empty (h : s.Inv) (hdrained : s.isDrained) : s.eclients = [] := by
  have hcount := h.clients
  simp only [isDrained, Bool.decide_and, Bool.and_eq_true, decide_eq_true_eq] at hdrained
  rw [hdrained.1] at hcount
  exact List.length_eq_zero_iff.mp (by omega)

/-- A step of the loop that is about no connection. -/
theorem Drained.loop (h : s.Drained) (start : StartPc) (status : ServerStatus) (poolExists : Bool)
    (hinv : Inv { s with start, status, poolExists }) (hstop : status = .stop → s.drained)
    (hexit : start ≠ .exitStore) (hadding : ∀ c, start ≠ .adding c) :
    Drained { s with start, status, poolExists } where
  inv := hinv
  stop := hstop
  store := h.store
  exitStore hc := absurd hc hexit
  empty hd := ⟨(h.empty hd).1, hadding⟩

theorem Drained.startStep (h : s.Drained) (a : StartAction) (hclear : s.Clear (.start a))
    (hinv : s'.Inv) (hc : s.startStep a = some s') : s'.Drained := by
  unfold Lifecycle.startStep at hc
  split at hc
  case h_5 =>
    obtain rfl := Option.some.inj hc
    exact h.loop _ _ _ hinv (fun hrun => by cases hrun) (by simp) (by simp)
  case h_10 =>
    obtain rfl := Option.some.inj hc
    exact ⟨hinv, h.stop, h.store, (fun hpc => by cases hpc), fun hd => absurd hd hclear⟩
  case h_12 c hpc =>
    obtain rfl := Option.some.inj hc
    exact ⟨hinv, h.stop, h.store, (fun hpc => by cases hpc),
      fun hd => absurd hpc ((h.empty hd).2 c)⟩
  case h_13 c hpc =>
    obtain rfl := Option.some.inj hc
    exact ⟨hinv, h.stop, h.store, (fun hpc => by cases hpc), fun hd => ⟨(h.empty hd).1, by simp⟩⟩
  case h_14 c hpc =>
    obtain rfl := Option.some.inj hc
    refine ⟨hinv, h.stop, fun t d ht => ?_, (fun hpc => by cases hpc),
      fun hd => ⟨(h.empty hd).1, by simp⟩⟩
    cases t with
    | none => cases (Function.update_self none _ s.closing).symm.trans ht
    | some w => exact h.store (some w) d ht
  case h_17 =>
    split at hc
    · rename_i hdrained
      obtain rfl := Option.some.inj hc
      exact ⟨hinv, fun _ => rfl, fun _ _ _ => rfl, fun _ => rfl,
        fun _ => ⟨h.inv.empty hdrained, by simp⟩⟩
    · obtain rfl := Option.some.inj hc
      exact h.loop _ _ _ hinv h.stop (by simp) (by simp)
  case h_18 hpc =>
    obtain rfl := Option.some.inj hc
    exact h.loop _ _ _ hinv (fun _ => h.exitStore hpc) (by simp) (by simp)
  case h_1 | h_2 | h_3 | h_4 | h_6 | h_7 | h_9 =>
    obtain rfl := Option.some.inj hc
    refine h.loop _ _ _ hinv h.stop ?_ (fun c => ?_)
    · split <;> simp
    · split <;> simp
  case h_19 => cases hc
  all_goals
    obtain rfl := Option.some.inj hc
    exact h.loop _ _ _ hinv h.stop (by simp) (by simp)

theorem drained_step (s : Lifecycle n) (a : Action n) (s' : Lifecycle n) (h : s.Drained)
    (hclear : s.Clear a) (hc : step s a = some s') : s'.Drained := by
  have hinv := inv_step s a s' h.inv hc
  have hstore : ∀ t next u d, (∀ c, next ≠ some (.store c)) →
      Function.update s.closing t next u = some (.store d) → s.drained := by
    intro t next u d hnext hu
    rw [Function.update_apply] at hu
    split at hu
    · exact absurd hu (hnext d)
    · exact h.store u d hu
  cases a with
  | start a => exact h.startStep a hclear hinv (start_cases a hc).2
  | close t c =>
    obtain ⟨-, -, -, rfl⟩ := close_cases t c hc
    exact ⟨hinv, h.stop, fun u d hu => hstore t _ u d (by simp) hu, h.exitStore, h.empty⟩
  | remove t =>
    obtain ⟨c, -, -, rfl⟩ := remove_cases t hc
    refine ⟨hinv, h.stop, fun u d hu => hstore t _ u d (by simp) hu, h.exitStore, fun hd => ?_⟩
    obtain ⟨hempty, hpc⟩ := h.empty hd
    exact ⟨by simp [hempty], hpc⟩
  | check t =>
    obtain ⟨c, ht, ⟨hdrained, rfl⟩ | ⟨-, rfl⟩⟩ := check_cases t hc
    · refine ⟨hinv, fun _ => rfl, fun _ _ _ => rfl, fun _ => rfl,
        fun _ => ⟨h.inv.empty hdrained, fun d hd => ?_⟩⟩
      have hpending := (h.inv.pending d).mpr hd
      refine hclear hdrained d ((h.inv.accepted d).mpr ?_) hpending
      rw [hpending]
      exact Conn.noConfusion
    · exact ⟨hinv, h.stop, fun u d hu => hstore t _ u d (by simp) hu, h.exitStore, h.empty⟩
  | store t =>
    obtain ⟨c, ht, rfl⟩ := store_cases t hc
    exact ⟨hinv, fun _ => h.store t c ht, fun u d hu => hstore t _ u d (by simp) hu, h.exitStore,
      h.empty⟩
  | delete t =>
    obtain ⟨c, -, rfl⟩ := delete_cases t hc
    exact ⟨hinv, h.stop, fun u d hu => hstore t _ u d (by simp) hu, h.exitStore, h.empty⟩
  | stop =>
    obtain ⟨-, rfl⟩ := stop_cases hc
    exact ⟨hinv, (fun hstop => by cases hstop), h.store, h.exitStore, h.empty⟩

/-- What the steps of the loop keep. -/
structure LoopKeeps (s : Lifecycle n) (a : StartAction) (s' : Lifecycle n) : Prop where
  accepted : a ≠ .acceptSocket true → s'.accepted = s.accepted
  removed : ∀ c, s'.conn c = .removed → s.conn c = .removed
  stop : s'.status = .stop → s.status = .stop ∨ a = .exitStore
  drained : s.drained → s'.drained

theorem removed_of_update {conn : Nat → Conn} {c d : Nat} {x : Conn} (hx : x ≠ .removed)
    (hd : Function.update conn c x d = .removed) : conn d = .removed := by
  rw [Function.update_apply] at hd
  split at hd
  · exact absurd hd hx
  · exact hd

theorem startStep_keeps (a : StartAction) (hc : s.startStep a = some s') : LoopKeeps s a s' := by
  unfold startStep at hc
  split at hc
  case h_5 =>
    obtain rfl := Option.some.inj hc
    exact ⟨fun _ => rfl, fun _ hd => hd, (fun hstop => by cases hstop), id⟩
  case h_10 =>
    obtain rfl := Option.some.inj hc
    exact ⟨fun hne => absurd rfl hne, fun d hd => removed_of_update (by simp) hd, Or.inl, id⟩
  case h_12 | h_13 | h_14 =>
    obtain rfl := Option.some.inj hc
    exact ⟨fun _ => rfl, fun d hd => removed_of_update (by simp) hd, Or.inl, id⟩
  case h_17 =>
    split at hc
    · obtain rfl := Option.some.inj hc
      exact ⟨fun _ => rfl, fun _ hd => hd, Or.inl, fun _ => rfl⟩
    · obtain rfl := Option.some.inj hc
      exact ⟨fun _ => rfl, fun _ hd => hd, Or.inl, id⟩
  case h_18 =>
    obtain rfl := Option.some.inj hc
    exact ⟨fun _ => rfl, fun _ hd => hd, fun _ => Or.inr rfl, id⟩
  case h_19 => cases hc
  all_goals
    obtain rfl := Option.some.inj hc
    exact ⟨fun _ => rfl, fun _ hd => hd, Or.inl, id⟩

/-- Once a check has seen no client, nothing is accepted. -/
theorem Drained.accepted_step (a : Action n) (hclear : s.Clear a) (hc : step s a = some s')
    (hd : s.drained) : s'.drained ∧ s'.accepted = s.accepted := by
  cases a with
  | start a =>
    have hkeeps := startStep_keeps a (start_cases a hc).2
    refine ⟨hkeeps.drained hd, hkeeps.accepted ?_⟩
    rintro rfl
    exact hclear hd
  | close t c =>
    obtain ⟨-, -, -, rfl⟩ := close_cases t c hc
    exact ⟨hd, rfl⟩
  | remove t =>
    obtain ⟨c, -, -, rfl⟩ := remove_cases t hc
    exact ⟨hd, rfl⟩
  | check t =>
    obtain ⟨c, -, ⟨-, rfl⟩ | ⟨-, rfl⟩⟩ := check_cases t hc
    · exact ⟨rfl, rfl⟩
    · exact ⟨hd, rfl⟩
  | store t =>
    obtain ⟨c, -, rfl⟩ := store_cases t hc
    exact ⟨hd, rfl⟩
  | delete t =>
    obtain ⟨c, -, rfl⟩ := delete_cases t hc
    exact ⟨hd, rfl⟩
  | stop =>
    obtain ⟨-, rfl⟩ := stop_cases hc
    exact ⟨hd, rfl⟩

theorem Drained.conn (h : s.Drained) (hd : s.drained) (c : Nat) (hc : c ∈ s.accepted) :
    s.conn c = .removed ∨ s.conn c = .released := by
  obtain ⟨hempty, hadding⟩ := h.empty hd
  have hout : (s.conn c).inTable = false := by
    rw [← Bool.not_eq_true, ← h.inv.table, hempty]
    exact List.not_mem_nil
  cases hconn : s.conn c with
  | unknown => exact absurd hconn ((h.inv.accepted c).mp hc)
  | accepted => exact absurd ((h.inv.pending c).mp hconn) (hadding c)
  | added | armed | closed =>
    rw [hconn] at hout
    cases hout
  | removed => exact Or.inl rfl
  | released => exact Or.inr rfl

theorem Drained.settled_step (h : s.Drained) (a : Action n) (hclear : s.Clear a)
    (hsettled : s.Settled a) (hc : step s a = some s')
    (hkeep : s.status = .stop → ∀ c ∈ s.accepted, s.conn c ≠ .removed)
    (hstop : s'.status = .stop) (d : Nat) (hd : d ∈ s'.accepted) : s'.conn d ≠ .removed := by
  cases a with
  | start a =>
    have hkeeps := startStep_keeps a (start_cases a hc).2
    intro hconn
    rcases hkeeps.stop hstop with hold | rfl
    · rw [(accepted_step (.start a) hclear hc (h.stop hold)).2] at hd
      exact hkeep hold d hd (hkeeps.removed d hconn)
    · rw [hkeeps.accepted (by simp)] at hd
      exact hsettled d hd (hkeeps.removed d hconn)
  | close t c =>
    obtain ⟨-, -, -, rfl⟩ := close_cases t c hc
    exact fun hconn => hkeep hstop d hd (removed_of_update (by simp) hconn)
  | remove t =>
    -- a connection that is removed was in the table
    obtain ⟨c, ht, -, rfl⟩ := remove_cases t hc
    have hold : s.conn c = .closed := h.inv.closing t _ ht
    have hin : c ∈ s.eclients := by
      rw [h.inv.table, hold]
      rfl
    rw [(h.empty (h.stop hstop)).1] at hin
    exact absurd hin List.not_mem_nil
  | check t =>
    obtain ⟨c, -, ⟨-, rfl⟩ | ⟨-, rfl⟩⟩ := check_cases t hc
    · exact hkeep hstop d hd
    · exact hkeep hstop d hd
  | store t =>
    obtain ⟨c, -, rfl⟩ := store_cases t hc
    exact hsettled d hd
  | delete t =>
    obtain ⟨c, -, rfl⟩ := delete_cases t hc
    exact fun hconn => hkeep hstop d hd (removed_of_update (by simp) hconn)
  | stop =>
    obtain ⟨-, rfl⟩ := stop_cases hc
    cases hstop

/-- **The loop stops empty.**  In a run whose steps are clear, each connection
that was accepted is closed and out of the table when the status is `S_STOP`, and
none is accepted later; it is released as well, if every step of the run so far
was settled. -/
theorem stops_empty (userPool : Bool) (as : List (Action n)) (s : Lifecycle n)
    (hclear : Throughout step Clear (initial userPool) as)
    (hrun : as.foldlM step (initial userPool) = some s) (hstop : s.status = .stop) :
    (∀ c ∈ s.accepted, s.conn c = .removed ∨ s.conn c = .released) ∧
      (∀ bs t, Throughout step Clear s bs → bs.foldlM step s = some t →
        t.accepted = s.accepted) ∧
      (Throughout step Settled (initial userPool) as → ∀ c ∈ s.accepted, s.conn c = .released) := by
  have h : s.Drained := Throughout.invariant step Drained Clear drained_step _ s
    (drained_initial userPool) as hclear hrun
  have hd := h.stop hstop
  refine ⟨h.conn hd, fun bs t hclear' hrun' => ?_, fun hsettled c hc => ?_⟩
  · refine (Throughout.invariant step (fun u => u.drained = true ∧ u.accepted = s.accepted) Clear
      ?_ s t ⟨hd, rfl⟩ bs hclear' hrun').2
    rintro u a u' ⟨hu, hacc⟩ ha hc
    obtain ⟨hu', hacc'⟩ := Drained.accepted_step a ha hc hu
    exact ⟨hu', hacc'.trans hacc⟩
  · refine (h.conn hd c hc).resolve_left ?_
    have hkeep := Throughout.invariant step (fun u => u.Drained ∧
      (u.status = .stop → ∀ c ∈ u.accepted, u.conn c ≠ .removed))
      (fun u a => u.Clear a ∧ u.Settled a) ?_ _ s
      ⟨drained_initial userPool, fun hinit => by cases hinit⟩ as (hclear.and step hsettled) hrun
    · exact hkeep.2 hstop c hc
    · rintro u a u' ⟨hu, hkeep⟩ ⟨ha, hs⟩ hc
      exact ⟨drained_step u a u' hu ha hc, hu.settled_step a ha hs hc hkeep⟩

/-- The connection is closed before the stop, and the loop finds no client. -/
def stopWithout : List (Action 1) :=
  oneConnection ++ [.close (some worker) 1, .remove (some worker), .check (some worker),
    .delete (some worker), .stop, .start .endEvents, .start .endSweep, .start .exitCheck,
    .start .exitStore]

theorem stops_empty_one : ∃ s, stopWithout.foldlM step (initial false) = some s ∧
    s.status = .stop ∧ s.accepted = [1] ∧ s.conn 1 = .released := by
  have hrun : (stopWithout.foldlM step (initial false)).map (fun s => (s.status, s.accepted)) =
      some (.stop, [1]) := by decide +kernel
  obtain ⟨s, hs, hstate⟩ := Option.map_eq_some_iff.mp hrun
  simp only [Prod.mk.injEq] at hstate
  obtain ⟨-, -, hreleased⟩ :=
    stops_empty false stopWithout s (by decide +kernel) hs hstate.1
  refine ⟨s, hs, hstate.1, hstate.2, hreleased (by decide +kernel) 1 ?_⟩
  rw [hstate.2]
  exact List.mem_cons_self

/-- The loop has seen `S_RUN` for the second connection when the first, and
last, is closed behind the stop. -/
def acceptLate : List (Action 1) :=
  oneConnection ++ [.start .checkRun, .stop, .close (some worker) 1, .remove (some worker),
    .check (some worker), .store (some worker), .delete (some worker),
    .start (.acceptSocket true), .start .addClient]

theorem stops_with_client : ¬ ∀ s : Lifecycle 1, Reachable step (initial false) s →
    s.status = .stop → ∀ c ∈ s.accepted, s.conn c = .removed ∨ s.conn c = .released := by
  intro hall
  have hrun : (acceptLate.foldlM step (initial false)).map
      (fun s => (s.status, s.accepted, s.conn 2)) = some (.stop, [1, 2], .added) := by
    decide +kernel
  obtain ⟨s, hs, hstate⟩ := Option.map_eq_some_iff.mp hrun
  simp only [Prod.mk.injEq] at hstate
  obtain ⟨hstop, haccepted, hconn⟩ := hstate
  have hclosed := hall s (reachable_of_run step acceptLate hs) hstop 2 (by simp [haccepted])
  rw [hconn] at hclosed
  rcases hclosed with hremoved | hreleased
  · cases hremoved
  · cases hreleased

end Lifecycle

end Ehttp
