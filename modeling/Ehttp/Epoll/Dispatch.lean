import Ehttp.Epoll.Status
import Ehttp.Epoll.Table

/-!
# `handle_event` on the union

`epoll_event::data` is a union.  Clients are registered with `data.ptr`, listen
sockets with `data.fd`, and `handle_event` looks at `data.fd` for both.

* `accepted_iff`: which events are taken for new connections;
* `routed_iff`: when the event of a client goes to its read or write path, and
  `call_handleEvent`: that this is the dispatch of the event loop;
* `safe_descriptors_iff`: when no client can be taken for a new connection.
-/

namespace Ehttp

/-- `data` is `data.ptr`, all 64 bits of the union. -/
structure EpollEvent where
  events : Mask
  data : BitVec 64
  deriving DecidableEq, Repr

/-- `data.fd`: the low half on a little-endian machine. -/
def EpollEvent.fd (e : EpollEvent) : BitVec 32 := e.data.setWidth 32

/-- What `handle_event` reads of the socket; `watcher` is `_watcher != NULL`. -/
structure Dispatcher where
  listenSockets : List (BitVec 32)
  status : ServerStatus
  watcher : Bool := true
  deriving DecidableEq, Repr

inductive Handler
  | acceptEvent (sockfd : BitVec 32)
  | readEvent (ptr : BitVec 64)
  | writeEvent (ptr : BitVec 64)
  deriving DecidableEq, Repr

namespace Dispatcher

/-- The handler that `handle_event` calls, or what it returns without one. -/
def handleEvent (d : Dispatcher) (e : EpollEvent) : Except Int Handler :=
  if e.fd ∈ d.listenSockets then
    if d.status ≠ .run then .error (-1)
    else .ok (.acceptEvent e.fd)
  else if e.events.epollin then .ok (.readEvent e.data)
  else if e.events.epollout then
    if d.watcher then .ok (.writeEvent e.data) else .error 0
  else .error (-1)

/-- `ev.data.fd = sockfd` in `add_listen_sock_to_epoll`; the other half of `ev` is
not initialised. -/
def listenEvent (events : Mask) (sockfd garbage : BitVec 32) : EpollEvent :=
  ⟨events, garbage ++ sockfd⟩

/-- `conn_sock_ev.data.ptr = epoll_context` in `handle_accept_event`. -/
def clientEvent (events : Mask) (context : BitVec 64) : EpollEvent := ⟨events, context⟩

/-- `new` returns addresses that are multiples of 16, and not `NULL`. -/
def IsContext (context : BitVec 64) : Prop := context ≠ 0 ∧ context.toNat % 16 = 0

/-- The event goes to the read or the write path of its context. -/
def Routed (d : Dispatcher) (events : Mask) (context : BitVec 64) : Prop :=
  d.handleEvent (clientEvent events context) = .ok (.readEvent context) ∨
    d.handleEvent (clientEvent events context) = .ok (.writeEvent context)

variable (d : Dispatcher)

theorem accepted_iff (e : EpollEvent) (sockfd : BitVec 32) :
    d.handleEvent e = .ok (.acceptEvent sockfd) ↔
      e.fd = sockfd ∧ sockfd ∈ d.listenSockets ∧ d.status = .run := by
  unfold handleEvent
  constructor
  · intro h
    split at h
    · rename_i hmem
      split at h
      · cases h
      · rename_i hrun
        cases h
        exact ⟨rfl, hmem, not_not.mp hrun⟩
    · split at h
      · cases h
      · split at h
        · split at h <;> cases h
        · cases h
  · rintro ⟨rfl, hmem, hrun⟩
    rw [if_pos hmem, if_neg (not_not.mpr hrun)]

theorem fd_listenEvent (events : Mask) (sockfd garbage : BitVec 32) :
    (listenEvent events sockfd garbage).fd = sockfd := by
  rw [listenEvent, EpollEvent.fd]
  exact BitVec.setWidth_append_eq_right

theorem handleEvent_client (events : Mask) (context : BitVec 64)
    (hfree : (clientEvent events context).fd ∉ d.listenSockets) :
    d.handleEvent (clientEvent events context) =
      if events.epollin then .ok (.readEvent context)
      else if events.epollout then if d.watcher then .ok (.writeEvent context) else .error 0
      else .error (-1) := by
  rw [handleEvent, if_neg hfree]
  rfl

/-- **Routing.**  The event of a client goes to its read or write path exactly
when the low half of the address is no listening descriptor and the event has a
bit for one of the paths; that of a listening socket is always accepted.  The paths
are those of the event loop by `call_handleEvent`. -/
theorem routed_iff (events : Mask) (context : BitVec 64) :
    (d.Routed events context ↔ context.setWidth 32 ∉ d.listenSockets ∧
      (events.epollin ∨ (events.epollout ∧ d.watcher))) ∧
    (d.status = .run → ∀ sockfd ∈ d.listenSockets, ∀ garbage,
      d.handleEvent (listenEvent events sockfd garbage) = .ok (.acceptEvent sockfd)) := by
  refine ⟨?_, fun hrun sockfd hmem garbage => ?_⟩
  · by_cases hmem : context.setWidth 32 ∈ d.listenSockets
    · have hfd : (clientEvent events context).fd ∈ d.listenSockets := hmem
      refine iff_of_false ?_ fun h => h.1 hmem
      rw [Routed, handleEvent, if_pos hfd]
      split <;> simp
    · rw [Routed, d.handleEvent_client events context hmem, and_iff_right hmem]
      cases events.epollin <;> cases events.epollout <;> cases d.watcher <;> simp
  · rw [accepted_iff, fd_listenEvent]
    exact ⟨rfl, hmem, hrun⟩

/-- A listening descriptor 16, and a context whose address ends in it: its input
is taken for a new connection. -/
theorem client_accepted :
    let d : Dispatcher := { listenSockets := [16], status := .run }
    IsContext 0x7f0000000010 ∧
      d.handleEvent (clientEvent { epollin := true } 0x7f0000000010) = .ok (.acceptEvent 16) ∧
      ¬ d.Routed { epollin := true } 0x7f0000000010 := by
  refine ⟨⟨by decide, by decide⟩, by decide, ?_⟩
  unfold Routed
  decide

theorem align_fd (context : BitVec 64) :
    (context.setWidth 32).toNat % 16 = context.toNat % 16 := by
  rw [BitVec.toNat_setWidth]
  omega

/-- The address with the descriptor as its low half and 1 as its high half. -/
theorem exists_context {sockfd : BitVec 32} (halign : sockfd.toNat % 16 = 0) :
    ∃ context, IsContext context ∧ context.setWidth 32 = sockfd := by
  have hlt := sockfd.isLt
  have hnat : (BitVec.ofNat 64 (2 ^ 32 + sockfd.toNat)).toNat = 2 ^ 32 + sockfd.toNat := by
    rw [BitVec.toNat_ofNat]
    omega
  refine ⟨BitVec.ofNat 64 (2 ^ 32 + sockfd.toNat), ⟨?_, by omega⟩, ?_⟩
  · intro hzero
    have hnull : (0 : BitVec 64).toNat = 0 := rfl
    rw [hzero, hnull] at hnat
    omega
  · apply BitVec.eq_of_toNat_eq
    rw [BitVec.toNat_setWidth, hnat]
    omega

/-- **Descriptors.**  No event of a context is taken for a new connection exactly
when no listening descriptor of a running socket is a multiple of 16. -/
theorem safe_descriptors_iff :
    (∀ context, IsContext context → ∀ events sockfd,
      d.handleEvent (clientEvent events context) ≠ .ok (.acceptEvent sockfd)) ↔
    (d.status = .run → ∀ sockfd ∈ d.listenSockets, sockfd.toNat % 16 ≠ 0) := by
  constructor
  · intro h hrun sockfd hmem halign
    obtain ⟨context, hcontext, hlow⟩ := exists_context halign
    exact h context hcontext {} sockfd ((d.accepted_iff _ sockfd).mpr ⟨hlow, hmem, hrun⟩)
  · intro h context hcontext events sockfd haccept
    obtain ⟨hlow, hmem, hrun⟩ := (d.accepted_iff _ sockfd).mp haccept
    refine h hrun sockfd hmem ?_
    have hfd : context.setWidth 32 = sockfd := hlow
    rw [← hfd, align_fd]
    exact hcontext.2

/-! ## The dispatch of the event loop -/

/-- The call of a handler on the table; an accept is a step of its own there. -/
def call (cfg : EpollConfig) (s : Table) : Except Int Handler → Table
  | .ok (.readEvent ptr) => s.multiThreadHandleReadEvent cfg ptr.toNat
  | .ok (.writeEvent ptr) => s.multiThreadHandleWriteEvent cfg ptr.toNat
  | .ok (.acceptEvent _) => s
  | .error _ => s

/-- The dispatch of the event loop, which names contexts and not the union, is
that of `handle_event` on the addresses that are no descriptors. -/
theorem call_handleEvent (cfg : EpollConfig) (s : Table) (events : Mask) (context : BitVec 64)
    (hwatcher : d.watcher = true) (hfree : (clientEvent events context).fd ∉ d.listenSockets) :
    call cfg s (d.handleEvent (clientEvent events context)) =
      s.handleEvent cfg context.toNat events := by
  rw [d.handleEvent_client events context hfree, Table.handleEvent, hwatcher]
  cases events.epollin <;> cases events.epollout <;> rfl

end Dispatcher

end Ehttp
