import Ehttp.Http.Connection

/-!
# Requests on a kept-alive connection

* `served_apart`: requests that arrive in `recv`s of their own, on a connection
  that their responses do not close, are handled one by one, each as if it had
  been parsed alone;
* `glued_requests_mixed`: two requests in one `recv` are not.
-/

namespace Ehttp.Http

open Lib

/-- The request that `parse_request` makes of the bytes alone. -/
def alone (w : Bytes) : Request := ((feed {} [w]).map fun out => out.2.request).getD {}

theorem alone_of_feed {w : Bytes} {xs : List Exit} {s : Reader} (h : feed {} [w] = some (xs, s)) :
    alone w = s.request := by
  rw [alone, h]
  rfl

/-- One keep-alive request, accepted when it is parsed alone. -/
structure KeepAlive (w : Bytes) : Prop where
  wellFormed : ∃ m, OneMessage w m
  accepted : (feed {} [w]).map Prod.fst = some [.ret 0]
  keepalive : (alone w).isKeepalive = true

/-- As many requests are handled as were sent, each with the content it has when
it is parsed alone. -/
def HandledApart (ws : List Bytes) (handled : List Request) : Prop :=
  List.Forall₂ (fun w req => req.Same (alone w)) ws handled

/-- What `recv` returned. -/
def Input.read : Input → List Bytes
  | .recv data => [data]
  | _ => []

namespace Connection

/-- The event is the one that is armed and does not end the connection: a `recv`
of bytes or EINTR, or a `send` that does not fail, with bytes of the response left
(`HttpContext.offered_nil_iff`). -/
def Allows (c : Connection) : Input → Prop
  | .recv _ => c.writing = false
  | .eintr => c.writing = false
  | .closed => False
  | .send (.room _) => c.writing = true ∧ HttpContext.offered ⟨c.reader.request, c.res⟩ ≠ []
  | .send _ => False

/-- Every event is allowed by the state it meets. -/
def Kept (handleRequest : Request → Response → Request × Response) : Connection → List Input → Prop
  | _, [] => True
  | c, i :: is => c.Allows i ∧ ∀ s ∈ c.step handleRequest i, ∀ c' ∈ s.connection, Kept handleRequest c' is

instance decidableAllows (c : Connection) : (i : Input) → Decidable (c.Allows i)
  | .recv _ => inferInstanceAs (Decidable (c.writing = false))
  | .eintr => inferInstanceAs (Decidable (c.writing = false))
  | .closed => inferInstanceAs (Decidable False)
  | .send (.room _) => inferInstanceAs (Decidable (c.writing = true ∧ _ ≠ _))
  | .send .eagain => inferInstanceAs (Decidable False)
  | .send .eintr => inferInstanceAs (Decidable False)

instance decidableKept (handleRequest : Request → Response → Request × Response) :
    (c : Connection) → (is : List Input) → Decidable (Kept handleRequest c is)
  | _, [] => inferInstanceAs (Decidable True)
  | c, i :: is =>
    have := fun c' => decidableKept handleRequest c' is
    inferInstanceAs (Decidable (c.Allows i ∧
      ∀ s ∈ c.step handleRequest i, ∀ c' ∈ s.connection, Kept handleRequest c' is))

end Connection

/-! ## One request -/

/-- The pieces that a request is received in. -/
structure Pieces (g : List Bytes) : Prop where
  request : KeepAlive g.flatten
  nonempty : ∀ p ∈ g, p ≠ []

/-- The pieces that are left of the request `w`, up to its handler. -/
def Comes (r : Reader) (w : Bytes) (pieces : List Bytes) : Prop :=
  ∃ k s, feed r pieces = some (List.replicate k (.ret NEED_MORE_STATUS) ++ [.ret 0], s) ∧
    pieces.length = k + 1 ∧ s.request.Same (alone w)

/-- **However it is cut**, a request is what it is alone. -/
theorem Pieces.comes {g : List Bytes} (h : Pieces g) : Comes {} g.flatten g := by
  obtain ⟨m, hm⟩ := h.request.wellFormed
  obtain ⟨k₁, s₁, hfeed₁, hsame₁, -⟩ :=
    feed_message hm [g.flatten] (by simpa using hm.nonempty) (List.flatten_singleton ..)
  have hverdict : m.verdict = .ret 0 := by
    have hret := h.request.accepted
    rw [hfeed₁, Option.map_some, Option.some.injEq] at hret
    have hlast := congrArg List.getLast? hret
    simpa using hlast
  have hsmall := (verdict_zero hverdict).2.1
  obtain ⟨k, s, hfeed, hsame, hlength⟩ := feed_message hm g h.nonempty rfl
  rw [hverdict] at hfeed
  refine ⟨k, s, hfeed, hlength hverdict, ?_⟩
  rw [alone_of_feed hfeed₁]
  exact ⟨(hsame hsmall).line.trans (hsame₁ hsmall).line.symm,
    (hsame hsmall).headers.trans (hsame₁ hsmall).headers.symm,
    (hsame hsmall).body.trans (hsame₁ hsmall).body.symm⟩

theorem isKeepalive_same {r r' : Request} (h : r.Same r') : r.isKeepalive = r'.isKeepalive := by
  rw [Request.isKeepalive, Request.isKeepalive, h.header]

/-! ## The connection -/

namespace Connection

/-- A connection on which the requests `groups` are not handled yet, the `recv`s
`reads` among them not made. -/
inductive Awaits : Connection → List (List Bytes) → List Bytes → Prop
  | idle {c : Connection} : c.writing = false → Awaits c [] []
  | reading {c : Connection} {g pieces : List Bytes} {groups : List (List Bytes)} :
    c.writing = false → KeepAlive g.flatten → Comes c.reader g.flatten pieces →
    (∀ g ∈ groups, Pieces g) → Awaits c (g :: groups) (pieces ++ groups.flatten)
  | writing {c : Connection} {groups : List (List Bytes)} :
    c.writing = true → c.reader.request.isKeepalive = true → (∀ g ∈ groups, Pieces g) →
    Awaits c groups groups.flatten

theorem Awaits.fresh {groups : List (List Bytes)} (h : ∀ g ∈ groups, Pieces g) :
    Awaits {} groups groups.flatten := by
  cases groups with
  | nil => exact .idle rfl
  | cons g groups =>
    have hg := h g (List.mem_cons_self ..)
    exact .reading rfl hg.request hg.comes fun g hg => h g (List.mem_cons_of_mem _ hg)

/-- When all is read, all is handled. -/
theorem Awaits.done {c : Connection} {groups : List (List Bytes)} (h : Awaits c groups []) :
    groups = [] := by
  generalize hreads : ([] : List Bytes) = reads at h
  cases h with
  | idle => rfl
  | @reading g pieces groups _ _ hcomes _ =>
    obtain ⟨k, s, -, hlength, -⟩ := hcomes
    rw [(List.append_eq_nil_iff.mp hreads.symm).1] at hlength
    cases hlength
  | writing _ _ hpieces =>
    cases groups with
    | nil => rfl
    | cons g groups =>
      obtain ⟨k, s, -, hlength, -⟩ := (hpieces g (List.mem_cons_self ..)).comes
      rw [List.flatten_cons] at hreads
      rw [(List.append_eq_nil_iff.mp hreads.symm).1] at hlength
      cases hlength

section Step

variable {handleRequest : Request → Response → Request × Response}
  (hhandler : ∀ req res, (handleRequest req res).1.isKeepalive = req.isKeepalive)
  {c : Connection} {groups : List (List Bytes)} {reads more : List Bytes}

/-- What a step leaves of the requests. -/
def Goes (handleRequest : Request → Response → Request × Response) (c : Connection) (i : Input)
    (groups : List (List Bytes)) (more : List Bytes) : Prop :=
  ∃ s c' front rest, c.step handleRequest i = some s ∧ s.connection = some c' ∧
    groups = front ++ rest ∧ HandledApart (front.map List.flatten) s.handled ∧ Awaits c' rest more

include hhandler in
theorem Awaits.recv {data : Bytes} (h : Awaits c groups (data :: more)) (hread : c.writing = false) :
    Goes handleRequest c (.recv data) groups more := by
  generalize hreads : data :: more = reads at h
  obtain ⟨reader, res, writing⟩ := c
  cases h with
  | idle => cases hreads
  | @reading g pieces groups _ hkeep hcomes hpieces =>
    obtain ⟨k, s, hfeed, hlength, hsame⟩ := hcomes
    obtain ⟨piece, pieces, rfl⟩ := List.exists_cons_of_length_eq_add_one hlength
    rw [List.cons_append, List.cons.injEq] at hreads
    obtain ⟨rfl, rfl⟩ := hreads
    obtain rfl : writing = false := hread
    rcases feed_cons_accepted hfeed with ⟨t, j, rfl, hparse, hrest⟩ | ⟨rfl, hparse⟩
    · refine ⟨_, _, [], g :: groups, step_more handleRequest res hparse, rfl, rfl, .nil, ?_⟩
      exact .reading rfl hkeep ⟨j, s, hrest, by simpa using hlength, hsame⟩ hpieces
    · obtain rfl : pieces = [] := by simpa using hlength
      refine ⟨_, _, [g], groups, step_over handleRequest res hparse, rfl, rfl, .cons hsame .nil, ?_⟩
      refine .writing rfl ?_ hpieces
      rw [hhandler, isKeepalive_same hsame]
      exact hkeep.keepalive
  | writing hwrite =>
    rw [hread] at hwrite
    cases hwrite

theorem Awaits.eintr (h : Awaits c groups more) (hread : c.writing = false) :
    Goes handleRequest c .eintr groups more := by
  have hstep : step handleRequest c .eintr = some ⟨[], [], some c⟩ := by
    simp only [step, hread]
    rfl
  exact ⟨_, c, [], groups, hstep, rfl, rfl, .nil, h⟩

theorem Awaits.send {m : Nat} (h : Awaits c groups more) (hwrite : c.writing = true)
    (hoffered : HttpContext.offered ⟨c.reader.request, c.res⟩ ≠ []) :
    Goes handleRequest c (.send (.room m)) groups more := by
  cases h with
  | idle hread | reading hread =>
    rw [hwrite] at hread
    cases hread
  | writing _ hkeep hpieces =>
    have hopen : (HttpContext.onWriteable ⟨c.reader.request, c.res⟩ (.room m)).1 ≠ .connClose := by
      intro hclose
      rcases (HttpContext.onWriteable_closes_iff _ _ hkeep).mp hclose with hnone | hfail
      · exact hoffered hnone
      · exact hfail m rfl
    cases hret : (HttpContext.onWriteable ⟨c.reader.request, c.res⟩ (.room m)).1 with
    | connClose => exact absurd hret hopen
    | connContinue =>
      let out := HttpContext.onWriteable ⟨c.reader.request, c.res⟩ (.room m)
      have hstep : step handleRequest c (.send (.room m)) =
          some ⟨[], out.2.2, some ⟨⟨c.reader.parser, out.2.1.req⟩, out.2.1.res, true⟩⟩ := by
        simp only [step, hwrite, hret]
        rfl
      refine ⟨_, _, [], groups, hstep, rfl, rfl, .nil, .writing rfl ?_ hpieces⟩
      exact (HttpContext.isKeepalive_onWriteable _ _ hret).trans hkeep
    | connAlive =>
      let out := HttpContext.onWriteable ⟨c.reader.request, c.res⟩ (.room m)
      have hstep : step handleRequest c (.send (.room m)) = some ⟨[], out.2.2, some {}⟩ := by
        simp only [step, hwrite, hret, onWriteable_alive hret]
        rfl
      exact ⟨_, _, [], groups, hstep, rfl, rfl, .nil, .fresh hpieces⟩

include hhandler in
/-- **One event.** -/
theorem Awaits.step {i : Input} (h : Awaits c groups (i.read ++ more)) (hallows : c.Allows i) :
    Goes handleRequest c i groups more := by
  cases i with
  | recv data => exact h.recv hhandler hallows
  | eintr => exact h.eintr hallows
  | closed => cases hallows
  | send o =>
    cases o with
    | room m => exact h.send hallows.1 hallows.2
    | eagain | eintr => cases hallows

include hhandler in
/-- **Event after event.** -/
theorem Awaits.run {is : List Input} (h : Awaits c groups (is.flatMap Input.read ++ more))
    (hkept : Kept handleRequest c is) :
    ∃ s c' front rest, Connection.run handleRequest (some c) is = some s ∧ s.connection = some c' ∧
      groups = front ++ rest ∧ HandledApart (front.map List.flatten) s.handled ∧
      Awaits c' rest more := by
  induction is generalizing c groups with
  | nil => exact ⟨_, c, [], groups, rfl, rfl, rfl, .nil, h⟩
  | cons i is ih =>
    rw [List.flatMap_cons, List.append_assoc] at h
    obtain ⟨s, c₁, front, rest, hstep, hconnection, rfl, hhandled, hawaits⟩ := h.step hhandler hkept.1
    obtain ⟨t, c₂, front', rest', hrun, hopen, rfl, hhandled', hawaits'⟩ :=
      ih hawaits (hkept.2 s hstep c₁ hconnection)
    refine ⟨s.andThen t, c₂, front ++ front', rest', ?_, hopen, by rw [List.append_assoc], ?_, hawaits'⟩
    · rw [Connection.run, hstep, Option.bind_some, hconnection, hrun]
      rfl
    · rw [List.map_append]
      exact List.rel_append hhandled hhandled'

end Step

end Connection

/-- **Requests apart.**  When no `recv` returns bytes of two requests, and no `send`
up to the last request fails or has nothing to send: the connection stays open, and
the requests that are in are handled, each with what it is alone.  A handler does not
change what the request says about keep-alive. -/
theorem served_apart (handleRequest : Request → Response → Request × Response)
    (hhandler : ∀ req res, (handleRequest req res).1.isKeepalive = req.isKeepalive)
    (groups : List (List Bytes)) (hrequests : ∀ g ∈ groups, KeepAlive g.flatten)
    (hne : ∀ g ∈ groups, ∀ p ∈ g, p ≠ []) (is : List Input)
    (hreads : is.flatMap Input.read <+: groups.flatten)
    (hkept : Connection.Kept handleRequest {} is) :
    ∃ s c front rest, Connection.run handleRequest (some {}) is = some s ∧ s.connection = some c ∧
      groups = front ++ rest ∧ HandledApart (front.map List.flatten) s.handled ∧
      (is.flatMap Input.read = groups.flatten → rest = []) := by
  obtain ⟨more, hmore⟩ := hreads
  have hfresh := Connection.Awaits.fresh fun g hg => (⟨hrequests g hg, hne g hg⟩ : Pieces g)
  rw [← hmore] at hfresh
  obtain ⟨s, c, front, rest, hrun, hopen, hsplit, hhandled, hawaits⟩ := hfresh.run hhandler hkept
  refine ⟨s, c, front, rest, hrun, hopen, hsplit, hhandled, fun hall => ?_⟩
  rw [hall, List.append_right_eq_self] at hmore
  rw [hmore] at hawaits
  exact hawaits.done

/-- A legal request on a kept connection. -/
theorem Wire.keepAlive {w : Wire} (h : w.Legal) (hacc : w.Acceptable)
    (hkeep : strcaseeq (w.header (bytes "Connection")) (bytes "keep-alive") = true) :
    KeepAlive w.text := by
  have hone := oneMessage_wire w h
  have hpieces : ∀ p ∈ [w.text], p ≠ [] := by simpa using hone.nonempty
  obtain ⟨k, s, hfeed, hlength, harrived⟩ :=
    accepted_arrives h hacc hpieces (List.flatten_singleton ..)
  obtain rfl : k = 0 := by simpa using hlength.symm
  refine ⟨⟨_, hone⟩, by rw [hfeed]; rfl, ?_⟩
  rw [alone_of_feed hfeed, Request.isKeepalive, harrived.header]
  exact hkeep

/-- `GET` on a connection that is kept. -/
def keepAliveGet (url : Bytes) : Wire := { keepAliveWire with head := { keepAliveWire.head with url } }

theorem keepAliveGet_keepAlive {url : Bytes} (hurl : acceptsUrl url = true)
    (hsmall : (keepAliveGet url).text.length ≤ 4096) : KeepAlive (keepAliveGet url).text := by
  have hhead : (keepAliveGet url).headText.length ≤ (keepAliveGet url).text.length := by
    rw [Wire.text, List.length_append]
    exact Nat.le_add_right ..
  have hmax : 4096 ≤ maxHeaderSize ∧ 4096 ≤ MAX_REQ_SIZE := by decide
  have hlegal : (keepAliveGet url).Legal :=
    ⟨⟨keepAliveWire_legal.head.method, hurl⟩, keepAliveWire_legal.framed, by omega⟩
  have hkeep : strcaseeq (keepAliveWire.header (bytes "Connection")) (bytes "keep-alive") = true := by
    decide
  exact Wire.keepAlive hlegal
    ⟨⟨by simp [keepAliveGet, keepAliveWire], Or.inl rfl, by omega⟩, fun hpost => by cases hpost⟩ hkeep

/-- `GET /a` in two pieces, its response in one, `GET /b`. -/
theorem served_apart_two :
    let a := [bytes "GET /a HTTP/1.1\x0d\x0aConn", bytes "ection: keep-alive\x0d\x0a\x0d\x0a"]
    let b := [bytes "GET /b HTTP/1.1\x0d\x0aConnection: keep-alive\x0d\x0a\x0d\x0a"]
    ∃ s, Connection.run oneByte (some {})
        [.recv a[0], .eintr, .recv a[1], .send (.room 4095), .recv b[0]] = some s ∧
      HandledApart [a.flatten, b.flatten] s.handled := by
  intro a b
  have ha : a.flatten = (keepAliveGet (bytes "/a")).text := by decide
  have hb : b.flatten = (keepAliveGet (bytes "/b")).text := by decide
  have hrequests : ∀ g ∈ [a, b], KeepAlive g.flatten := by
    intro g hg
    simp only [List.mem_cons, List.not_mem_nil, or_false] at hg
    rcases hg with rfl | rfl
    · rw [ha]
      exact keepAliveGet_keepAlive (by decide) (by decide)
    · rw [hb]
      exact keepAliveGet_keepAlive (by decide) (by decide)
  obtain ⟨s, c, front, rest, hrun, -, hsplit, hhandled, hall⟩ :=
    served_apart oneByte (fun _ _ => rfl) [a, b] hrequests (by decide)
      [.recv a[0], .eintr, .recv a[1], .send (.room 4095), .recv b[0]] ⟨[], by decide⟩ (by decide +kernel)
  rw [hall (by decide), List.append_nil] at hsplit
  subst hsplit
  exact ⟨s, hrun, hhandled⟩

/-- The same requests in one `recv`: one request is handled, for `/a/b`. -/
theorem glued_requests_mixed :
    let a := (keepAliveGet (bytes "/a")).text
    let b := (keepAliveGet (bytes "/b")).text
    KeepAlive a ∧ KeepAlive b ∧
      ((Connection.run oneByte (some {}) [.recv (a ++ b)]).map fun s =>
        s.handled.map fun req => req.line.requestUrl) = some [bytes "/a/b"] ∧
      ¬ ∃ s, Connection.run oneByte (some {}) [.recv (a ++ b)] = some s ∧
        HandledApart [a, b] s.handled := by
  intro a b
  have hurl : ((Connection.run oneByte (some {}) [.recv (a ++ b)]).map fun s =>
      s.handled.map fun req => req.line.requestUrl) = some [bytes "/a/b"] := by decide +kernel
  refine ⟨keepAliveGet_keepAlive (by decide) (by decide), keepAliveGet_keepAlive (by decide) (by decide),
    hurl, ?_⟩
  rintro ⟨s, hrun, happart⟩
  rw [hrun, Option.map_some, Option.some.injEq] at hurl
  have hlength := congrArg List.length hurl
  rw [List.length_map, ← happart.length_eq] at hlength
  cases hlength

end Ehttp.Http
