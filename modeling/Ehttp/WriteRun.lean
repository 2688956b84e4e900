import Ehttp.Writer

/-!
# The calls of `on_writeable` for one response

* `accepted_exactly`: with no failed `send`, and with the last, short block
  taken in one piece, the socket gets the response, once and in order;
* `fate_agrees_exactly`: when the connection ends the way the response said.

Positions below `2 ^ 31` are those the `int` in `rollback` holds.
-/

namespace Ehttp

open Lib

structure WriteRun where
  /-- accepted by the socket, call by call -/
  sent : List Bytes
  /-- how often `gen_response` ran -/
  generated : Nat
  /-- the code of the last call, when it is not `WRITE_CONN_CONTINUE` -/
  ended : Option WriteRet
  hc : HttpContext

/-- The run with its text generated by the first call. -/
def WriteRun.generatedOnce (r : WriteRun) : WriteRun := { r with generated := 1 }

@[simp] theorem WriteRun.generatedOnce_sent (r : WriteRun) : r.generatedOnce.sent = r.sent := rfl
@[simp] theorem WriteRun.generatedOnce_ended (r : WriteRun) : r.generatedOnce.ended = r.ended := rfl
@[simp] theorem WriteRun.generatedOnce_hc (r : WriteRun) : r.generatedOnce.hc = r.hc := rfl

/-- `WRITE_CONN_CONTINUE` re-arms the socket for writing, so the next outcome
meets the same response; any other code ends the run. -/
def writeRun : HttpContext → List SendOutcome → WriteRun
  | hc, [] => ⟨[], 0, none, hc⟩
  | hc, o :: os =>
    let (ret, hc', accepted) := hc.onWriteable o
    let gen := if !hc.res.isWrited then 1 else 0
    if ret = .connContinue then
      let r := writeRun hc' os
      ⟨accepted :: r.sent, gen + r.generated, r.ended, r.hc⟩
    else ⟨[accepted], gen, some ret, hc'⟩

namespace HttpContext

variable (hc : HttpContext)

theorem isWrited_sentUpTo (p : Nat) : (hc.sentUpTo p).res.isWrited = true := rfl

/-- A full block: the run goes on from the new position. -/
theorem writeRun_block (p m : Nat) (os : List SendOutcome) (hp : 4096 ≤ hc.responseText.length - p)
    (hint : 4096 ≤ m + 1 ∨ p + 4096 < 2 ^ 31) :
    writeRun (hc.sentUpTo p) (.room m :: os) =
      let r := writeRun (hc.sentUpTo (p + min (m + 1) 4096)) os
      ⟨(hc.responseText.drop p).take (min (m + 1) 4096) :: r.sent, r.generated, r.ended, r.hc⟩ := by
  simp [writeRun, hc.onWriteable_block p m hp hint, isWrited_sentUpTo]

/-- Any other code ends the run. -/
theorem writeRun_end (p : Nat) (o : SendOutcome) (os : List SendOutcome)
    (h : ((hc.sentUpTo p).onWriteable o).1 ≠ .connContinue) :
    writeRun (hc.sentUpTo p) (o :: os) =
      ⟨[((hc.sentUpTo p).onWriteable o).2.2], 0, some ((hc.sentUpTo p).onWriteable o).1,
        ((hc.sentUpTo p).onWriteable o).2.1⟩ := by
  simp [writeRun, h, isWrited_sentUpTo]

/-- The generated text is never generated again. -/
theorem generated_of_isWrited (os : List SendOutcome) :
    ∀ hc : HttpContext, hc.res.isWrited = true → (writeRun hc os).generated = 0 := by
  induction os with
  | nil => intro hc _; rfl
  | cons o os ih =>
    intro hc hw
    simp only [writeRun, hw]
    by_cases h : (hc.onWriteable o).1 = .connContinue
    · simp [h, ih _ (hc.isWrited_onWriteable o h hw)]
    · simp [h]

theorem writeRun_sent_ne_nil (o : SendOutcome) (os : List SendOutcome) :
    (writeRun hc (o :: os)).sent ≠ [] := by
  simp only [writeRun]
  split <;> simp

/-- The first call generates, and goes on as a call in the middle does. -/
theorem writeRun_first (req : Request) (codeMsg : CodeMsg) (body : Bytes)
    (headers : StdMap Bytes Bytes) (o : SendOutcome) (os : List SendOutcome) :
    writeRun (answered req codeMsg body headers) (o :: os) =
      (writeRun ((answered req codeMsg body headers).sentUpTo 0) (o :: os)).generatedOnce := by
  have hw : (answered req codeMsg body headers).res.isWrited = false := rfl
  simp only [writeRun, onWriteable_first, hw, WriteRun.generatedOnce]
  split
  · rename_i h
    simp [generated_of_isWrited os _ (isWrited_onWriteable _ o h rfl)]
  · simp

end HttpContext

/-! ## No byte lost, repeated or reordered -/

/-- The socket has a prefix of `text` after every call, and all of it when the
run is over. -/
structure Delivers (r : WriteRun) (text : Bytes) : Prop where
  isPrefix : ∀ k, (r.sent.take k).flatten <+: text
  whole : r.ended ≠ none → r.sent.flatten = text

/-- The text is generated once, at the first call, and delivered. -/
structure Delivered (r : WriteRun) (text : Bytes) : Prop extends Delivers r text where
  once : r.generated = if r.sent = [] then 0 else 1

/-- No `send` fails, a block shorter than the buffer is taken in one piece, and
a full block cut short ends below `INT_MAX`.  `n` is the length of the
response and `p` what was accepted before; at `p = n` nothing is sent. -/
def Deliverable (n : Nat) : Nat → List SendOutcome → Prop
  | _, [] => True
  | p, .room m :: os =>
    if p = n then True
    else if n - p < 4096 then n - p ≤ m + 1
    else (4096 ≤ m + 1 ∨ p + 4096 < 2 ^ 31) ∧ Deliverable n (p + min (m + 1) 4096) os
  | p, .eagain :: _ => p = n
  | p, .eintr :: _ => p = n

namespace HttpContext

variable (hc : HttpContext)

theorem take_eq_self_iff (t : Bytes) (k : Nat) : t.take k = t ↔ t.length ≤ k := by
  refine ⟨?_, List.take_of_length_le⟩
  intro e
  have := congrArg List.length e
  simp only [List.length_take] at this
  omega

/-- One call, then the rest of the run. -/
theorem delivers_cons (r : WriteRun) (text : Bytes) (k g : Nat) :
    Delivers ⟨text.take k :: r.sent, g, r.ended, r.hc⟩ text ↔ Delivers r (text.drop k) := by
  have hsplit : ∀ s : Bytes, text.take k ++ s <+: text ↔ s <+: text.drop k := by
    intro s
    have e : text.take k ++ s <+: text.take k ++ text.drop k ↔ s <+: text.drop k :=
      List.prefix_append_right_inj _
    rwa [List.take_append_drop] at e
  have hall : ∀ s : Bytes, text.take k ++ s = text ↔ s = text.drop k := by
    intro s
    have e := List.append_cancel_left_eq (text.take k) s (text.drop k)
    rw [List.take_append_drop] at e
    exact iff_of_eq e
  constructor
  · rintro ⟨hpre, hwhole⟩
    refine ⟨?_, fun h => (hall _).mp (hwhole h)⟩
    intro j
    exact (hsplit _).mp (hpre (j + 1))
  · rintro ⟨hpre, hwhole⟩
    refine ⟨?_, fun h => (hall _).mpr (hwhole h)⟩
    intro j
    cases j with
    | zero => exact List.nil_prefix
    | succ j => exact (hsplit _).mpr (hpre j)

/-- One full block, then the rest of the run. -/
theorem delivers_block (p m : Nat) (os : List SendOutcome)
    (hp : 4096 ≤ hc.responseText.length - p) (hint : 4096 ≤ m + 1 ∨ p + 4096 < 2 ^ 31) :
    Delivers (writeRun (hc.sentUpTo p) (.room m :: os)) (hc.responseText.drop p) ↔
      Delivers (writeRun (hc.sentUpTo (p + min (m + 1) 4096)) os)
        (hc.responseText.drop (p + min (m + 1) 4096)) := by
  rw [hc.writeRun_block p m os hp hint, ← List.drop_drop]
  exact delivers_cons _ _ _ _

/-- A call that ends the run has to deliver all that is left. -/
theorem delivers_end (p : Nat) (o : SendOutcome) (os : List SendOutcome)
    (h : ((hc.sentUpTo p).onWriteable o).1 ≠ .connContinue) :
    Delivers (writeRun (hc.sentUpTo p) (o :: os)) (hc.responseText.drop p) ↔
      ((hc.sentUpTo p).onWriteable o).2.2 = hc.responseText.drop p := by
  rw [hc.writeRun_end p o os h]
  constructor
  · rintro ⟨-, hwhole⟩
    simpa using hwhole (by simp)
  · intro e
    refine ⟨?_, fun _ => by simpa using e⟩
    intro k
    cases k with
    | zero => exact List.nil_prefix
    | succ k => simp [e]

/-- **Exactly when.**  The right-to-left direction holds for every length. -/
theorem delivers_iff (os : List SendOutcome) :
    ∀ p, p ≤ hc.responseText.length →
      (Deliverable hc.responseText.length p os →
        Delivers (writeRun (hc.sentUpTo p) os) (hc.responseText.drop p)) ∧
      (hc.responseText.length < 2 ^ 31 →
        Delivers (writeRun (hc.sentUpTo p) os) (hc.responseText.drop p) →
        Deliverable hc.responseText.length p os) := by
  induction os with
  | nil =>
    intro p _
    exact ⟨fun _ => ⟨by simp [writeRun], by simp [writeRun]⟩, fun _ _ => trivial⟩
  | cons o os ih =>
    intro p hp
    by_cases hn : p = hc.responseText.length
    · -- nothing is left: the call closes without a `send`
      obtain ⟨hret, hacc⟩ := hc.onWriteable_empty p o hn
      have hend := hc.delivers_end p o os (by rw [hret]; decide)
      refine ⟨fun _ => hend.mpr ?_, fun _ _ => ?_⟩
      · rw [hacc, hn, List.drop_length]
      · cases o <;> simp [Deliverable, hn]
    · have hne : hc.responseText.drop p ≠ [] := by
        simp only [ne_eq, List.drop_eq_nil_iff]; omega
      by_cases ho : ∀ m, o ≠ .room m
      · -- a failed `send` closes with bytes left
        obtain ⟨hret, hacc⟩ := hc.onWriteable_fail p o hp ho
        have hend := hc.delivers_end p o os (by rw [hret]; decide)
        rw [hacc] at hend
        have hnot : ¬ Deliverable hc.responseText.length p (o :: os) := by
          cases o with
          | room m => exact absurd rfl (ho m)
          | eagain => exact hn
          | eintr => exact hn
        exact ⟨fun h => absurd h hnot, fun _ h => absurd (hend.mp h).symm hne⟩
      · obtain ⟨m, rfl⟩ : ∃ m, o = .room m := by
          simpa using ho
        simp only [Deliverable, hn, ↓reduceIte]
        by_cases hl : hc.responseText.length - p < 4096
        · obtain ⟨hret, hacc, -⟩ := hc.onWriteable_last p m (by omega) hl
          have hend := hc.delivers_end p (.room m) os (by rw [hret]; split <;> decide)
          rw [hacc, take_eq_self_iff, List.length_drop] at hend
          simp only [hl, ↓reduceIte]
          exact ⟨hend.mpr, fun _ => hend.mp⟩
        · have hp' : 4096 ≤ hc.responseText.length - p := by omega
          obtain ⟨hif, honly⟩ := ih (p + min (m + 1) 4096) (by omega)
          simp only [hl, ↓reduceIte]
          refine ⟨?_, ?_⟩
          · rintro ⟨hint, hrest⟩
            exact (hc.delivers_block p m os hp' hint).mpr (hif hrest)
          · intro hlen hdel
            have hint : 4096 ≤ m + 1 ∨ p + 4096 < 2 ^ 31 := Or.inr (by omega)
            exact ⟨hint, honly hlen ((hc.delivers_block p m os hp' hint).mp hdel)⟩

end HttpContext

theorem delivered_generated (r : WriteRun) (text : Bytes) (h : r.generatedOnce.sent ≠ []) :
    Delivered r.generatedOnce text ↔ Delivers r text :=
  ⟨fun ⟨⟨hpre, hwhole⟩, _⟩ => ⟨hpre, hwhole⟩,
    fun ⟨hpre, hwhole⟩ => ⟨⟨hpre, hwhole⟩, (if_neg h).symm⟩⟩

/-- **Accepted exactly.**  A run delivers its response if no `send` fails, the
last, short block is taken in one piece and a block cut short ends below
`INT_MAX`; a response shorter than 2 GiB is delivered only then. -/
theorem accepted_exactly (req : Request) (codeMsg : CodeMsg) (body : Bytes)
    (headers : StdMap Bytes Bytes) (outs : List SendOutcome) :
    let hc := HttpContext.answered req codeMsg body headers
    (Deliverable hc.responseText.length 0 outs →
      Delivered (writeRun hc outs) hc.responseText) ∧
    (hc.responseText.length < 2 ^ 31 → Delivered (writeRun hc outs) hc.responseText →
      Deliverable hc.responseText.length 0 outs) := by
  intro hc
  cases outs with
  | nil =>
    refine ⟨fun _ => ⟨⟨?_, ?_⟩, rfl⟩, fun _ _ => trivial⟩
    · intro k; simp [writeRun]
    · intro h; exact absurd rfl h
  | cons o os =>
    have hrun := HttpContext.writeRun_first req codeMsg body headers o os
    have hsent : (writeRun hc (o :: os)).sent ≠ [] := hc.writeRun_sent_ne_nil o os
    obtain ⟨hif, honly⟩ := hc.delivers_iff (o :: os) 0 (Nat.zero_le _)
    change writeRun hc (o :: os) = (writeRun (hc.sentUpTo 0) (o :: os)).generatedOnce at hrun
    clear_value hc
    rw [List.drop_zero] at hif honly
    rw [hrun] at hsent ⊢
    rw [delivered_generated _ _ hsent]
    exact ⟨hif, honly⟩

/-- A one-byte answer to `GET /`: a socket with room for one byte, or none for
now, loses the rest of it. -/
theorem rest_lost :
    let hc := HttpContext.answered
      { line := { method := bytes "GET", requestUrl := bytes "/", httpVersion := bytes "HTTP/1.1" } }
      STATUS_OK (bytes "x") []
    ¬ Delivered (writeRun hc [.room 0]) hc.responseText ∧
      ¬ Delivered (writeRun hc [.eagain]) hc.responseText := by
  refine ⟨?_, ?_⟩
  · intro h
    exact absurd (h.whole (by decide +kernel)) (by decide +kernel)
  · intro h
    exact absurd (h.whole (by decide +kernel)) (by decide +kernel)

/-! ## The fate announced and the fate of the connection

The sends below never fail: `rooms i` bounds what the `i`-th can take. -/

def outcomes (rooms : Nat → Nat) (n : Nat) : List SendOutcome :=
  (List.range n).map (fun i => .room (rooms i))

/-- Where the `i`-th block starts, as long as the blocks before it are full. -/
def blockStart (rooms : Nat → Nat) : Nat → Nat
  | 0 => 0
  | i + 1 => blockStart rooms i + min (rooms i + 1) 4096

/-- The first block that does not fill the buffer, in a response of `n` bytes. -/
def LastBlock (n : Nat) (rooms : Nat → Nat) (i : Nat) : Prop :=
  n < blockStart rooms i + 4096 ∧ ∀ j < i, blockStart rooms j + 4096 ≤ n

theorem outcomes_split (rooms : Nat → Nat) (i k : Nat) : ∃ os,
    outcomes rooms (i + 1 + k) = outcomes rooms i ++ .room (rooms i) :: os := by
  refine ⟨(List.range k).map (fun j => .room (rooms (i + 1 + j))), ?_⟩
  simp only [outcomes, List.range_add, List.range_succ, List.map_append, List.map_map,
    List.map_cons, List.append_assoc, List.singleton_append]
  rfl

theorem le_blockStart (rooms : Nat → Nat) (i : Nat) : i ≤ blockStart rooms i := by
  induction i with
  | zero => exact Nat.le_refl 0
  | succ i ih => simp only [blockStart]; omega

theorem LastBlock.start_le {n i : Nat} {rooms : Nat → Nat} (h : LastBlock n rooms i) :
    blockStart rooms i ≤ n := by
  cases i with
  | zero => exact Nat.zero_le n
  | succ i =>
    have := h.2 i (Nat.lt_succ_self i)
    simp only [blockStart]
    omega

theorem LastBlock.unique {n i j : Nat} {rooms : Nat → Nat} (hi : LastBlock n rooms i)
    (hj : LastBlock n rooms j) : i = j := by
  rcases Nat.lt_trichotomy i j with h | h | h
  · have := hj.2 i h
    have := hi.1
    omega
  · exact h
  · have := hi.2 j h
    have := hj.1
    omega

theorem exists_lastBlock (n : Nat) (rooms : Nat → Nat) : ∃ i, LastBlock n rooms i := by
  have search : ∀ k, (∃ i, LastBlock n rooms i) ∨ ∀ j < k, blockStart rooms j + 4096 ≤ n := by
    intro k
    induction k with
    | zero => exact Or.inr (fun j hj => absurd hj (Nat.not_lt_zero j))
    | succ k ih =>
      rcases ih with h | h
      · exact Or.inl h
      · by_cases hk : n < blockStart rooms k + 4096
        · exact Or.inl ⟨k, hk, h⟩
        · refine Or.inr (fun j hj => ?_)
          rcases Nat.lt_succ_iff_lt_or_eq.mp hj with hj | rfl
          · exact h j hj
          · omega
  rcases search (n + 1) with h | h
  · exact h
  · have := h n (Nat.lt_succ_self n)
    have := le_blockStart rooms n
    omega

/-- No full block cut short ends at `INT_MAX` or above. -/
def NoOverrun (rooms : Nat → Nat) (i : Nat) : Prop :=
  ∀ j < i, 4096 ≤ rooms j + 1 ∨ blockStart rooms j + 4096 < 2 ^ 31

namespace HttpContext

variable (hc : HttpContext)

/-- The full blocks before the last one. -/
theorem writeRun_blocks (rooms : Nat → Nat) (i : Nat) (hno : NoOverrun rooms i)
    (hfull : ∀ j < i, blockStart rooms j + 4096 ≤ hc.responseText.length) (os : List SendOutcome) :
    (writeRun (hc.sentUpTo 0) (outcomes rooms i ++ os)).ended =
        (writeRun (hc.sentUpTo (blockStart rooms i)) os).ended ∧
      (writeRun (hc.sentUpTo 0) (outcomes rooms i ++ os)).hc =
        (writeRun (hc.sentUpTo (blockStart rooms i)) os).hc ∧
      (writeRun (hc.sentUpTo 0) (outcomes rooms i ++ os)).sent.flatten =
        hc.responseText.take (blockStart rooms i) ++
          (writeRun (hc.sentUpTo (blockStart rooms i)) os).sent.flatten := by
  induction i generalizing os with
  | zero => exact ⟨rfl, rfl, rfl⟩
  | succ i ih =>
    have hi := hfull i (Nat.lt_succ_self i)
    obtain ⟨hended, hhc, hsent⟩ := ih (fun j hj => hno j (Nat.lt_succ_of_lt hj))
      (fun j hj => hfull j (Nat.lt_succ_of_lt hj)) (.room (rooms i) :: os)
    have hblock := hc.writeRun_block (blockStart rooms i) (rooms i) os (by omega)
      (hno i (Nat.lt_succ_self i))
    have hos : outcomes rooms (i + 1) ++ os = outcomes rooms i ++ .room (rooms i) :: os := by
      simp [outcomes, List.range_succ]
    rw [hblock] at hended hhc hsent
    rw [hos, hended, hhc, hsent]
    refine ⟨rfl, rfl, ?_⟩
    simp only [blockStart, List.flatten_cons, ← List.append_assoc, ← List.take_add]

/-- **The whole run.**  It goes on up to the last block and ends with it. -/
theorem writeRun_outcomes (rooms : Nat → Nat) (i : Nat)
    (hi : LastBlock hc.responseText.length rooms i) (hno : NoOverrun rooms i) (n : Nat) :
    (n ≤ i → (writeRun (hc.sentUpTo 0) (outcomes rooms n)).ended = none) ∧
    (i < n →
      let call := (hc.sentUpTo (blockStart rooms i)).onWriteable (.room (rooms i))
      (writeRun (hc.sentUpTo 0) (outcomes rooms n)).ended = some call.1 ∧
      (writeRun (hc.sentUpTo 0) (outcomes rooms n)).hc = call.2.1 ∧
      (writeRun (hc.sentUpTo 0) (outcomes rooms n)).sent.flatten =
        hc.responseText.take (blockStart rooms i) ++ call.2.2) := by
  refine ⟨?_, ?_⟩
  · intro hn
    have h := (hc.writeRun_blocks rooms n (fun j hj => hno j (by omega))
      (fun j hj => hi.2 j (by omega)) []).1
    rw [List.append_nil] at h
    exact h
  · intro hn
    obtain ⟨k, rfl⟩ : ∃ k, n = i + 1 + k := ⟨n - (i + 1), by omega⟩
    obtain ⟨os, hos⟩ := outcomes_split rooms i k
    obtain ⟨hended, hhc, hsent⟩ := hc.writeRun_blocks rooms i hno hi.2 (.room (rooms i) :: os)
    have hcall : ((hc.sentUpTo (blockStart rooms i)).onWriteable (.room (rooms i))).1 ≠
        .connContinue := by
      have hle := hi.start_le
      by_cases he : blockStart rooms i = hc.responseText.length
      · rw [(hc.onWriteable_empty _ _ he).1]
        decide
      · have hlt := hi.1
        rw [(hc.onWriteable_last _ (rooms i) (by omega) (by omega)).1]
        split <;> decide
    rw [hc.writeRun_end _ _ os hcall] at hended hhc hsent
    rw [hos, hended, hhc, hsent]
    simp

end HttpContext

/-- A run over non-failing sends ends as the response announced: kept alive
with a cleared context once all of it is sent, or closed. -/
structure FateAgrees (hc : HttpContext) (rooms : Nat → Nat) : Prop where
  keepAlive : Response.conStatus true ∈ hc.res.headerLines hc.req.isKeepalive →
    ∃ n, (writeRun hc (outcomes rooms n)).ended = some .connAlive ∧
      (writeRun hc (outcomes rooms n)).hc = {} ∧
      (writeRun hc (outcomes rooms n)).sent.flatten = hc.responseText
  close : Response.conStatus false ∈ hc.res.headerLines hc.req.isKeepalive →
    ∃ n, (writeRun hc (outcomes rooms n)).ended = some .connClose

/-- The handler's headers do not contradict `con_status`, and a kept
connection's last block is neither empty nor cut short. -/
structure FateKept (hc : HttpContext) (rooms : Nat → Nat) : Prop where
  notBoth : ¬ (Response.conStatus true ∈ hc.res.headerLines hc.req.isKeepalive ∧
    Response.conStatus false ∈ hc.res.headerLines hc.req.isKeepalive)
  lastBlock : hc.req.isKeepalive = true → ∀ i, LastBlock hc.responseText.length rooms i →
    blockStart rooms i < hc.responseText.length ∧
      hc.responseText.length ≤ blockStart rooms i + (rooms i + 1)
  noOverrun : ∀ i, LastBlock hc.responseText.length rooms i → NoOverrun rooms i

theorem conStatus_mem (res : Response) (b : Bool) : Response.conStatus b ∈ res.headerLines b := by
  simp [Response.headerLines]

namespace HttpContext

variable (hc : HttpContext)

/-- What `writeRun_outcomes` says of the whole run, for a run from its first call on. -/
def EndsAt (rooms : Nat → Nat) (i : Nat) : Prop := ∀ n,
  (n ≤ i → (writeRun hc (outcomes rooms n)).ended = none) ∧
  (i < n →
    let call := (hc.sentUpTo (blockStart rooms i)).onWriteable (.room (rooms i))
    (writeRun hc (outcomes rooms n)).ended = some call.1 ∧
    (writeRun hc (outcomes rooms n)).hc = call.2.1 ∧
    (writeRun hc (outcomes rooms n)).sent.flatten =
      hc.responseText.take (blockStart rooms i) ++ call.2.2)

theorem endsAt (req : Request) (codeMsg : CodeMsg) (body : Bytes) (headers : StdMap Bytes Bytes)
    (rooms : Nat → Nat) (i : Nat)
    (hi : LastBlock (answered req codeMsg body headers).responseText.length rooms i)
    (hno : NoOverrun rooms i) : (answered req codeMsg body headers).EndsAt rooms i := by
  intro n
  cases n with
  | zero => exact ⟨fun _ => rfl, fun h => absurd h (Nat.not_lt_zero i)⟩
  | succ n =>
    have hos : outcomes rooms (n + 1) =
        .room (rooms 0) :: (List.range n).map (fun j => .room (rooms (j + 1))) := by
      simp only [outcomes, List.range_succ_eq_map, List.map_cons, List.map_map]
      rfl
    have h := (answered req codeMsg body headers).writeRun_outcomes rooms i hi hno (n + 1)
    rw [hos] at h ⊢
    rw [writeRun_first]
    simp only [WriteRun.generatedOnce_sent, WriteRun.generatedOnce_ended,
      WriteRun.generatedOnce_hc]
    exact h

variable {hc}

/-- A run that ended says what its last call was. -/
theorem EndsAt.call {rooms : Nat → Nat} {i n : Nat} {ret : WriteRet} (h : hc.EndsAt rooms i)
    (hn : (writeRun hc (outcomes rooms n)).ended = some ret) :
    ((hc.sentUpTo (blockStart rooms i)).onWriteable (.room (rooms i))).1 = ret ∧
      (writeRun hc (outcomes rooms n)).sent.flatten =
        hc.responseText.take (blockStart rooms i) ++
          ((hc.sentUpTo (blockStart rooms i)).onWriteable (.room (rooms i))).2.2 := by
  by_cases hle : n ≤ i
  · rw [(h n).1 hle] at hn
    simp at hn
  · obtain ⟨hended, -, hsent⟩ := (h n).2 (by omega)
    rw [hended] at hn
    exact ⟨Option.some.inj hn, hsent⟩

/-- A close was announced: both an empty and a short last block close. -/
theorem EndsAt.closes {rooms : Nat → Nat} {i : Nat} (h : hc.EndsAt rooms i)
    (hi : LastBlock hc.responseText.length rooms i) (hka : hc.req.isKeepalive = false) :
    (writeRun hc (outcomes rooms (i + 1))).ended = some .connClose := by
  have hle := hi.start_le
  have hlt := hi.1
  rw [((h (i + 1)).2 (Nat.lt_succ_self i)).1]
  by_cases he : blockStart rooms i = hc.responseText.length
  · rw [(hc.onWriteable_empty _ _ he).1]
  · rw [(hc.onWriteable_last _ (rooms i) (by omega) (by omega)).1, hka]
    rfl

/-- A kept connection survives exactly the last blocks that are taken whole. -/
theorem EndsAt.survives_iff {rooms : Nat → Nat} {i : Nat} (h : hc.EndsAt rooms i)
    (hi : LastBlock hc.responseText.length rooms i) (hka : hc.req.isKeepalive = true) :
    (∃ n, (writeRun hc (outcomes rooms n)).ended = some .connAlive ∧
      (writeRun hc (outcomes rooms n)).hc = {} ∧
      (writeRun hc (outcomes rooms n)).sent.flatten = hc.responseText) ↔
    blockStart rooms i < hc.responseText.length ∧
      hc.responseText.length ≤ blockStart rooms i + (rooms i + 1) := by
  have hle := hi.start_le
  have hlt := hi.1
  constructor
  · rintro ⟨n, hended, -, hsent⟩
    obtain ⟨hret, hall⟩ := h.call hended
    by_cases he : blockStart rooms i = hc.responseText.length
    · rw [(hc.onWriteable_empty _ _ he).1] at hret
      simp at hret
    · obtain ⟨-, hacc, -⟩ := hc.onWriteable_last (blockStart rooms i) (rooms i) (by omega) (by omega)
      rw [hall, hacc] at hsent
      have hlen := congrArg List.length hsent
      simp only [List.length_append, List.length_take, List.length_drop] at hlen
      omega
  · rintro ⟨hpos, hroom⟩
    obtain ⟨hended, hhc, hsent⟩ := (h (i + 1)).2 (Nat.lt_succ_self i)
    obtain ⟨hret, hacc, hclear⟩ := hc.onWriteable_last _ (rooms i) hpos (by omega)
    refine ⟨i + 1, ?_, ?_, ?_⟩
    · rw [hended, hret, hka]
      rfl
    · rw [hhc, hclear hka]
    · have hrest : (hc.responseText.drop (blockStart rooms i)).length ≤ rooms i + 1 := by
        simp only [List.length_drop]; omega
      rw [hsent, hacc, List.take_of_length_le hrest, List.take_append_drop]

end HttpContext

/-- **Announced and actual fate.**  They agree when the announcement is not
contradicted and, on a kept connection, the last block is nonempty and taken
in one piece; below 2 GiB they agree only then. -/
theorem fate_agrees_exactly (req : Request) (codeMsg : CodeMsg) (body : Bytes)
    (headers : StdMap Bytes Bytes) (rooms : Nat → Nat) :
    let hc := HttpContext.answered req codeMsg body headers
    (FateKept hc rooms → FateAgrees hc rooms) ∧
    (hc.responseText.length < 2 ^ 31 → FateAgrees hc rooms → FateKept hc rooms) := by
  intro hc
  obtain ⟨i, hi⟩ := exists_lastBlock hc.responseText.length rooms
  have hends : NoOverrun rooms i → hc.EndsAt rooms i :=
    HttpContext.endsAt req codeMsg body headers rooms i hi
  have hmem := conStatus_mem hc.res hc.req.isKeepalive
  clear_value hc
  refine ⟨?_, ?_⟩
  · rintro ⟨hnot, hlast, hno⟩
    have h := hends (hno i hi)
    refine ⟨?_, ?_⟩
    · intro hka
      cases hb : hc.req.isKeepalive with
      | true => exact (h.survives_iff hi hb).mpr (hlast hb i hi)
      | false => rw [hb] at hmem hka hnot; exact absurd ⟨hka, hmem⟩ hnot
    · intro hcl
      cases hb : hc.req.isKeepalive with
      | true => rw [hb] at hmem hcl hnot; exact absurd ⟨hmem, hcl⟩ hnot
      | false => exact ⟨i + 1, h.closes hi hb⟩
  · intro hlen hagree
    have hno : ∀ j, LastBlock hc.responseText.length rooms j → NoOverrun rooms j := by
      intro j hj k hk
      have := hj.2 k hk
      exact Or.inr (by omega)
    have h := hends (hno i hi)
    refine ⟨?_, ?_, hno⟩
    · rintro ⟨hka, hcl⟩
      obtain ⟨n, hn, -⟩ := hagree.keepAlive hka
      obtain ⟨m, hm⟩ := hagree.close hcl
      have := (h.call hn).1.symm.trans (h.call hm).1
      simp at this
    · intro hb j hj
      rw [hj.unique hi]
      rw [hb] at hmem
      have hka := hagree.keepAlive
      rw [hb] at hka
      exact (h.survives_iff hi hb).mp (hka hmem)

/-- A kept connection is closed after a response of exactly one buffer, taken
in one piece: the end is seen only by a read that gets nothing. -/
theorem kept_connection_closed :
    let req : Request :=
      { line := { method := bytes "GET", requestUrl := bytes "/", httpVersion := bytes "HTTP/1.1" }
        headers := [(bytes "connection", bytes "keep-alive")] }
    ¬ FateAgrees (.answered req STATUS_OK (List.replicate 3963 120) []) (fun _ => 4095) := by
  intro req h
  have hlen : (HttpContext.answered req STATUS_OK (List.replicate 3963 120) []).responseText.length =
      4096 := by decide +kernel
  have hi : LastBlock 4096 (fun _ => 4095) 1 := by
    refine ⟨by decide, ?_⟩
    intro j hj
    have : j = 0 := by omega
    subst this
    decide
  have hno : NoOverrun (fun _ => 4095) 1 := fun _ _ => Or.inl (show 4096 ≤ 4095 + 1 by omega)
  have hends := HttpContext.endsAt req STATUS_OK (List.replicate 3963 120) [] (fun _ => 4095) 1
    (by rw [hlen]; exact hi) hno
  have hwhole := (hends.survives_iff (by rw [hlen]; exact hi) (by decide +kernel)).mp
    (h.keepAlive (by decide +kernel))
  rw [hlen] at hwhole
  exact absurd hwhole.1 (by decide)

end Ehttp
