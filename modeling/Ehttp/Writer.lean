import Ehttp.Response

/-!
# Writing a response: `HttpEpollWatcher::on_writeable`

One call reads the next block of at most 4096 bytes from the response stream,
offers it to the socket and rolls the cursor back over what the socket did not
take.

* `onWriteable_first`: the first call generates the text and goes on like any other;
* `onWriteable_block`: a full block moves the cursor by what the socket took;
* `onWriteable_last`, `onWriteable_empty`, `onWriteable_fail`: the calls that
  end the response;
* `onWriteable_closes_iff`: the calls that close a kept connection.
-/

namespace Ehttp

open Lib

def SS_WRITE_BUFFER_SIZE : Nat := 4096

/-- `WRITE_CONN_ALIVE`, `WRITE_CONN_CLOSE`, `WRITE_CONN_CONTINUE`. -/
inductive WriteRet
  | connAlive | connClose | connContinue
  deriving DecidableEq, Repr

/-- What the socket does with a `send`.  `room m`: there is room for `m + 1`
bytes, so any count from 1 up to the requested size can be accepted. -/
inductive SendOutcome
  | room (m : Nat)
  | eagain
  | eintr
  deriving DecidableEq, Repr

/-- The return value of `send(fd, buffer, size, 0)`. -/
def SendOutcome.nwrite (size : Nat) : SendOutcome → Int
  | room m => (min (m + 1) size : Nat)
  | eagain => -1
  | eintr => -1

/-- `strcasecmp(req.get_header("Connection").c_str(), "keep-alive") == 0`. -/
def Request.isKeepalive (req : Request) : Bool :=
  strcaseeq (req.header (bytes "Connection")) (bytes "keep-alive")

namespace HttpContext

/-- `on_writeable` from the `send` on; `block` is what `readsome` returned. -/
def sendBlock (isKeepalive : Bool) (req : Request) (block : Int × Bytes × Response)
    (o : SendOutcome) : WriteRet × HttpContext × Bytes :=
  let (ret, buffer, res) := block
  if buffer.length = 0 then (.connClose, ⟨req, res⟩, [])
  else
    -- 2. write bytes to socket
    let nwrite := o.nwrite buffer.length
    if nwrite < 0 then (.connClose, ⟨req, res⟩, [])
    else
      -- 3. when not write all buffer, we will rollback write index
      let res := if nwrite < buffer.length then (res.rollback (buffer.length - nwrite)).2 else res
      let accepted := buffer.take nwrite.toNat
      if ret = NEED_MORE_STATUS then (.connContinue, ⟨req, res⟩, accepted)
      else if isKeepalive && 0 < nwrite then (.connAlive, HttpContext.clear ⟨req, res⟩, accepted)
      else (.connClose, ⟨req, res⟩, accepted)

/-- The return code, the context afterwards and the bytes the socket accepted.
`o` is the outcome of the `send`, if the call comes to one. -/
def onWriteable (hc : HttpContext) (o : SendOutcome) : WriteRet × HttpContext × Bytes :=
  let isKeepalive := hc.req.isKeepalive
  let req := (hc.req.getHeader (bytes "Connection")).2
  let res := if !hc.res.isWrited then
      { (hc.res.genResponse req.line.httpVersion isKeepalive).2 with isWrited := true }
    else hc.res
  -- 1. read some response bytes
  sendBlock isKeepalive req (res.readsome SS_WRITE_BUFFER_SIZE) o

/-- The text `gen_response` generates in the first call. -/
def responseText (hc : HttpContext) : Bytes :=
  hc.res.text hc.req.line.httpVersion hc.req.isKeepalive

/-- A context whose response is decided and not yet written: what `on_readable`
leaves behind.  A handler sets the status, the body and headers. -/
def answered (req : Request) (codeMsg : CodeMsg) (body : Bytes)
    (headers : StdMap Bytes Bytes) : HttpContext :=
  { req, res := { codeMsg, body, headers } }

/-- The context after the first `p` bytes of the response were accepted. -/
def sentUpTo (hc : HttpContext) (p : Nat) : HttpContext :=
  { req := (hc.req.getHeader (bytes "Connection")).2
    res := hc.res.cursorAt hc.responseText p }

end HttpContext

/-! ## One call -/

namespace HttpContext

variable (hc : HttpContext)

theorem isKeepalive_sentUpTo (p : Nat) : (hc.sentUpTo p).req.isKeepalive = hc.req.isKeepalive := by
  simp only [Request.isKeepalive, sentUpTo, Request.header_getHeader]

theorem getHeader_sentUpTo (p : Nat) :
    ((hc.sentUpTo p).req.getHeader (bytes "Connection")).2 = (hc.sentUpTo p).req :=
  Request.getHeader_getHeader hc.req (bytes "Connection")

/-- `send` and `rollback` leave the response generated. -/
theorem sendBlock_isWrited (isKeepalive : Bool) (req : Request) (block : Int × Bytes × Response)
    (o : SendOutcome) (h : (sendBlock isKeepalive req block o).1 = .connContinue) :
    (sendBlock isKeepalive req block o).2.1.res.isWrited = block.2.2.isWrited := by
  obtain ⟨ret, buffer, res⟩ := block
  have hrb : ∀ num, (res.rollback num).2.isWrited = res.isWrited := fun _ => rfl
  simp only [sendBlock] at h ⊢
  by_cases hb : buffer.length = 0
  · simp [hb] at h
  · by_cases hn : o.nwrite buffer.length < 0
    · simp [hb, hn] at h
    · by_cases hr : ret = NEED_MORE_STATUS
      · simp only [hb, hn, hr, ↓reduceIte]
        split
        · exact hrb _
        · rfl
      · simp only [hb, hn, hr, ↓reduceIte] at h
        split at h <;> simp at h

theorem sendBlock_req (isKeepalive : Bool) (req : Request) (block : Int × Bytes × Response)
    (o : SendOutcome) (h : (sendBlock isKeepalive req block o).1 = .connContinue) :
    (sendBlock isKeepalive req block o).2.1.req = req := by
  obtain ⟨ret, buffer, res⟩ := block
  simp only [sendBlock] at h ⊢
  by_cases hb : buffer.length = 0
  · simp [hb] at h
  · by_cases hn : o.nwrite buffer.length < 0
    · simp [hb, hn] at h
    · by_cases hr : ret = NEED_MORE_STATUS
      · simp only [hb, hn, hr, ↓reduceIte]
      · simp only [hb, hn, hr, ↓reduceIte] at h
        split at h <;> simp at h

/-- A response that is not finished stays generated. -/
theorem isWrited_onWriteable (o : SendOutcome) (h : (hc.onWriteable o).1 = .connContinue)
    (hw : hc.res.isWrited = true) : (hc.onWriteable o).2.1.res.isWrited = true := by
  unfold onWriteable at h ⊢
  rw [sendBlock_isWrited _ _ _ o h]
  simp [hw, Response.readsome]

/-- A call in the middle of a run starts at its `readsome`. -/
theorem onWriteable_sentUpTo (p : Nat) (o : SendOutcome) :
    (hc.sentUpTo p).onWriteable o = sendBlock hc.req.isKeepalive (hc.sentUpTo p).req
      ((hc.res.cursorAt hc.responseText p).readsome 4096) o := by
  unfold onWriteable
  rw [hc.isKeepalive_sentUpTo p, hc.getHeader_sentUpTo p]
  rfl

/-- What `on_writeable` reads from the response before it sends. -/
def block (hc : HttpContext) : Int × Bytes × Response :=
  let res := if !hc.res.isWrited then
      { (hc.res.genResponse hc.req.line.httpVersion hc.req.isKeepalive).2 with isWrited := true }
    else hc.res
  res.readsome SS_WRITE_BUFFER_SIZE

/-- The bytes that `on_writeable` offers to the socket. -/
def offered (hc : HttpContext) : Bytes := hc.block.2.1

theorem onWriteable_eq (o : SendOutcome) : hc.onWriteable o =
    sendBlock hc.req.isKeepalive (hc.req.getHeader (bytes "Connection")).2 hc.block o := by
  have hline : (hc.req.getHeader (bytes "Connection")).2.line = hc.req.line := by
    rw [Request.getHeader_frame]
  simp only [onWriteable, block, hline]

theorem offered_sentUpTo (p : Nat) (hp : p ≤ hc.responseText.length) :
    (hc.sentUpTo p).offered = (hc.responseText.drop p).take 4096 := by
  have hblock : (hc.sentUpTo p).block = (hc.res.cursorAt hc.responseText p).readsome 4096 := rfl
  rw [offered, hblock]
  by_cases h : 4096 ≤ hc.responseText.length - p
  · rw [Response.readsome_block hc.res hc.responseText p 4096 h]
  · rw [Response.readsome_last hc.res hc.responseText p 4096 hp (by omega),
      List.take_of_length_le (by rw [List.length_drop]; omega)]

/-- There is nothing to send exactly when all of the response was sent. -/
theorem offered_nil_iff (p : Nat) (hp : p ≤ hc.responseText.length) :
    (hc.sentUpTo p).offered = [] ↔ p = hc.responseText.length := by
  rw [hc.offered_sentUpTo p hp, List.take_eq_nil_iff, List.drop_eq_nil_iff]
  omega

theorem nwrite_neg_iff (o : SendOutcome) (size : Nat) : o.nwrite size < 0 ↔ ∀ m, o ≠ .room m := by
  cases o with
  | room m =>
    refine iff_of_false ?_ (by simp)
    simp only [SendOutcome.nwrite]
    omega
  | eagain | eintr => simp [SendOutcome.nwrite]

/-- **Closed.**  A kept connection is closed by a `send` that fails, or when
there is nothing to send. -/
theorem onWriteable_closes_iff (o : SendOutcome) (hkeep : hc.req.isKeepalive = true) :
    (hc.onWriteable o).1 = .connClose ↔ hc.offered = [] ∨ ∀ m, o ≠ .room m := by
  rw [onWriteable_eq, offered, hkeep]
  obtain ⟨ret, buffer, res⟩ := hc.block
  by_cases hempty : buffer = []
  · simp [sendBlock, hempty]
  · by_cases hfail : ∀ m, o ≠ .room m
    · have hneg := (nwrite_neg_iff o buffer.length).mpr hfail
      simp [sendBlock, hempty, hneg, hfail]
    · obtain ⟨m, rfl⟩ : ∃ m, o = .room m := by simpa using hfail
      have hlen : 0 < buffer.length := List.length_pos_iff.mpr hempty
      have hpos : (0 : Int) < (SendOutcome.room m).nwrite buffer.length := by
        simp only [SendOutcome.nwrite]
        omega
      have hnot : ¬ (SendOutcome.room m).nwrite buffer.length < 0 := by omega
      refine iff_of_false ?_ (by simp [hempty])
      simp only [sendBlock, hlen.ne', hnot, ↓reduceIte]
      by_cases hmore : ret = NEED_MORE_STATUS
      · simp [hmore]
      · simp [hmore, hpos]

/-- A response that is not over leaves what the request says about keep-alive. -/
theorem isKeepalive_onWriteable (o : SendOutcome) (h : (hc.onWriteable o).1 = .connContinue) :
    (hc.onWriteable o).2.1.req.isKeepalive = hc.req.isKeepalive := by
  rw [onWriteable_eq] at h ⊢
  rw [sendBlock_req _ _ _ o h, Request.isKeepalive, Request.header_getHeader]
  rfl

/-- The first call generates the response and goes on as any other. -/
theorem onWriteable_first (req : Request) (codeMsg : CodeMsg) (body : Bytes)
    (headers : StdMap Bytes Bytes) (o : SendOutcome) :
    (answered req codeMsg body headers).onWriteable o =
      ((answered req codeMsg body headers).sentUpTo 0).onWriteable o := by
  rw [onWriteable_sentUpTo]
  have hv : (req.getHeader (bytes "Connection")).2.line = req.line := by
    rw [Request.getHeader_frame]
  simp only [onWriteable, answered, Response.genResponse, StringStream.put, StringStream.good,
    Bool.not_false, Bool.and_self, ↓reduceIte, List.nil_append, sentUpTo, Response.cursorAt,
    responseText, SS_WRITE_BUFFER_SIZE, hv]

/-- A block of the full buffer size.  A partial send is rolled back, which is
exact as long as the block ends below `INT_MAX`. -/
theorem onWriteable_block (p m : Nat) (hp : 4096 ≤ hc.responseText.length - p)
    (hint : 4096 ≤ m + 1 ∨ p + 4096 < 2 ^ 31) :
    (hc.sentUpTo p).onWriteable (.room m) =
      (.connContinue, hc.sentUpTo (p + min (m + 1) 4096),
        (hc.responseText.drop p).take (min (m + 1) 4096)) := by
  have hlen : ((hc.responseText.drop p).take 4096).length = 4096 := by
    simp only [List.length_take, List.length_drop]; omega
  have htake : ((hc.responseText.drop p).take 4096).take (min (m + 1) 4096) =
      (hc.responseText.drop p).take (min (m + 1) 4096) := by
    rw [List.take_take]; congr 1; omega
  rw [onWriteable_sentUpTo, Response.readsome_block hc.res hc.responseText p 4096 hp]
  simp only [sendBlock, hlen, SendOutcome.nwrite, Int.toNat_natCast, htake, sentUpTo]
  by_cases hk : m + 1 < 4096
  · have hmin : min (m + 1) 4096 = m + 1 := by omega
    have hrb := Response.rollback_block hc.res hc.responseText p 4096 (m + 1) (by omega) hp
      (by omega) (by omega)
    have hlt : ((m + 1 : Nat) : Int) < (4096 : Nat) := by omega
    have hnum : ((4096 : Nat) : Int) - ((m + 1 : Nat) : Int) = ((4096 - (m + 1) : Nat) : Int) := by
      omega
    simp only [hmin, hlt, ↓reduceIte, hnum, hrb]
    simp
    omega
  · have hmin : min (m + 1) 4096 = 4096 := by omega
    simp [hmin]

/-- The last block, shorter than the buffer: the run ends with this call,
whether or not the socket takes all of it. -/
theorem onWriteable_last (p m : Nat) (hp : p < hc.responseText.length)
    (h : hc.responseText.length - p < 4096) :
    ((hc.sentUpTo p).onWriteable (.room m)).1 =
        (if hc.req.isKeepalive then .connAlive else .connClose) ∧
      ((hc.sentUpTo p).onWriteable (.room m)).2.2 = (hc.responseText.drop p).take (m + 1) ∧
      (hc.req.isKeepalive = true → ((hc.sentUpTo p).onWriteable (.room m)).2.1 = {}) := by
  have hlen : (hc.responseText.drop p).length ≠ 0 := by simp only [List.length_drop]; omega
  have hpos : (0 : Int) < ((min (m + 1) (hc.responseText.drop p).length : Nat) : Int) := by omega
  have hneg : ¬ ((min (m + 1) (hc.responseText.drop p).length : Nat) : Int) < 0 := by omega
  have htake : (hc.responseText.drop p).take (min (m + 1) (hc.responseText.drop p).length) =
      (hc.responseText.drop p).take (m + 1) := by
    rw [List.take_eq_take_iff]; omega
  rw [onWriteable_sentUpTo, Response.readsome_last hc.res hc.responseText p 4096 (by omega) h]
  simp only [sendBlock, hlen, ↓reduceIte, SendOutcome.nwrite, hneg, Int.toNat_natCast, htake, hpos,
    show ¬ ((0 : Int) = NEED_MORE_STATUS) by decide]
  cases hc.req.isKeepalive <;> simp [clear]

/-- Nothing is left to read: the connection is closed without a `send`. -/
theorem onWriteable_empty (p : Nat) (o : SendOutcome) (hp : p = hc.responseText.length) :
    ((hc.sentUpTo p).onWriteable o).1 = .connClose ∧
      ((hc.sentUpTo p).onWriteable o).2.2 = [] := by
  rw [onWriteable_sentUpTo, Response.readsome_last hc.res hc.responseText p 4096 (by omega)
    (by omega)]
  simp [sendBlock, hp]

/-- A `send` that fails closes the connection. -/
theorem onWriteable_fail (p : Nat) (o : SendOutcome) (hp : p ≤ hc.responseText.length)
    (ho : ∀ m, o ≠ .room m) :
    ((hc.sentUpTo p).onWriteable o).1 = .connClose ∧
      ((hc.sentUpTo p).onWriteable o).2.2 = [] := by
  have hneg : ∀ size, o.nwrite size < 0 := by
    intro size
    cases o with
    | room m => exact absurd rfl (ho m)
    | eagain => simp [SendOutcome.nwrite]
    | eintr => simp [SendOutcome.nwrite]
  rw [onWriteable_sentUpTo]
  by_cases h : 4096 ≤ hc.responseText.length - p
  · rw [Response.readsome_block hc.res hc.responseText p 4096 h]
    simp only [sendBlock, hneg, ↓reduceIte]
    split <;> simp
  · rw [Response.readsome_last hc.res hc.responseText p 4096 hp (by omega)]
    simp only [sendBlock, hneg, ↓reduceIte]
    split <;> simp

end HttpContext

end Ehttp
