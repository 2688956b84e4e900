import Ehttp.Lib.Cursor
import Ehttp.Response

/-!
# The response as a text and a position

Calls of `readsome`, each with or without a `rollback` behind it, on a response
whose text is generated.

* `StandsAt.readsome`, `StandsAt.rollback`: one call moves the position by what
  was delivered, or back by what was rolled back;
* `cursor_exact`: any number of calls, whatever flags they raise.
-/

namespace Ehttp

open Lib

/-- `readsome(buffer, bufferSize, ..)`, then `rollback` if there is one. -/
structure CursorCall where
  bufferSize : Nat
  rollback : Option Nat
  deriving DecidableEq, Repr

/-- The return of `readsome`, the bytes it delivered, the return of `rollback`. -/
structure CursorReply where
  ret : Int
  delivered : Bytes
  rollback : Option Int
  deriving DecidableEq, Repr

namespace Response

def cursorCall (res : Response) (call : CursorCall) : CursorReply × Response :=
  let (ret, delivered, res) := res.readsome call.bufferSize
  match call.rollback with
  | none => (⟨ret, delivered, none⟩, res)
  | some num =>
    let (code, res) := res.rollback num
    (⟨ret, delivered, some code⟩, res)

def cursorRun (res : Response) : List CursorCall → List CursorReply × Response
  | [] => ([], res)
  | call :: calls =>
    let (reply, res) := res.cursorCall call
    (reply :: (res.cursorRun calls).1, (res.cursorRun calls).2)

/-- The buffers are not empty, and no call rolls back more than it delivered. -/
def Allowed (res : Response) : List CursorCall → Prop
  | [] => True
  | call :: calls =>
    1 ≤ call.bufferSize ∧
      (∀ num ∈ call.rollback, num ≤ (res.cursorCall call).1.delivered.length) ∧
      (res.cursorCall call).2.Allowed calls

instance Allowed.decidable (res : Response) : ∀ calls, Decidable (res.Allowed calls)
  | [] => isTrue trivial
  | call :: calls =>
    have := Allowed.decidable (res.cursorCall call).2 calls
    inferInstanceAs (Decidable (_ ∧ _ ∧ _))

end Response

/-! ## The calls on a text and a position -/

/-- The position goes forward by what is delivered and back by what is rolled
back; `rollback` returns 0. -/
def answer (c : Cursor UInt8) (call : CursorCall) : CursorReply × Cursor UInt8 :=
  let delivered := c.block call.bufferSize
  let ret := if delivered.length < call.bufferSize then 0 else NEED_MORE_STATUS
  (⟨ret, delivered, call.rollback.map fun _ => 0⟩,
    (c.advance call.bufferSize).back (call.rollback.getD 0))

def answers (c : Cursor UInt8) : List CursorCall → List CursorReply × Cursor UInt8
  | [] => ([], c)
  | call :: calls =>
    let (reply, c) := answer c call
    (reply :: (answers c calls).1, (answers c calls).2)

theorem answers_content (c : Cursor UInt8) (calls : List CursorCall) :
    (answers c calls).2.content = c.content := by
  induction calls generalizing c with
  | nil => rfl
  | cons call calls ih => exact ih (answer c call).2

/-! ## Refinement -/

namespace Response

/-- The response has the text of the cursor and stands at its position. -/
def StandsAt (res : Response) (c : Cursor UInt8) : Prop := res.resBytes.Follows c

variable {res : Response} {c : Cursor UInt8}

theorem StandsAt.readsome (h : res.StandsAt c) (bufferSize : Nat) (hb : 1 ≤ bufferSize) :
    (res.readsome bufferSize).1 =
        (if (c.block bufferSize).length < bufferSize then 0 else NEED_MORE_STATUS) ∧
      (res.readsome bufferSize).2.1 = c.block bufferSize ∧
      (res.readsome bufferSize).2.2.StandsAt (c.advance bufferSize) := by
  obtain ⟨hfst, heof, hfollows⟩ := StringStream.follows_read h bufferSize hb
  refine ⟨?_, hfst, hfollows⟩
  simp only [Response.readsome]
  cases hflag : (res.resBytes.read bufferSize).2.eof with
  | true =>
    rw [if_pos (heof.mp hflag)]
    rfl
  | false =>
    have hfull : ¬ (c.block bufferSize).length < bufferSize := by simp [← heof, hflag]
    rw [if_neg hfull]
    rfl

/-- Below `INT_MAX` the cast of the position is exact. -/
theorem StandsAt.rollback (h : res.StandsAt c) (hc : c.content.length < 2 ^ 31) (num : Nat)
    (hnum : num ≤ c.pos) :
    (res.rollback num).1 = 0 ∧ (res.rollback num).2.StandsAt (c.back num) := by
  obtain ⟨hclear, hgood⟩ := StringStream.follows_clear h
  have hin := hclear.within
  have hpos : toInt32 (c.pos : Int) = c.pos := toInt32_of_lt _ (by omega) (by omega)
  have hback : toInt32 ((c.pos : Int) - num) = (c.pos - num : Nat) := by
    rw [toInt32_of_lt _ (by omega) (by omega)]
    omega
  obtain ⟨hseek, hok⟩ := StringStream.follows_seekg hclear hgood num
  have htell : StringStream.tellg
      (if res.resBytes.eof then res.resBytes.clear else res.resBytes) =
        ((c.pos : Int), if res.resBytes.eof then res.resBytes.clear else res.resBytes) := by
    rw [StringStream.tellg, if_pos hgood, hclear.gpos]
  simp only [Response.rollback, htell, hpos, hback, hok, ↓reduceIte, true_and]
  exact hseek

/-- One call. -/
theorem StandsAt.cursorCall (h : res.StandsAt c) (hc : c.content.length < 2 ^ 31)
    (call : CursorCall) (hb : 1 ≤ call.bufferSize)
    (hnum : ∀ num ∈ call.rollback, num ≤ (res.cursorCall call).1.delivered.length) :
    (res.cursorCall call).1 = (answer c call).1 ∧
      (res.cursorCall call).2.StandsAt (answer c call).2 := by
  obtain ⟨bufferSize, rollback⟩ := call
  obtain ⟨hret, hdelivered, hstands⟩ := h.readsome bufferSize hb
  cases rollback with
  | none =>
    simp only [Response.cursorCall, answer, hret, hdelivered, Option.map_none, Option.getD_none,
      true_and]
    exact hstands
  | some num =>
    have hle : num ≤ (c.block bufferSize).length := by
      have hle := hnum num rfl
      simpa only [Response.cursorCall, hdelivered] using hle
    have hpos : num ≤ (c.advance bufferSize).pos := Nat.le_add_left_of_le hle
    obtain ⟨hcode, hback⟩ := hstands.rollback hc num hpos
    simp only [Response.cursorCall, answer, hret, hdelivered, hcode, Option.map_some,
      Option.getD_some, true_and]
    exact hback

/-- Any number of calls. -/
theorem StandsAt.cursorRun (res : Response) (c : Cursor UInt8) (hstart : res.StandsAt c)
    (hc : c.content.length < 2 ^ 31) (calls : List CursorCall) (h : res.Allowed calls) :
    (res.cursorRun calls).1 = (answers c calls).1 ∧
      (res.cursorRun calls).2.StandsAt (answers c calls).2 := by
  induction calls generalizing res c with
  | nil => exact ⟨rfl, hstart⟩
  | cons call calls ih =>
    obtain ⟨hb, hnum, hrest⟩ := h
    obtain ⟨hreply, hstands⟩ := hstart.cursorCall hc call hb hnum
    obtain ⟨hreplies, hend⟩ := ih _ _ hstands hc hrest
    refine ⟨?_, hend⟩
    simp only [Response.cursorRun, answers, hreply, hreplies]

end Response

/-- **The response cursor.**  Whatever is read and rolled back, every call
delivers the block at the position, every rollback returns 0, and the stream
ends up at the position. -/
theorem cursor_exact (res : Response) (content : Bytes) (hgen : res.resBytes = .ofBuf content)
    (hlen : content.length < 2 ^ 31) (calls : List CursorCall) (h : res.Allowed calls) :
    (res.cursorRun calls).1 = (answers { content } calls).1 ∧
      (res.cursorRun calls).2.resBytes.buf = content ∧
      (res.cursorRun calls).2.resBytes.gpos = (answers { content } calls).2.pos := by
  have hstart : res.StandsAt { content } := by
    rw [Response.StandsAt, hgen]
    exact StringStream.follows_ofBuf content
  obtain ⟨hreplies, hend⟩ := Response.StandsAt.cursorRun res _ hstart hlen calls h
  exact ⟨hreplies, hend.buf.trans (answers_content _ _), hend.gpos⟩

/-- A short read, an exact one, two past the end, and rollbacks between them. -/
def mixedCalls : List CursorCall :=
  [⟨4, some 2⟩, ⟨3, none⟩, ⟨9, none⟩, ⟨1, some 0⟩, ⟨2, none⟩]

theorem cursor_exact_mixed :
    let res : Response := { resBytes := .ofBuf (bytes "abcdef") }
    (res.cursorRun mixedCalls).1 = (answers { content := bytes "abcdef" } mixedCalls).1 ∧
      (res.cursorRun mixedCalls).2.resBytes.buf = bytes "abcdef" ∧
      (res.cursorRun mixedCalls).2.resBytes.gpos =
        (answers { content := bytes "abcdef" } mixedCalls).2.pos :=
  cursor_exact _ (bytes "abcdef") rfl (by decide) mixedCalls (by decide)

end Ehttp
