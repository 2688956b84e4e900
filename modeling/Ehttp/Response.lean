import Mathlib.Algebra.Ring.Int.Defs
import Ehttp.Request

/-!
# The response and the context of `sim_parser.h`

`gen_response` writes the response text to a string stream, `readsome` takes
the next block from it and `rollback` moves the cursor back over bytes the
socket did not take.
-/

namespace Ehttp

open Lib

structure CodeMsg where
  statusCode : Int
  msg : Bytes
  deriving DecidableEq, Repr

def STATUS_OK : CodeMsg := ⟨200, bytes "OK"⟩
def STATUS_LENGTH_REQUIRED : CodeMsg := ⟨411, bytes "Length Required"⟩

def EHTTP_VERSION : Bytes := bytes "1.0.5"

/-- `(int) n`: two's complement in 32 bits. -/
def toInt32 (n : Int) : Int := n.bmod (2 ^ 32)

structure Response where
  isWrited : Bool := false
  codeMsg : CodeMsg := STATUS_OK
  body : Bytes := []
  headers : StdMap Bytes Bytes := []
  resBytes : StringStream UInt8 := {}
  deriving DecidableEq, Repr

namespace Response

def setHead (res : Response) (name value : Bytes) : Response :=
  { res with headers := res.headers.insert bytesLt name value }

def statusLine (res : Response) (httpVersion : Bytes) : Bytes :=
  httpVersion ++ bytes " " ++ decimal res.codeMsg.statusCode ++ bytes " " ++ res.codeMsg.msg

def conStatus (isKeepalive : Bool) : Bytes :=
  if isKeepalive then bytes "Connection: Keep-Alive" else bytes "Connection: close"

/-- A header installed by `set_head`, as `gen_response` prints it. -/
def headLine (h : Bytes × Bytes) : Bytes := h.1 ++ bytes ": " ++ h.2

/-- The header lines `gen_response` writes, in order. -/
def headerLines (res : Response) (isKeepalive : Bool) : List Bytes :=
  [bytes "Server: ehttp/" ++ EHTTP_VERSION] ++
  (if res.headers.find (bytes "Content-Type") = none then
    [bytes "Content-Type: application/json; charset=UTF-8"] else []) ++
  (if res.headers.find (bytes "Content-Length") = none then
    [bytes "Content-Length: " ++ decimal res.body.length] else []) ++
  [conStatus isKeepalive] ++ res.headers.map headLine

/-- Everything `gen_response` writes to `_res_bytes`. -/
def text (res : Response) (httpVersion : Bytes) (isKeepalive : Bool) : Bytes :=
  ((res.statusLine httpVersion :: res.headerLines isKeepalive).map (· ++ [CR, LF])).flatten ++
  [CR, LF] ++ res.body

def genResponse (res : Response) (httpVersion : Bytes) (isKeepalive : Bool) : Int × Response :=
  (0, { res with resBytes := res.resBytes.put (res.text httpVersion isKeepalive) })

/-- The return code, the bytes read (`read_size` of them) and the response. -/
def readsome (res : Response) (bufferSize : Nat) : Int × Bytes × Response :=
  let (buffer, s) := res.resBytes.read bufferSize
  (if !s.eof then NEED_MORE_STATUS else 0, buffer, { res with resBytes := s })

def rollback (res : Response) (num : Int) : Int × Response :=
  let s := if res.resBytes.eof then res.resBytes.clear else res.resBytes
  let (pos, s) := s.tellg
  let rbPos := toInt32 (toInt32 pos - num)
  let s := s.seekg rbPos
  (if s.good then 0 else -1, { res with resBytes := s })

/-- The response with its text generated and the cursor at `p`. -/
def cursorAt (res : Response) (text : Bytes) (p : Nat) : Response :=
  { res with isWrited := true, resBytes := { buf := text, gpos := p } }

theorem toInt32_of_lt (n : Int) (h0 : 0 ≤ n) (h : n < 2 ^ 31) : toInt32 n = n := by
  unfold toInt32
  rw [Int.bmod_def]
  omega

/-- A block that is not the last: the cursor moves on and no flag is raised. -/
theorem readsome_block (res : Response) (t : Bytes) (p b : Nat) (h : b ≤ t.length - p) :
    (res.cursorAt t p).readsome b = (NEED_MORE_STATUS, (t.drop p).take b, res.cursorAt t (p + b)) := by
  have hr := StringStream.read_full (res.cursorAt t p).resBytes b rfl
    (by simpa [StringStream.rest, Response.cursorAt] using h)
  have hf := StringStream.read_fst (res.cursorAt t p).resBytes b rfl
  have e : (res.cursorAt t p).resBytes.read b =
      ((t.drop p).take b, { buf := t, gpos := p + b }) := by
    rw [Prod.ext_iff]; exact ⟨hf, hr⟩
  unfold readsome
  rw [e]
  rfl

/-- The last block, shorter than the buffer: end of file is seen. -/
theorem readsome_last (res : Response) (t : Bytes) (p b : Nat) (hp : p ≤ t.length)
    (h : t.length - p < b) :
    (res.cursorAt t p).readsome b = (0, t.drop p, { res with
      isWrited := true, resBytes := { buf := t, gpos := t.length, eof := true, fail := true } }) := by
  have hlen : (res.cursorAt t p).resBytes.rest.length = t.length - p := by
    simp [StringStream.rest, Response.cursorAt]
  have hr := StringStream.read_short (res.cursorAt t p).resBytes b rfl (by omega)
  have hf := StringStream.read_fst (res.cursorAt t p).resBytes b rfl
  rw [List.take_of_length_le (by omega)] at hf
  rw [hlen] at hr
  have e : (res.cursorAt t p).resBytes.read b =
      (t.drop p, { buf := t, gpos := t.length, eof := true, fail := true }) := by
    rw [Prod.ext_iff]
    refine ⟨hf, hr.trans ?_⟩
    simp only [Response.cursorAt]
    congr 1
    omega
  unfold readsome
  rw [e]
  rfl

/-- Rolling back part of a block that ended below `INT_MAX`. -/
theorem rollback_block (res : Response) (t : Bytes) (p b k : Nat) (hk : k ≤ b)
    (hb : b ≤ t.length - p) (hp : p ≤ t.length) (hint : p + b < 2 ^ 31) :
    (res.cursorAt t (p + b)).rollback (b - k : Nat) = (0, res.cursorAt t (p + k)) := by
  have e1 : toInt32 ((p + b : Nat) : Int) = (p + b : Nat) :=
    toInt32_of_lt _ (by omega) (by omega)
  have e2 : toInt32 (((p + b : Nat) : Int) - ((b - k : Nat) : Int)) = ((p + k : Nat) : Int) := by
    rw [toInt32_of_lt _ (by omega) (by omega)]
    omega
  have hs := StringStream.seekg_within ({ buf := t, gpos := p + b } : StringStream UInt8) (p + k) rfl
    (by simp only; omega)
  simp only [rollback, Response.cursorAt, Bool.false_eq_true, ↓reduceIte, StringStream.tellg,
    StringStream.good, Bool.not_false, Bool.and_self, e1, e2, hs]

end Response

/-! ## `HttpContext` -/

/-- One request and its response on a connection. -/
structure HttpContext where
  req : Request := {}
  res : Response := {}
  deriving DecidableEq, Repr

def HttpContext.clear (_ : HttpContext) : HttpContext := {}

end Ehttp
