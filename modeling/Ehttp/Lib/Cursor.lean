import Ehttp.Lib.StringStream

/-!
# A text and a position in it

What an output stream is for whoever only reads blocks from it and steps back:
the content and the number of elements delivered.  A string stream `Follows`
a cursor, with its flags raised or not.

* `follows_read`: a block read delivers the next slice, on raised flags too;
* `follows_seekg`: a seek on a stream that was cleared moves the position.
-/

namespace Lib

structure Cursor (α : Type) where
  content : List α
  pos : Nat := 0
  deriving DecidableEq, Repr

namespace Cursor

variable {α : Type}

/-- The elements from the position on, at most `n` of them. -/
def block (c : Cursor α) (n : Nat) : List α :=
  c.content.extract c.pos (min (c.pos + n) c.content.length)

def advance (c : Cursor α) (n : Nat) : Cursor α := { c with pos := c.pos + (c.block n).length }

def back (c : Cursor α) (m : Nat) : Cursor α := { c with pos := c.pos - m }

theorem length_block (c : Cursor α) (n : Nat) :
    (c.block n).length = min n (c.content.length - c.pos) := by
  simp only [block, List.extract_eq_take_drop, List.length_take, List.length_drop]
  omega

theorem block_eq (c : Cursor α) (n : Nat) : c.block n = (c.content.drop c.pos).take n := by
  simp only [block, List.extract_eq_take_drop]
  rw [List.take_eq_take_iff, List.length_drop]
  omega

end Cursor

namespace StringStream

variable {α : Type} {s : StringStream α} {c : Cursor α}

/-- The stream stands at the cursor.  Its flags are down, or it has met the end
of the file. -/
structure Follows (s : StringStream α) (c : Cursor α) : Prop where
  buf : s.buf = c.content
  gpos : s.gpos = c.pos
  within : c.pos ≤ c.content.length
  flags : s.good = true ∨ (s.eof = true ∧ c.pos = c.content.length)

theorem follows_ofBuf (l : List α) : (ofBuf l).Follows { content := l } :=
  ⟨rfl, rfl, Nat.zero_le _, Or.inl rfl⟩

theorem Follows.rest (h : s.Follows c) : s.rest = c.content.drop c.pos := by
  rw [StringStream.rest, h.buf, h.gpos]

/-- **Reads.**  The next block is delivered, and the end of the file has been met
exactly when it is shorter than was asked for. -/
theorem follows_read (h : s.Follows c) (n : Nat) (hn : 0 < n) :
    (s.read n).1 = c.block n ∧ ((s.read n).2.eof = true ↔ (c.block n).length < n) ∧
      (s.read n).2.Follows (c.advance n) := by
  have hlen := c.length_block n
  have hrest : s.rest.length = c.content.length - c.pos := by rw [h.rest, List.length_drop]
  have hin := h.within
  have hwithin : (c.advance n).pos ≤ c.content.length := by
    simp only [Cursor.advance, hlen]
    omega
  rcases h.flags with hgood | ⟨heof, hend⟩
  · have hfst := read_fst s n hgood
    rw [h.rest, ← c.block_eq] at hfst
    refine ⟨hfst, ?_⟩
    rcases Nat.lt_or_ge s.rest.length n with hshort | hfull
    · have hsnd := read_short s n hgood hshort
      rw [hsnd]
      refine ⟨iff_of_true rfl (by omega), h.buf, ?_, hwithin, Or.inr ⟨rfl, ?_⟩⟩
      · simp only [h.gpos, hrest, Cursor.advance, hlen]
        omega
      · simp only [Cursor.advance, hlen]
        omega
    · have hsnd := read_full s n hgood hfull
      rw [hsnd]
      obtain ⟨heof, -⟩ := (good_iff s).mp hgood
      refine ⟨iff_of_false (by simp [heof]) (by omega), h.buf, ?_, hwithin, Or.inl hgood⟩
      simp only [h.gpos, Cursor.advance, hlen]
      omega
  · -- the flags of an earlier call are still up: nothing is read
    have hbad : ¬ s.good = true := by simp [good, heof]
    have hread : s.read n = ([], { s with fail := true }) := by rw [read, if_neg hbad]
    have hnil : c.block n = [] := List.eq_nil_of_length_eq_zero (by omega)
    rw [hread, hnil]
    refine ⟨rfl, iff_of_true heof hn, h.buf, ?_, hwithin, Or.inr ⟨heof, ?_⟩⟩
    · simp only [h.gpos, Cursor.advance, hnil, List.length_nil, Nat.add_zero]
    · simp only [Cursor.advance, hnil, List.length_nil, Nat.add_zero, hend]

/-- The flags are down once the stream is cleared after the end of the file. -/
theorem follows_clear (h : s.Follows c) :
    (if s.eof then s.clear else s).Follows c ∧ (if s.eof then s.clear else s).good = true := by
  split
  · exact ⟨⟨h.buf, h.gpos, h.within, Or.inl rfl⟩, rfl⟩
  · rename_i heof
    have hgood : s.good = true := h.flags.resolve_right fun hend => heof hend.1
    exact ⟨h, hgood⟩

/-- **Steps back** on a stream whose flags are down. -/
theorem follows_seekg (h : s.Follows c) (hgood : s.good = true) (m : Nat) :
    (s.seekg (c.pos - m : Nat)).Follows (c.back m) ∧ (s.seekg (c.pos - m : Nat)).good = true := by
  obtain ⟨heof, hfail⟩ := (good_iff s).mp hgood
  have hin := h.within
  have hle : c.pos - m ≤ s.buf.length := by
    rw [h.buf]
    omega
  rw [seekg_within s (c.pos - m) hfail hle]
  refine ⟨⟨h.buf, rfl, ?_, Or.inl ?_⟩, ?_⟩
  · simp only [Cursor.back]
    omega
  · simp [good, hfail]
  · simp [good, hfail]

end StringStream

end Lib
