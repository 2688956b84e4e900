import Ehttp.Lib.CString
import Ehttp.Lib.StringStream

/-! `string_utils.cpp`: splitting at one character and lower-casing. -/

namespace Ehttp

open Lib

/-- The fuel is one more than the number of `getline` calls that can succeed
(`ssSplitStr_eq_pieces`). -/
def ssSplitStr (input : Bytes) (s : UInt8) : List Bytes :=
  if input.isEmpty then [] else (StringStream.ofBuf input).getlines s (input.length + 1)

def ssStrTolower (input : Bytes) : Bytes := input.map tolower

theorem ssSplitStr_eq_pieces (input : Bytes) (s : UInt8) :
    ssSplitStr input s = StringStream.pieces s [] input := by
  unfold ssSplitStr
  cases input with
  | nil => rfl
  | cons c l =>
    have h := StringStream.getlines_eq_pieces s (l.length + 2) (StringStream.ofBuf (c :: l)) rfl
      (by simp [StringStream.rest, StringStream.ofBuf])
    simpa [StringStream.rest, StringStream.ofBuf] using h

/-- Two pieces: one separator, with text behind it. -/
theorem ssSplitStr_two (a b : Bytes) (s : UInt8) (ha : s ∉ a) (hb : s ∉ b) (hne : b ≠ []) :
    ssSplitStr (a ++ s :: b) s = [a, b] := by
  rw [ssSplitStr_eq_pieces, StringStream.pieces_token s a b ha, StringStream.pieces_last s b hb]
  simp [hne]

theorem ssSplitStr_three (a b c : Bytes) (s : UInt8) (ha : s ∉ a) (hb : s ∉ b) (hc : s ∉ c)
    (hne : c ≠ []) : ssSplitStr (a ++ s :: (b ++ s :: c)) s = [a, b, c] := by
  rw [ssSplitStr_eq_pieces, StringStream.pieces_token s a _ ha, StringStream.pieces_token s b _ hb,
    StringStream.pieces_last s c hc]
  simp [hne]

/-- Two pieces, with or without a separator behind them. -/
theorem ssSplitStr_pair (input : Bytes) (s : UInt8) (key value : Bytes) :
    ssSplitStr input s = [key, value] ↔ s ∉ key ∧ s ∉ value ∧
      (input = key ++ s :: value ∧ value ≠ [] ∨ input = key ++ s :: (value ++ [s])) := by
  rw [ssSplitStr_eq_pieces, StringStream.pieces_eq_cons]
  constructor
  · rintro ⟨hkey, ⟨-, -, h⟩ | ⟨m, rfl, h⟩⟩
    · simp at h
    · obtain ⟨hvalue, ⟨rfl, hne, -⟩ | ⟨n, rfl, hn⟩⟩ := (StringStream.pieces_eq_cons _ _ _ _).mp h
      · exact ⟨hkey, hvalue, Or.inl ⟨rfl, hne⟩⟩
      · rw [StringStream.pieces_eq_nil] at hn
        exact ⟨hkey, hvalue, Or.inr (by rw [hn])⟩
  · rintro ⟨hkey, hvalue, ⟨rfl, hne⟩ | rfl⟩
    · exact ⟨hkey, Or.inr ⟨value, rfl, by
        rw [StringStream.pieces_last _ _ hvalue, List.nil_append, if_neg hne]⟩⟩
    · exact ⟨hkey, Or.inr ⟨_, rfl, by
        rw [StringStream.pieces_token _ _ _ hvalue, List.nil_append, StringStream.pieces]; rfl⟩⟩

end Ehttp
