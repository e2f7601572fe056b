import LenientJson.Text.Blank
import LenientJson.Text.Location

/-!
# Spans

A span is a run of characters together with the offset at which it stands in the whole text.
Taking characters from its front moves the offset on by their bytes, so every position that a
reader reports is a position in the whole text.
-/
namespace LenientJson

structure Span where
  offset : Nat
  chars : List Char
  deriving DecidableEq, Repr

namespace Span

/-- The whole of a text. -/
def ofText (text : List Char) : Span := ⟨0, text⟩

/-- What is left behind `taken`, where `rest` follows it. -/
def advance (s : Span) (taken rest : List Char) : Span :=
  ⟨s.offset + Text.byteLength taken, rest⟩

/-- What is left behind a part between two characters, where `rest` follows it. -/
def past (s : Span) (opener : Char) (inside : List Char) (closer : Char) (rest : List Char) :
    Span :=
  ⟨s.offset + opener.utf8Size + Text.byteLength inside + closer.utf8Size, rest⟩

theorem past_eq_advance (s : Span) (opener : Char) (inside : List Char) (closer : Char)
    (rest : List Char) :
    s.past opener inside closer rest = s.advance (opener :: inside ++ [closer]) rest := by
  simp [past, advance, Nat.add_assoc]

def skipWhile (p : Char → Bool) (s : Span) : Span :=
  s.advance (s.chars.takeWhile p) (s.chars.dropWhile p)

/-- Drops ASCII blanks at both ends. -/
def trim (s : Span) : Span :=
  let start := s.skipWhile Text.isBlank
  ⟨start.offset, Text.trimEnd Text.isBlank start.chars⟩

/-- The span stands in the text at its offset. -/
def Within (text : List Char) (s : Span) : Prop :=
  ∃ front back, text = front ++ s.chars ++ back ∧ s.offset = Text.byteLength front

theorem within_ofText (text : List Char) : (ofText text).Within text :=
  ⟨[], [], by simp [ofText], rfl⟩

theorem Within.advance {text taken rest : List Char} {s : Span} (h : s.Within text)
    (hs : s.chars = taken ++ rest) : (s.advance taken rest).Within text := by
  obtain ⟨front, back, htext, hoffset⟩ := h
  refine ⟨front ++ taken, back, ?_, ?_⟩
  · simp [Span.advance, htext, hs]
  · simp [Span.advance, hoffset]

theorem Within.skipWhile {text : List Char} {s : Span} (p : Char → Bool) (h : s.Within text) :
    (s.skipWhile p).Within text := h.advance List.takeWhile_append_dropWhile.symm

theorem length_skipWhile_le (p : Char → Bool) (s : Span) :
    (s.skipWhile p).chars.length ≤ s.chars.length := (List.dropWhile_suffix p).length_le

end Span

end LenientJson
