import LenientJson.Proofs.Reading.Levels
import LenientJson.Text.Span

/-!
# Positions in the whole text

Every span that is taken from a text stands in it at its own offset, however deep it lies. So a
fault is noticed where a character begins, or at the end, and nesting too deep is noticed at the
opener of the part refused.
-/
namespace LenientJson

namespace Text

/-- An offset at which a character of the text begins, or the end of the text. -/
def IsBoundary (text : List Char) (offset : Nat) : Prop :=
  ∃ front back, text = front ++ back ∧ offset = byteLength front

def HasAt (text : List Char) (c : Char) (offset : Nat) : Prop :=
  ∃ front back, text = front ++ c :: back ∧ offset = byteLength front

theorem HasAt.isBoundary {text : List Char} {c : Char} {offset : Nat} (h : HasAt text c offset) :
    IsBoundary text offset := by
  obtain ⟨front, back, htext, hoffset⟩ := h
  exact ⟨front, c :: back, htext, hoffset⟩

theorem IsBoundary.le_byteLength {text : List Char} {offset : Nat} (h : IsBoundary text offset) :
    offset ≤ byteLength text := by
  obtain ⟨front, back, rfl, rfl⟩ := h
  rw [byteLength_append]
  exact Nat.le_add_right _ _

end Text

namespace Span

variable {text : List Char} {s rest : Span}

/-- What is left of a span once characters are taken from its front. -/
def Behind (s rest : Span) : Prop :=
  ∃ taken, s.chars = taken ++ rest.chars ∧ rest.offset = s.offset + Text.byteLength taken

theorem behind_advance {taken tail : List Char} (hs : s.chars = taken ++ tail) :
    s.Behind (s.advance taken tail) := ⟨taken, hs, rfl⟩

theorem behind_skipWhile (p : Char → Bool) (s : Span) : s.Behind (s.skipWhile p) :=
  behind_advance List.takeWhile_append_dropWhile.symm

theorem behind_past {opener closer : Char} {inside tail : List Char}
    (hs : s.chars = opener :: (inside ++ closer :: tail)) :
    s.Behind (s.past opener inside closer tail) := by
  rw [past_eq_advance]
  exact behind_advance (by simp [hs])

theorem Behind.trans {mid : Span} (h : s.Behind mid) (h' : mid.Behind rest) : s.Behind rest := by
  obtain ⟨taken, hs, hoffset⟩ := h
  obtain ⟨taken', hmid, hoffset'⟩ := h'
  refine ⟨taken ++ taken', by rw [hs, hmid, List.append_assoc], ?_⟩
  rw [hoffset', hoffset, Text.byteLength_append, Nat.add_assoc]

theorem Behind.within (h : s.Behind rest) (hs : s.Within text) : rest.Within text := by
  obtain ⟨taken, hchars, hoffset⟩ := h
  have hadvance := hs.advance hchars
  rw [Span.advance, ← hoffset] at hadvance
  exact hadvance

theorem Within.isBoundary (h : s.Within text) : Text.IsBoundary text s.offset := by
  obtain ⟨front, back, htext, hoffset⟩ := h
  exact ⟨front, s.chars ++ back, by rw [htext, List.append_assoc], hoffset⟩

theorem Within.past {opener closer : Char} {inside tail : List Char} (h : s.Within text)
    (hs : s.chars = opener :: (inside ++ closer :: tail)) :
    (s.past opener inside closer tail).Within text := (behind_past hs).within h

/-- What stands at the front of a span stands in the text at the same place. -/
theorem Within.front {taken rest : List Char} (h : s.Within text) (hs : s.chars = taken ++ rest) :
    (⟨s.offset, taken⟩ : Span).Within text := by
  obtain ⟨front, back, htext, hoffset⟩ := h
  exact ⟨front, rest ++ back, by simp [htext, hs], hoffset⟩

theorem Within.trim (h : s.Within text) : s.trim.Within text := by
  obtain ⟨front, back, htext, hoffset⟩ := h.skipWhile Text.isBlank
  refine ⟨front, ((s.skipWhile Text.isBlank).chars.reverse.takeWhile Text.isBlank).reverse ++ back,
    ?_, hoffset⟩
  rw [← List.append_assoc, List.append_assoc front, Span.trim, Text.trimEnd_append]
  exact htext

end Span

namespace Reader

def Enclosed.Within (text : List Char) (part : Enclosed) : Prop :=
  ∃ (bracket : Bracket) (front back : List Char),
    text = front ++ bracket.opener :: (part.inside ++ back) ∧
      part.opener = Text.byteLength front

section Within

variable {text : List Char} {mode : ScanMode} {s rest : Span}

theorem Enclosed.Within.body {part : Enclosed} (h : part.Within text) :
    part.body.Within text := by
  obtain ⟨bracket, front, back, htext, hopener⟩ := h
  refine ⟨front ++ [bracket.opener], back, by simp [htext, Enclosed.body], ?_⟩
  have hsize : bracket.opener.utf8Size = 1 := by cases bracket <;> rfl
  simp [Enclosed.body, hopener, hsize]

theorem Enclosed.Within.hasAt {part : Enclosed} (h : part.Within text) :
    ∃ bracket : Bracket, Text.HasAt text bracket.opener part.opener := by
  obtain ⟨bracket, front, back, htext, hopener⟩ := h
  exact ⟨bracket, front, _, htext, hopener⟩

theorem within_part {bracket : Bracket} {inside tail : List Char} (h : s.Within text)
    (hs : s.chars = bracket.opener :: (inside ++ tail)) :
    Enclosed.Within text ⟨s.offset, inside⟩ := by
  obtain ⟨front, back, htext, hoffset⟩ := h
  exact ⟨bracket, front, tail ++ back, by simp [htext, hs], hoffset⟩

theorem Taken.behind {piece : Piece} (h : Taken mode s piece rest) : s.Behind rest := by
  cases h with
  | quoted chars quotable => exact Span.behind_past chars
  | enclosed chars balanced => exact Span.behind_past chars
  | word chars first inside behind nonempty => exact Span.behind_advance chars

theorem KeyTaken.behind {key : List Char} (h : KeyTaken s key rest) : s.Behind rest := by
  cases h with
  | quoted chars quotable => exact Span.behind_past chars
  | bare chars first inside => exact Span.behind_advance chars

theorem behind_of_takeColon (h : takeColon s = .ok rest) : s.Behind rest := by
  obtain ⟨tail, hchars, rfl⟩ := takeColon_eq_ok_iff.mp h
  exact Span.behind_advance hchars

/-- Of a span in the text, the part that is taken stands in the text too. -/
theorem Taken.within {piece : Piece} (h : Taken mode s piece rest) (hs : s.Within text) :
    piece.PartIn (Enclosed.Within text) := by
  cases h with
  | quoted chars quotable => trivial
  | enclosed chars balanced => exact within_part hs chars
  | word chars first inside behind nonempty => trivial

end Within

def Leaves {α : Type} (take : Span → Except Fault (α × Span)) : Prop :=
  ∀ s item rest, take s = .ok (item, rest) → s.Behind rest

section Leaves

variable {mode : ScanMode}

theorem leaves_takePiece : Leaves (takePiece mode) :=
  fun _ _ _ htake => (takePiece_eq_ok_iff.mp htake).behind

theorem leaves_takeMember : Leaves (takeMember mode) := by
  intro s ⟨name, piece⟩ rest htake
  obtain ⟨key, behindKey, behindColon, hkey, -, hcolon, hpiece⟩ := takeMember_eq_ok_iff.mp htake
  have hbehindColon := (hkey.behind.trans (Span.behind_skipWhile _ _)).trans
    (behind_of_takeColon hcolon)
  exact (hbehindColon.trans (Span.behind_skipWhile _ _)).trans hpiece.behind

theorem leaves_takeStreamed : Leaves (takeStreamed mode) :=
  fun _ _ _ htake => (takeStreamed_eq_ok_iff.mp htake).behind

end Leaves

section Faults

variable {mode : ScanMode} {s : Span} {fault : Fault}

theorem offset_of_takeQuoted {cs : List Char} (h : takeQuoted s cs = .error fault) :
    fault.offset = s.offset := by
  unfold takeQuoted at h
  split at h
  · rw [← Except.error.inj h]
    rfl
  · cases h

theorem offset_of_takeEnclosed {bracket : Bracket} {cs : List Char}
    (h : takeEnclosed mode bracket s cs = .error fault) : fault.offset = s.offset := by
  unfold takeEnclosed at h
  split at h
  · rw [← Except.error.inj h]
    rfl
  · cases h

theorem offset_of_takePiece (h : takePiece mode s = .error fault) : fault.offset = s.offset := by
  unfold takePiece at h
  split at h
  · exact offset_of_takeQuoted (error_of_map h)
  · exact offset_of_takeEnclosed (error_of_map h)
  · exact offset_of_takeEnclosed (error_of_map h)
  · have hword := error_of_map h
    unfold takeWord at hword
    simp only at hword
    split at hword
    · rw [← Except.error.inj hword]
      rfl
    · cases hword

theorem offset_of_takeKey (h : takeKey s = .error fault) : fault.offset = s.offset := by
  unfold takeKey at h
  split at h
  · exact offset_of_takeQuoted (error_of_map h)
  · simp only at h
    split at h
    · rw [← Except.error.inj h]
      rfl
    · cases h

theorem offset_of_takeColon (h : takeColon s = .error fault) : fault.offset = s.offset := by
  unfold takeColon at h
  split at h
  · cases h
  · rw [← Except.error.inj h]
    rfl

theorem offset_of_takeStreamed (h : takeStreamed mode s = .error fault) :
    fault.offset = s.offset := by
  unfold takeStreamed at h
  split at h
  · exact offset_of_takeEnclosed h
  · rw [← Except.error.inj h]
    rfl

/-- A member is at fault in its key, at its colon or in its piece. -/
theorem isBoundary_of_takeMember {text : List Char} (hs : s.Within text)
    (h : takeMember mode s = .error fault) : Text.IsBoundary text fault.offset := by
  unfold takeMember at h
  cases hkey : takeKey s with
  | error first =>
    simp only [hkey, bind, Except.bind, Except.error.injEq] at h
    rw [← h, offset_of_takeKey hkey]
    exact hs.isBoundary
  | ok keyed =>
    have hbehindKey := ((takeKey_eq_ok_iff.mp hkey).behind.within hs).skipWhile Text.isBlank
    cases hcolon : takeColon (keyed.2.skipWhile Text.isBlank) with
    | error second =>
      simp only [hkey, hcolon, bind, Except.bind, Except.error.injEq] at h
      rw [← h, offset_of_takeColon hcolon]
      exact hbehindKey.isBoundary
    | ok behindColon =>
      have hvalue := ((behind_of_takeColon hcolon).within hbehindKey).skipWhile Text.isBlank
      cases hpiece : takePiece mode (behindColon.skipWhile Text.isBlank) with
      | error third =>
        simp only [hkey, hcolon, hpiece, bind, Except.bind, Except.error.injEq] at h
        rw [← h, offset_of_takePiece hpiece]
        exact hvalue.isBoundary
      | ok taken => simp [hkey, hcolon, hpiece, bind, Except.bind, pure, Except.pure] at h

end Faults

def MalformedAt (text : List Char) (fault : Fault) : Prop :=
  IsMalformed fault ∧ Text.IsBoundary text fault.offset

structure StaysWithin {α : Type} (text : List Char) (take : Span → Except Fault (α × Span))
    (Item : α → Prop) : Prop where
  taken : ∀ s item rest, s.Within text → take s = .ok (item, rest) →
    Item item ∧ rest.Within text
  failed : ∀ s fault, s.Within text → take s = .error fault → MalformedAt text fault

section StaysWithin

variable {α : Type} {text : List Char} {take : Span → Except Fault (α × Span)} {Item : α → Prop}

theorem StaysWithin.invariant (h : StaysWithin text take Item) :
    Invariant take (Span.Within text) (Span.Within text) Item where
  skip _ hs _ := hs.skipWhile _
  item _ _ _ hs htake := (h.taken _ _ _ hs htake).1
  step _ _ _ hs htake _ := (h.taken _ _ _ hs htake).2.skipWhile _

theorem StaysWithin.outline (h : StaysWithin text take Item) (siblings : Sibling)
    (consumes : Consumes take) {s : Span} (hs : s.Within text) :
    (∀ item ∈ (outline siblings take consumes s).items, Item item) ∧
      ∀ fault, (outline siblings take consumes s).fault = some fault → MalformedAt text fault := by
  refine ⟨h.invariant.items hs, fun fault => h.invariant.fault h.failed ?_ hs⟩
  intro s item rest hs htake
  exact ⟨⟨_, rfl⟩, ((h.taken _ _ _ hs htake).2.skipWhile _).isBoundary⟩

variable {mode : ScanMode}

theorem staysWithin_takePiece :
    StaysWithin text (takePiece mode) (Piece.PartIn (Enclosed.Within text)) where
  taken _ _ _ hs htake :=
    ⟨(takePiece_eq_ok_iff.mp htake).within hs, (leaves_takePiece _ _ _ htake).within hs⟩
  failed _ _ hs htake :=
    ⟨isMalformed_takePiece htake, by rw [offset_of_takePiece htake]; exact hs.isBoundary⟩

theorem staysWithin_takeMember :
    StaysWithin text (takeMember mode) fun member => member.2.PartIn (Enclosed.Within text) where
  taken s member rest hs htake := by
    obtain ⟨name, piece⟩ := member
    obtain ⟨key, behindKey, behindColon, hkey, -, hcolon, hpiece⟩ := takeMember_eq_ok_iff.mp htake
    have hbehindColon := (behind_of_takeColon hcolon).within ((hkey.behind.within hs).skipWhile _)
    exact ⟨hpiece.within (hbehindColon.skipWhile _), (leaves_takeMember _ _ _ htake).within hs⟩
  failed _ _ hs htake := ⟨isMalformed_takeMember htake, isBoundary_of_takeMember hs htake⟩

theorem staysWithin_takeStreamed :
    StaysWithin text (takeStreamed mode) (Enclosed.Within text) where
  taken _ _ _ hs htake :=
    ⟨(takeStreamed_eq_ok_iff.mp htake).within hs, (leaves_takeStreamed _ _ _ htake).within hs⟩
  failed _ _ hs htake :=
    ⟨isMalformed_takeStreamed htake, by rw [offset_of_takeStreamed htake]; exact hs.isBoundary⟩

end StaysWithin

/-- A fault in the form of the text, or a refusal under the limit at an opener. -/
def Placed (text : List Char) (limit : Nat) (fault : Fault) : Prop :=
  MalformedAt text fault ∨
    fault.cause = .tooDeep limit ∧ ∃ bracket : Bracket, Text.HasAt text bracket.opener fault.offset

/-- Every level finds the faults of parts of the text where they are in the whole text. -/
theorem Level.placed_ofDepth {text : List Char} {mode : ScanMode} {limit : Nat} (depth : Nat) :
    (ofDepth mode limit depth).Gives (Enclosed.Within text) (Placed text limit) (fun _ => True)
      fun _ => True := by
  induction depth with
  | zero =>
    exact ⟨fun part hpart => .inr ⟨rfl, hpart.hasAt⟩, fun part hpart => .inr ⟨rfl, hpart.hasAt⟩⟩
  | succ depth ih =>
    rw [ofDepth_succ]
    apply ih.above_of_outlines
    case scalars => exact ⟨fun _ => ⟨trivial, trivial⟩, fun _ => ⟨trivial, trivial⟩⟩
    case outlines =>
      intro part hpart
      obtain ⟨hmembers, hmembersFault⟩ := staysWithin_takeMember.outline .members
        (consumes_takeMember mode) hpart.body
      obtain ⟨helements, helementsFault⟩ := staysWithin_takePiece.outline .elements
        (consumes_takePiece mode) hpart.body
      exact ⟨⟨hmembers, fun fault hfault => .inl (hmembersFault fault hfault)⟩,
        helements, fun fault hfault => .inl (helementsFault fault hfault)⟩
    case map => exact fun _ _ => ⟨trivial, trivial⟩
    case array => exact fun _ _ => ⟨trivial, trivial⟩

end Reader

end LenientJson
