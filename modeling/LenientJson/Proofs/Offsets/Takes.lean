import LenientJson.Offsets.Parser
import LenientJson.Proofs.Offsets.Cursors
import LenientJson.Proofs.Offsets.Escaping
import LenientJson.Proofs.Offsets.Scans

/-!
# What is taken at a cursor

A run that is not in breach follows a result: it ends in the value, or in the error that the fault
is in the whole text. What is taken at the cursor of a span follows what is taken from the span.
-/
namespace LenientJson.Offsets

open Reader

variable {α β : Type} {text : List Char}

section Follows

variable (text) in
/-- The run that ends as the result does, without a breach. -/
def tracked (x : Except Fault α) : Run α := ExceptT.mk (.ok (x.mapError (Error.ofFault text)))

theorem tracked_map (f : α → β) (x : Except Fault α) :
    (tracked text x >>= fun a => pure (f a)) = tracked text (x.map f) := by
  cases x <;> rfl

/-- A checked access that is within the bounds does not matter. -/
theorem lift_bind {x : Checked α} {a : α} (h : x = .ok a) (g : α → Run β) :
    ((liftM x : Run α) >>= g) = g a := by
  rw [h]
  rfl

end Follows

variable {options : Options} {mode : ScanMode} {bracket : Bracket} {s : Span} {cs : List Char}

theorem malformed_eq {offset : Nat} (h : Text.IsBoundary text offset)
    (malformation : Malformation) :
    malformed text malformation offset =
      (tracked text (.error (.malformed malformation offset)) : Run α) := by
  rw [malformed, lift_bind (locate_eq h)]
  rfl

def close (part : Enclosed) : Nat := part.opener + 1 + Text.byteLength part.inside

section Within

variable (h : s.Within text)
include h

theorem matching_eq (hs : s.chars = bracket.opener :: cs) :
    matching text options bracket s.offset (s.offset + Text.byteLength s.chars) =
      tracked text ((takeEnclosed options.mode bracket s cs).map fun (part, _) => close part) := by
  rw [matching, lift_bind (findMatching_within h hs)]
  unfold takeEnclosed
  cases splitEnclosed options.mode bracket {} cs with
  | none => exact malformed_eq h.isBoundary _
  | some split => rfl

theorem closingQuote_eq (hs : s.chars = '"' :: cs) :
    closingQuote text s.offset (s.offset + Text.byteLength s.chars) =
      tracked text ((takeQuoted s cs).map fun (content, _) =>
        s.offset + 1 + Text.byteLength content) := by
  rw [closingQuote, lift_bind (expectOpener_within h (by decide) hs),
    lift_bind (findClosingQuote_within h hs)]
  unfold takeQuoted
  cases splitQuoted false cs with
  | none => exact malformed_eq h.isBoundary _
  | some split => rfl

theorem quoted_eq (hs : s.chars = '"' :: cs) :
    quoted text (cursorOf s) = tracked text ((takeQuoted s cs).map fun (content, rest) =>
      (content, cursorOf rest)) := by
  rw [quoted, cursorOf, closingQuote_eq h hs]
  cases htake : takeQuoted s cs with
  | error fault => rfl
  | ok taken =>
    obtain ⟨content, rest⟩ := taken
    obtain ⟨tail, rfl, -, rfl⟩ := takeQuoted_eq_ok_iff.mp htake
    change (liftM ((cursorOf s).advanceTo (Text.encodeUtf8 text) _) : Run Cursor) >>= _ = _
    rw [lift_bind (advanceTo_past h (by decide) (by decide) hs),
      lift_bind (slice_inside h (by decide) hs)]
    rfl

theorem primitive_eq : primitive text (cursorOf s) =
    tracked text ((takeWord s).map fun (word, rest) => (.ofWord word, cursorOf rest)) := by
  have hsplit : s.chars = s.chars.takeWhile (· != ',') ++ s.chars.dropWhile (· != ',') :=
    List.takeWhile_append_dropWhile.symm
  have hstop : (if ',' ∈ s.chars then
      some (s.offset + Text.byteLength (s.chars.takeWhile (· != ','))) else none).getD
        (cursorOf s).stop = s.offset + Text.byteLength (s.chars.takeWhile (· != ',')) := by
    split
    · rfl
    next hcomma =>
      have hall : s.chars.takeWhile (· != ',') = s.chars := by
        rw [List.takeWhile_eq_self_iff]
        intro c hc
        rw [bne_iff_ne]
        rintro rfl
        exact hcomma hc
      rw [hall]
      rfl
  rw [primitive, lift_bind (find?_cursorOf h (by decide)), hstop,
    lift_bind (advanceTo_cursorOf h hsplit)]
  change (liftM (slice text s.offset _) : Run (List Char)) >>= _ = _
  rw [lift_bind (slice_within h hsplit)]
  unfold takeWord
  simp only
  split
  · exact malformed_eq h.isBoundary _
  · rfl

theorem parseKey_eq : parseKey text (cursorOf s) =
    tracked text ((takeKey s).map fun (key, rest) => (.ofList key, cursorOf rest)) := by
  unfold parseKey
  split
  next hquote =>
    obtain ⟨cs, hs⟩ := exists_of_peek h (by decide) hquote
    rw [quoted_eq h hs, takeKey_quote hs]
    cases takeQuoted s cs with
    | error fault => rfl
    | ok taken =>
      change (liftM (unescape taken.1) : Run (List Char)) >>= _ = _
      rw [lift_bind (unescape_eq taken.1)]
      rfl
  next hquote =>
    replace hquote := head?_ne_of_peek h (by decide) hquote
    rw [lift_bind (find?_cursorOf h (by decide))]
    by_cases hcolon : ':' ∈ s.chars
    · obtain ⟨taken, tail, hs, hmem⟩ := List.eq_append_cons_of_mem hcolon
      have hne : ∀ c ∈ taken, c ≠ ':' := by
        rintro c hc rfl
        exact hmem hc
      have hkey := takeKey_eq_ok_iff.mpr (.bare hs hquote hne)
      rw [if_pos hcolon, hs, takeWhile_ne_append_cons tail hmem]
      change (liftM ((cursorOf s).advanceTo (Text.encodeUtf8 text) _) : Run Cursor) >>= _ =
        tracked text ((takeKey s).map _)
      rw [lift_bind (advanceTo_cursorOf h hs), hkey]
      change (liftM (slice text s.offset _) : Run (List Char)) >>= _ = _
      rw [lift_bind (slice_within h hs)]
      rfl
    · rw [if_neg hcolon, takeKey_of_not_mem hquote hcolon]
      exact malformed_eq h.isBoundary _

end Within

end LenientJson.Offsets
