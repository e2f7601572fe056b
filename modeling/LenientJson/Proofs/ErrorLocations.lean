import LenientJson.Proofs.DepthLimit
import LenientJson.Proofs.Reading.Positions

/-!
# Where errors are

Every error of a document tells where it is: at a character of the text or at its end, with the
line and the column that this place has in the whole text. Nesting too deep is reported at the
opener of the part that is refused.
-/
namespace LenientJson

/-- An error with its place in the text: a malformed text, or a refusal under the limit that was
given. Only a limit of zero refuses the text as a whole. -/
inductive LocatedError (text : List Char) (limit : Option Nat) : Error → Prop
  | malformed (detail : String) (location : Location)
      (whole : location = .of text location.offset)
      (boundary : Text.IsBoundary text location.offset) :
      LocatedError text limit (.malformed detail (some location))
  | depthLimit (m : Nat) (location : Location) (given : limit = some m)
      (whole : location = .of text location.offset)
      (boundary : Text.IsBoundary text location.offset)
      (opener : 1 ≤ m →
        Text.HasAt text '\x7b' location.offset ∨ Text.HasAt text '[' location.offset) :
      LocatedError text limit (.depthLimit m (some location))

theorem Location.offset_of {text : List Char} {offset : Nat} (h : Text.IsBoundary text offset) :
    (Location.of text offset).offset = offset := Nat.min_eq_left h.le_byteLength

namespace Reader

variable {text : List Char} {limit : Option Nat} {mode : ScanMode}

theorem locatedError_of_malformedAt {fault : Fault} (h : MalformedAt text fault) :
    LocatedError text limit (.ofFault text fault) := by
  obtain ⟨⟨malformation, hcause⟩, hboundary⟩ := h
  have hoffset := Location.offset_of hboundary
  rw [Error.ofFault, hcause]
  exact .malformed _ _ (by rw [hoffset]) (by rwa [hoffset])

/-- The faults of a document: besides those of its parts, it is refused as a whole where there is
no level for it. -/
def PlacedFault (text : List Char) (limit : Nat) (fault : Fault) : Prop :=
  Placed text limit fault ∨
    limit = 0 ∧ fault.cause = .tooDeep 0 ∧ Text.IsBoundary text fault.offset

theorem locatedError_of_placedFault {fault : Fault} {m : Nat}
    (h : PlacedFault text m fault) : LocatedError text (some m) (.ofFault text fault) := by
  rcases h with (hmalformed | ⟨hcause, bracket, hat⟩) | ⟨rfl, hcause, hboundary⟩
  · exact locatedError_of_malformedAt hmalformed
  · have hoffset := Location.offset_of hat.isBoundary
    rw [Error.ofFault, hcause]
    refine .depthLimit m _ rfl (by rw [hoffset]) (by rw [hoffset]; exact hat.isBoundary) fun _ => ?_
    rw [hoffset]
    cases bracket with
    | curly => exact .inl hat
    | square => exact .inr hat
  · have hoffset := Location.offset_of hboundary
    rw [Error.ofFault, hcause]
    exact .depthLimit 0 _ rfl (by rw [hoffset]) (by rwa [hoffset]) fun h => by cases h

theorem malformedAt_of_wholePart {bracket : Bracket} {s : Span} {cs : List Char} {fault : Fault}
    (hs : s.Within text) (hchars : s.chars = bracket.opener :: cs)
    (h : wholePart mode bracket s cs = .error fault) : MalformedAt text fault := by
  refine ⟨isMalformed_wholePart h, ?_⟩
  unfold wholePart at h
  cases htake : takeEnclosed mode bracket s cs with
  | error first =>
    simp only [htake, bind, Except.bind, Except.error.injEq] at h
    rw [← h, offset_of_takeEnclosed htake]
    exact hs.isBoundary
  | ok taken =>
    obtain ⟨part, rest⟩ := taken
    obtain ⟨inside, tail, rfl, -, -, rfl⟩ := takeEnclosed_eq_ok_iff.mp htake
    simp only [htake, bind, Except.bind] at h
    split at h
    · cases h
    · rw [← Except.error.inj h]
      exact (hs.past hchars).isBoundary

theorem within_of_wholePart {bracket : Bracket} {s : Span} {cs : List Char} {part : Enclosed}
    (hs : s.Within text) (hchars : s.chars = bracket.opener :: cs)
    (h : wholePart mode bracket s cs = .ok part) : part.Within text := by
  obtain ⟨inside, rfl, -, rfl⟩ := wholePart_eq_ok_iff.mp h
  exact within_part hs hchars

/-- The part that is the whole of a span is read, and its faults are placed. -/
theorem outcome_wholePart {α : Type} {bracket : Bracket} {s : Span} {cs : List Char}
    {read : Enclosed → Except Fault α} {m : Nat} {P : α → Prop} (hs : s.Within text)
    (hchars : s.chars = bracket.opener :: cs)
    (hread : ∀ part, part.Within text → Outcome P (Placed text m) (read part)) :
    Outcome (fun _ => True) (PlacedFault text m) (wholePart mode bracket s cs >>= read) := by
  cases hpart : wholePart mode bracket s cs with
  | error fault => exact .inl (.inl (malformedAt_of_wholePart hs hchars hpart))
  | ok part =>
    exact (hread part (within_of_wholePart hs hchars hpart)).mono (fun _ _ => trivial)
      fun _ hfault => .inl hfault

theorem placed_readObject (options : Options) (text : List Char) :
    Outcome (fun _ => True) (PlacedFault text (levels options text))
      (readObject options text).result := by
  have hwithin := (Span.within_ofText text).trim
  cases hs : (Span.ofText text).trim.chars with
  | nil => rw [readObject_nil hs]; trivial
  | cons c cs =>
    cases hl : levels options text with
    | zero =>
      rw [readObject_result_zero hs hl]
      exact .inr ⟨rfl, rfl, hwithin.isBoundary⟩
    | succ below =>
      rw [readObject_result_cons hs hl]
      split
      · trivial
      · split
        next hopen =>
          obtain ⟨rfl, -⟩ := hopen
          exact outcome_wholePart hwithin hs fun part hpart =>
            (Level.placed_ofDepth (below + 1)).object part hpart
        next => exact .inl (.inl ⟨⟨_, rfl⟩, hwithin.isBoundary⟩)

theorem placed_readArray (options : Options) (text : List Char) :
    Outcome (fun _ => True) (PlacedFault text (levels options text))
      (readArray options text).result := by
  have hwithin := (Span.within_ofText text).trim
  cases hs : (Span.ofText text).trim.chars with
  | nil => rw [readArray_nil hs]; trivial
  | cons c cs =>
    cases hl : levels options text with
    | zero =>
      rw [readArray_result_zero hs hl]
      exact .inr ⟨rfl, rfl, hwithin.isBoundary⟩
    | succ below =>
      rw [readArray_result_cons hs hl]
      split
      next hopen =>
        obtain rfl := hopen
        exact outcome_wholePart hwithin hs fun part hpart =>
          (Level.placed_ofDepth (below + 1)).array part hpart
      · split
        next =>
          obtain ⟨hparts, hfaults⟩ := staysWithin_takeStreamed.outline .objects
            (consumes_takeStreamed options.mode) hwithin
          exact (Reading.outcome_items
            (fun part hpart => (Level.placed_ofDepth below).object part (hparts part hpart))
            fun fault hfault => .inl (hfaults fault hfault)).mono (fun _ _ => trivial)
              fun _ hfault => .inl hfault
        next => exact .inl (.inl ⟨⟨_, rfl⟩, hwithin.isBoundary⟩)

/-- A document is refused under a limit only if one was given. -/
theorem locatedError_of_result {α : Type} {read : Options → List Char → Reading α} {e : Error}
    (placed : Outcome (fun _ => True) (PlacedFault text (levels ⟨mode, limit⟩ text))
      (read ⟨mode, limit⟩ text).result)
    (unlimited : Outcome (fun _ => True) IsMalformed (read ⟨mode, none⟩ text).result)
    (h : (read ⟨mode, limit⟩ text).result.mapError (Error.ofFault text) = .error e) :
    LocatedError text limit e := by
  cases hresult : (read ⟨mode, limit⟩ text).result with
  | ok value => rw [hresult] at h; cases h
  | error fault =>
    rw [hresult] at h placed
    obtain rfl : Error.ofFault text fault = e := Except.error.inj h
    cases limit with
    | some m => exact locatedError_of_placedFault placed
    | none =>
      rw [hresult] at unlimited
      obtain ⟨malformation, hcause⟩ := unlimited
      rcases placed with (hmalformed | ⟨hdeep, -⟩) | ⟨-, hdeep, -⟩
      · exact locatedError_of_malformedAt hmalformed
      · rw [hcause] at hdeep; cases hdeep
      · rw [hcause] at hdeep; cases hdeep

end Reader

open Reader in
/-- Every error of a text that is read as an object or as an array has its place in the text. -/
theorem locatedError_parse (text : List Char) (options : Options) :
    (∀ e, Object.parse text options = .error e → LocatedError text options.maxDepth e) ∧
      ∀ e, Items.parse text options = .error e → LocatedError text options.maxDepth e := by
  obtain ⟨mode, limit⟩ := options
  constructor
  · intro e
    exact locatedError_of_result (placed_readObject _ text) (outcome_readObject_unlimited mode text)
  · intro e
    exact locatedError_of_result (placed_readArray _ text) (outcome_readArray_unlimited mode text)

def missingValueText : List Char :=
  ['\x7b', 'é', ':', '\x7b', '\n', 'a', ':', ' ', '\x7d', '\x7d']

def nestedArrays : List Char := ['\x7b', 'é', ':', '[', '\n', '[', ']', ']', '\x7d']

open Reader in
theorem locatedError_parse_nestedArrays :
    (Object.parse missingValueText ⟨.legacy, some 2⟩ =
        .error (.malformed "missing value" (some ⟨9, 2, 4⟩)) ∧
      LocatedError missingValueText (some 2)
        (.malformed "missing value" (some ⟨9, 2, 4⟩))) ∧
    (Items.parse nestedArrays ⟨.stringAware, some 3⟩ = .error (.depthLimit 3 (some ⟨6, 2, 1⟩)) ∧
      LocatedError nestedArrays (some 3) (.depthLimit 3 (some ⟨6, 2, 1⟩))) := by
  have hfault : (readObject ⟨.legacy, some 2⟩ missingValueText).result =
      .error ⟨.malformed .missingValue, 9⟩ := by cbv
  have hmissing : Object.parse missingValueText ⟨.legacy, some 2⟩ =
      .error (.malformed "missing value" (some ⟨9, 2, 4⟩)) := by
    rw [Object.parse, hfault]
    rfl
  have hnested : Items.parse nestedArrays ⟨.stringAware, some 3⟩ =
      .error (.depthLimit 3 (some ⟨6, 2, 1⟩)) := by cbv
  exact ⟨⟨hmissing, (locatedError_parse missingValueText _).1 _ hmissing⟩,
    ⟨hnested, (locatedError_parse nestedArrays _).2 _ hnested⟩⟩

end LenientJson
