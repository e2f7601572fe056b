import LenientJson.Proofs.OffsetSafety
import LenientJson.Proofs.Offsets.Calls

/-!
# Termination

Reading comes to an end without any limit on the depth. Every round of a loop over items takes its
cursor on within the span, and a call asks for nothing but parts between its brackets, which are
shorter. Only an array without brackets asks for objects that may be all of its span, and no array
within another part is without brackets.
-/
namespace LenientJson

namespace Offsets

open Reader

variable {α : Type}

section Loops

variable (text : List Char) (siblings : Sibling) (item : Cursor → Run (α × Cursor))

/-- A loop over items comes to an end. -/
structure Ends : Prop where
  /-- A round that does not end the loop takes the cursor on. -/
  passes : ∀ cursor next, Round text siblings item cursor next → cursor.Passes next
  /-- There are no more of these than bytes from the cursor to the end of the span. -/
  rounds : ∀ cursor cursors, List.IsChain (Round text siblings item) (cursor :: cursors) →
    cursors.length ≤ cursor.stop - cursor.position
  /-- No round of the loop is refused for standing still. -/
  unchecked : ∀ cursor, parseItems text siblings item cursor = (do
    let start ← cursor.skip (Text.encodeUtf8 text) Text.isSeparator
    if start.isAtEnd then return []
    let (value, behind) ← item start
    let next ← expectSeparator text siblings behind
    return value :: (← parseItems text siblings item next))

variable {text siblings item}

theorem ends_of_passes
    (hitem : ∀ cursor value next, item cursor = pure (value, next) → cursor.Passes next) :
    Ends text siblings item where
  passes cursor next := passes_of_round hitem
  rounds cursor cursors := length_le_of_rounds fun _ _ => passes_of_round hitem
  unchecked cursor := by
    rw [parseItems]
    apply bind_congr_pure
    intro start hskip
    split
    · rfl
    next hmore =>
      apply bind_congr_pure
      rintro ⟨value, behind⟩ hvalue
      apply bind_congr_pure
      intro next hseparator
      have hpasses := passes_of_round hitem ⟨start, value, behind, lift_eq_pure_iff.mp hskip,
        Bool.eq_false_iff.mpr hmore, hvalue, hseparator⟩
      rw [if_pos ⟨hpasses.position_lt, hpasses.position_le_stop, hpasses.stop_eq⟩]

end Loops

section Nesting

variable (text : List Char) (options : Options)

/-- A call that another one makes. -/
structure Inside (outer inner : Call) : Prop where
  nonempty : inner.start < inner.stop
  depth_eq : inner.depth = outer.depth + 1
  /-- Its span is strictly inside that of the other. -/
  strictly : ¬IsStream text outer → outer.start < inner.start ∧ inner.stop < outer.stop
  /-- A stream asks for objects, and may ask for all of its span. -/
  within : IsStream text outer →
    inner.bracket = .curly ∧ outer.start ≤ inner.start ∧ inner.stop ≤ outer.stop
  /-- It reads no stream itself. -/
  not_isStream : ¬IsStream text inner

def rootCall (bracket : Bracket) : Call := ⟨bracket, 0, (Text.encodeUtf8 text).length, 1⟩

variable {text options} {first last depth : Nat} {outer inner : Call}

/-- An array that is found begins with its bracket. -/
theorem Found.not_isStream (h : Found text options first last depth inner) :
    ¬IsStream text inner := by
  rintro ⟨hsquare, first, last, htrim, hcurly⟩
  rw [h.trimSpan_eq] at htrim
  cases htrim
  have hopener := opener_of_findMatching h.findMatching_eq
  rw [hcurly, hsquare] at hopener
  exact absurd hopener (by decide)

theorem LooksIn.bounds (h : LooksIn text options outer first last) :
    outer.start ≤ first ∧ last ≤ outer.stop ∧
      (¬IsStream text outer → outer.start < first ∧ last < outer.stop) := by
  cases h with
  | enclosed htrim hwhole =>
    obtain ⟨hstart, hstop⟩ := bounds_of_trimSpan htrim
    obtain ⟨hfirst, hlast, hmatch⟩ := eq_of_wholeSpan hwhole
    obtain ⟨⟨hlt, hclose, -⟩, -⟩ := isFirst_of_findMatching hmatch
    simp only at hfirst hlast hlt hclose
    omega
  | stream hsquare htrim hcurly =>
    obtain ⟨hstart, hstop⟩ := bounds_of_trimSpan htrim
    exact ⟨hstart, hstop, fun hclosed => absurd ⟨hsquare, first, last, htrim, hcurly⟩ hclosed⟩

theorem MayAsk.inside (h : MayAsk text options outer inner) : Inside text outer inner := by
  obtain ⟨⟨first, last, hlooks, hfound⟩, hcurly⟩ := h
  obtain ⟨hstart, hstop, hstrict⟩ := hlooks.bounds
  obtain ⟨hlt, hlast⟩ := hfound.bounds
  have hfirst := hfound.first_le
  constructor
  · omega
  · exact hfound.depth_eq
  · intro hclosed
    obtain ⟨hstart, hstop⟩ := hstrict hclosed
    omega
  · exact fun hstream => ⟨hcurly hstream, by omega, by omega⟩
  · exact hfound.not_isStream

theorem inside_of_asks (h : Asks text options outer inner) : Inside text outer inner :=
  (mayAsk_of_asks h).inside

variable {path : List Call}

/-- Calls within each other are fewer than the bytes of the first one. -/
theorem length_lt_of_asks (hne : outer.start < outer.stop) (hstream : ¬IsStream text outer)
    (h : List.IsChain (Asks text options) (outer :: path)) :
    path.length < outer.stop - outer.start := by
  induction path generalizing outer with
  | nil => exact Nat.sub_pos_of_lt hne
  | cons inner path ih =>
    obtain ⟨hasks, hrest⟩ := List.isChain_cons_cons.mp h
    have hcall := inside_of_asks hasks
    have hlength := ih hcall.nonempty hcall.not_isStream hrest
    obtain ⟨hstart, hstop⟩ := hcall.strictly hstream
    rw [List.length_cons]
    omega

theorem length_le_of_asks {bracket : Bracket}
    (h : List.IsChain (Asks text options) (rootCall text bracket :: path)) :
    (rootCall text bracket :: path).length ≤ (Text.encodeUtf8 text).length + 1 := by
  cases path with
  | nil => exact Nat.le_add_left 1 _
  | cons inner path =>
    obtain ⟨hasks, hrest⟩ := List.isChain_cons_cons.mp h
    have hcall := inside_of_asks hasks
    have hlength := length_lt_of_asks hcall.nonempty hcall.not_isStream hrest
    have hstop : inner.stop ≤ (Text.encodeUtf8 text).length := by
      by_cases hstream : IsStream text (rootCall text bracket)
      · exact (hcall.within hstream).2.2
      · exact (hcall.strictly hstream).2.le
    simp only [List.length_cons]
    omega

end Nesting

end Offsets

open Offsets

structure Terminates (text : List Char) (options : Options) : Prop where
  /-- It ends in a value or in an error, with as many calls within each other as it is allowed. -/
  object : ∃ result, Offsets.readObject text options = .ok result
  array : ∃ result, Offsets.readArray text options = .ok result
  members : ∀ calls depth, Ends text .members (parseMember text options calls depth)
  elements : ∀ calls depth, Ends text .elements (parseElement text options calls depth)
  stream : ∀ calls depth, Ends text .objects (parseStreamed text options calls depth)
  inside : ∀ outer inner, Asks text options outer inner → Inside text outer inner
  nesting : ∀ bracket path, List.IsChain (Asks text options) (rootCall text bracket :: path) →
    (rootCall text bracket :: path).length ≤ (Text.encodeUtf8 text).length + 1

/-- Reading any text comes to an end, also without a limit on the depth. -/
theorem terminates (text : List Char) (options : Options) : Terminates text options where
  object := ⟨_, parseObject_ofText text options⟩
  array := ⟨_, parseArray_ofText text options⟩
  members _ _ := ends_of_passes fun _ _ _ => passes_of_parseMember
  elements _ _ := ends_of_passes fun _ _ _ => passes_of_parseElement
  stream _ _ := ends_of_passes fun _ _ _ => passes_of_parseStreamed
  inside _ _ := inside_of_asks
  nesting _ _ := length_le_of_asks

/-- An empty key without quotes and an array in an array. -/
theorem terminates_nestedArray :
    (∃ result, Offsets.readObject "\x7b:1\x7d".toList { maxDepth := none } = .ok result) ∧
      Inside "[[]]".toList ⟨.square, 0, 4, 1⟩ ⟨.square, 1, 3, 2⟩ :=
  ⟨(terminates "\x7b:1\x7d".toList { maxDepth := none }).object,
    (terminates "[[]]".toList { maxDepth := none }).inside _ _ asks_nestedArray⟩

end LenientJson
