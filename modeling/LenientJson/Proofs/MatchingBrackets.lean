import LenientJson.Proofs.Offsets.Calls
import LenientJson.Proofs.Offsets.Takes

/-!
# Matching brackets

The scan for a closer finds the first balance point, and finds it with any end behind it. A part is
scanned twice, by the call that it stands in and by its own call, with different ends. Both find
the same closer, so its own call never has a fault to find with its brackets.
-/
namespace LenientJson

open Reader Offsets

section Scan

variable (mode : ScanMode) (opener closer : Char) (bytes : List UInt8) (start : Nat)

/-- A scan for the closer of an opener finds the first balance point. -/
structure FindsBalance : Prop where
  first : ∀ stop, ∃ found, findMatching mode opener closer bytes start stop = .ok found ∧
    IsFirst (IsBalancePoint mode bytes start opener closer) start stop found
  /-- What is found does not depend on the end. -/
  stable : ∀ stop close, findMatching mode opener closer bytes start stop = .ok (some close) →
    ∀ stop', close < stop' → findMatching mode opener closer bytes start stop' = .ok (some close)

end Scan

section Parts

variable (text : List Char) (options : Options)

/-- A call for a part takes it as the call around found it: with its closer in front of its end, and
nothing beside its brackets. -/
structure Rescanned (outer call : Call) : Prop where
  found : ∃ first last, LooksIn text options outer first last ∧
    first ≤ call.start ∧ call.stop ≤ last ∧
      findMatching options.mode call.bracket.opener call.bracket.closer (Text.encodeUtf8 text)
        call.start last = .ok (some (call.stop - 1))
  trimmed : trimSpan (Text.encodeUtf8 text) call.start call.stop = .ok (call.start, call.stop)
  whole : wholeSpan text options call.bracket call.start call.stop =
    pure (call.start + 1, call.stop - 1)
  /-- The run ends in an error only because of the depth or of what stands between the brackets. -/
  inside : ∀ calls, match call.bracket with
    | .curly => parseObject text options calls call.start call.stop call.depth = (do
        checkDepth text options call.depth call.start
        parseMembers text options calls (call.start + 1) (call.stop - 1) call.depth)
    | .square => parseArray text options calls call.start call.stop call.depth = (do
        checkDepth text options call.depth call.start
        parseElements text options calls (call.start + 1) (call.stop - 1) call.depth)

end Parts

namespace Offsets

variable {text : List Char} {options : Options} {first last depth : Nat} {call : Call}

theorem byteAt_eq {bytes : List UInt8} {i : Nat} {c : Char} (h : bytes[i]?.map asChar = some c) :
    ∃ byte, byteAt bytes i = .ok byte ∧ asChar byte = c := by
  obtain ⟨byte, hbyte, hc⟩ := Option.map_eq_some_iff.mp h
  exact ⟨byte, by rw [byteAt, hbyte], hc⟩

namespace Found

variable (h : Found text options first last depth call)
include h

theorem opener : (Text.encodeUtf8 text)[call.start]?.map asChar = some call.bracket.opener :=
  opener_of_findMatching h.findMatching_eq

theorem closer_eq : (Text.encodeUtf8 text)[call.stop - 1]?.map asChar = some call.bracket.closer :=
  closer_of_findMatching h.findMatching_eq

theorem minus_eq : (liftM (minus call.stop 1) : Run Nat) = pure (call.stop - 1) := by
  have hlt := h.bounds.1
  rw [minus, if_pos (by omega)]
  rfl

theorem wholeSpan_eq : wholeSpan text options call.bracket call.start call.stop =
    pure (call.start + 1, call.stop - 1) := by
  rw [wholeSpan, matching, lift_bind h.findMatching_eq]
  change (liftM (minus call.stop 1) : Run Nat) >>= _ = _
  rw [h.minus_eq, pure_bind, if_pos rfl]

theorem parseObject_eq (hcurly : call.bracket = .curly) (calls : Calls) :
    parseObject text options calls call.start call.stop call.depth = (do
      checkDepth text options call.depth call.start
      parseMembers text options calls (call.start + 1) (call.stop - 1) call.depth) := by
  have hlt := h.bounds.1
  obtain ⟨lead, hlead, hopener⟩ := byteAt_eq h.opener
  obtain ⟨tail, htail, hcloser⟩ := byteAt_eq h.closer_eq
  have hwhole := h.wholeSpan_eq
  rw [hcurly] at hopener hcloser hwhole
  have hbraced : isBraced (Text.encodeUtf8 text) call.start call.stop = .ok true := by
    rw [isBraced, minus, if_pos (by omega), hlead]
    simp only [bind, Except.bind, hopener, htail, hcloser]
    rfl
  rw [parseObject, lift_bind h.trimSpan_eq]
  simp only
  rw [if_neg (by omega)]
  apply bind_congr_pure
  intro _ _
  rw [lift_bind hlead, hopener, if_neg (by decide), lift_bind hbraced, if_pos rfl, hwhole]
  rfl

theorem parseArray_eq (hsquare : call.bracket = .square) (calls : Calls) :
    parseArray text options calls call.start call.stop call.depth = (do
      checkDepth text options call.depth call.start
      parseElements text options calls (call.start + 1) (call.stop - 1) call.depth) := by
  have hlt := h.bounds.1
  obtain ⟨lead, hlead, hopener⟩ := byteAt_eq h.opener
  have hwhole := h.wholeSpan_eq
  rw [hsquare] at hopener hwhole
  rw [parseArray, lift_bind h.trimSpan_eq]
  simp only
  rw [if_neg (by omega)]
  apply bind_congr_pure
  intro _ _
  rw [lift_bind hlead, hopener]
  change wholeSpan text options .square call.start call.stop >>= _ = _
  rw [hwhole]
  rfl

end Found

theorem MayAsk.rescanned {outer : Call} (h : MayAsk text options outer call) :
    Rescanned text options outer call := by
  obtain ⟨⟨first, last, hlooks, hfound⟩, -⟩ := h
  constructor
  · obtain ⟨close, hstop, hmatch⟩ := hfound.closer
    refine ⟨first, last, hlooks, hfound.first_le, hfound.bounds.2, ?_⟩
    rw [hmatch, hstop, Nat.add_sub_cancel]
  · exact hfound.trimSpan_eq
  · exact hfound.wholeSpan_eq
  · intro calls
    split
    next hcurly => exact hfound.parseObject_eq hcurly calls
    next hsquare => exact hfound.parseArray_eq hsquare calls

end Offsets

/-- A scan for a closer finds the first balance point, with any end behind it, so the own scan of
every part of a text finds what the scan around it found. -/
theorem matchingBrackets :
    (∀ mode opener closer bytes start, bytes[start]?.map asChar = some opener →
      FindsBalance mode opener closer bytes start) ∧
    ∀ text options outer call, Asks text options outer call →
      Rescanned text options outer call := by
  constructor
  · intro mode opener closer bytes start hopener
    exact ⟨fun _ => findMatching_isFirst hopener,
      fun _ _ hclose _ hlt => findMatching_stable hlt hclose⟩
  · exact fun text options outer call hasks => (mayAsk_of_asks hasks).rescanned

/-- The brackets of an array, and of the array in it. -/
theorem matchingBrackets_nestedArray :
    FindsBalance .stringAware '[' ']' (Text.encodeUtf8 "[[]]".toList) 0 ∧
      Rescanned "[[]]".toList { maxDepth := none } ⟨.square, 0, 4, 1⟩ ⟨.square, 1, 3, 2⟩ :=
  ⟨matchingBrackets.1 _ _ _ _ _ (by decide), matchingBrackets.2 _ _ _ _ asks_nestedArray⟩

end LenientJson
