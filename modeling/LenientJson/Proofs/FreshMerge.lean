import LenientJson.Proofs.Reading.Canonical
import LenientJson.Proofs.Values.Reordering

/-!
# Merging into a new object

A text that is merged into a new object or array is read as it is on its own, with one exception:
a merge into an object lets every text of white space pass, while the reader knows ASCII blanks
only.
-/
namespace LenientJson

theorem Members.insertAll_nil {α : Type} {entries : List (String × α)} (h : Ascending entries) :
    insertAll entries [] = entries := ofList_of_perm h (.refl _)

namespace Object

theorem putAll_map (members onto : List (String × Value)) :
    (Object.map onto).putAll members = .map (Members.insertAll members onto) := by
  induction members generalizing onto with
  | nil => rfl
  | cons member rest ih => exact ih (Members.insert member.1 member.2 onto)

theorem merge_of_whiteSpace {text : List Char} (o : Object) (options : Options)
    (h : text.all Text.isWhiteSpace = true) : o.merge text options = .ok o := if_pos h

end Object

namespace Reader

variable {options : Options} {text : List Char}

theorem parse_of_isBlank (h : text.all Text.isBlank = true) :
    Object.parse text options = .ok .empty := by
  rw [Object.parse, readObject_nil (trim_ofText_eq_nil_iff.mpr h)]
  rfl

/-- The characters that are left of a text when the blanks around it are gone. -/
theorem mem_of_mem_trim_ofText {c : Char} (h : c ∈ (Span.ofText text).trim.chars) : c ∈ text := by
  have hdrop : c ∈ text.dropWhile Text.isBlank := by
    rw [← Text.trimEnd_append Text.isBlank (text.dropWhile Text.isBlank)]
    exact List.mem_append_left _ h
  exact (List.dropWhile_suffix _).mem hdrop

/-- White space beyond the ASCII blanks begins no object. -/
theorem error_of_whiteSpace (white : text.all Text.isWhiteSpace = true)
    (h : text.all Text.isBlank = false) :
    ∃ fault, (readObject options text).result = .error fault := by
  cases hs : (Span.ofText text).trim.chars with
  | nil => rw [trim_ofText_eq_nil_iff, h] at hs; cases hs
  | cons c cs =>
    have hc : Text.isWhiteSpace c = true :=
      List.all_eq_true.mp white c (mem_of_mem_trim_ofText (by rw [hs]; exact List.mem_cons_self))
    cases hl : levels options text with
    | zero => exact ⟨_, readObject_result_zero hs hl⟩
    | succ below =>
      have hquote : c ≠ '"' := by rintro rfl; cases hc
      have hbrace : c ≠ '\x7b' := by rintro rfl; cases hc
      rw [readObject_result_cons hs hl, if_neg hquote, if_neg fun hopen => hbrace hopen.1]
      exact ⟨_, rfl⟩

/-- The members that are read are in key order, so no key comes twice. -/
theorem ascending_of_parse {members : List (String × Value)}
    (h : Object.parse text options = .ok (.map members)) : Members.Ascending members := by
  rcases (canonical_readObject options text).of_eq_ok (mapError_eq_ok_iff.mp h) with
    ⟨string, heq⟩ | hmap
  · cases heq
  · cases hmap with
    | map ascending values => exact ascending

/-- What is read is put into a new object without a change. -/
theorem putAll_of_parse {members : List (String × Value)}
    (h : Object.parse text options = .ok (.map members)) :
    Object.empty.putAll members = .map members := by
  rw [Object.empty, Object.putAll_map, Members.insertAll_nil (ascending_of_parse h)]

/-- A text that is not of white space alone is merged into a new object as it is read. -/
theorem merge_empty (h : text.all Text.isWhiteSpace = false) :
    Object.empty.merge text options = Object.parse text options := by
  rw [Object.merge, if_neg (by rw [h]; exact Bool.false_ne_true)]
  cases hparse : Object.parse text options with
  | error e => rfl
  | ok o =>
    cases o with
    | scalar key s => rfl
    | map members => exact congrArg Except.ok (putAll_of_parse hparse)

end Reader

open Reader in
/-- A merge into a new object gives what the reader gives, for better or worse, exactly for the
texts that are not of white space or are of ASCII blanks; a merge into a new array always does. -/
theorem merge_fresh (text : List Char) (options : Options) :
    (Object.empty.merge text options = Object.parse text options ↔
      (text.all Text.isWhiteSpace = true → text.all Text.isBlank = true)) ∧
    Items.merge [] text options = Items.parse text options := by
  constructor
  · cases white : text.all Text.isWhiteSpace with
    | true =>
      rw [Object.merge_of_whiteSpace _ _ white]
      constructor
      · intro h _
        by_contra hblank
        obtain ⟨fault, hfault⟩ : ∃ fault, (readObject options text).result = .error fault :=
          error_of_whiteSpace white (Bool.eq_false_iff.mpr hblank)
        rw [Object.parse, hfault] at h
        cases h
      · intro h
        exact (parse_of_isBlank (h rfl)).symm
    | false =>
      constructor
      · intro _ h
        cases h
      · exact fun _ => merge_empty white
  · rw [Items.merge]
    cases Items.parse text options with
    | error e => rfl
    | ok items => rfl

/-- A no-break space passes a merge, and the reader refuses it. -/
theorem merge_fresh_noBreakSpace :
    Object.empty.merge ['\u00A0'] = .ok .empty ∧
      Object.parse ['\u00A0'] = .error (.malformed (Malformation.notEnclosed .curly).message
        (some ⟨0, 1, 1⟩)) ∧
      Object.empty.merge ['\u00A0'] ≠ Object.parse ['\u00A0'] := by
  have hmerge : Object.empty.merge ['\u00A0'] = .ok .empty :=
    Object.merge_of_whiteSpace _ _ (by decide)
  have hparse : Object.parse ['\u00A0'] = .error
      (.malformed (Malformation.notEnclosed .curly).message (some ⟨0, 1, 1⟩)) := by
    rfl
  refine ⟨hmerge, hparse, fun h => ?_⟩
  rw [hmerge, hparse] at h
  cases h

end LenientJson
