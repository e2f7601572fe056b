import LenientJson.Command.Job
import LenientJson.Proofs.FreshMerge

/-!
# Documents of the command

Which shape a text has and which value, and how the members of a document may be listed.
-/
namespace LenientJson.Command

/-- The shape that is asked for, or else the one that the text shows. -/
inductive ShapeOf (asked : Option Shape) (text : List Char) : Shape → Prop where
  | asked {shape : Shape} (h : asked = some shape) : ShapeOf asked text shape
  | array {front rest : List Char} (h : asked = none)
      (hfront : ∀ c ∈ front, Text.isWhiteSpace c = true) (htext : text = front ++ '[' :: rest) :
      ShapeOf asked text .array
  | object (h : asked = none) (hnot : ∀ front rest : List Char,
      (∀ c ∈ front, Text.isWhiteSpace c = true) → text ≠ front ++ '[' :: rest) :
      ShapeOf asked text .object

/-- The value of a text. An object of white space alone is empty. -/
inductive ValueOf (text : List Char) (options : Options) : Shape → Document → Prop where
  | blank (hblank : text.all Text.isWhiteSpace = true) :
      ValueOf text options .object (.object .empty)
  | object {o : Object} (hblank : text.all Text.isWhiteSpace = false)
      (hparse : Object.parse text options = .ok o) : ValueOf text options .object (.object o)
  | array {items : List Object} (hparse : Items.parse text options = .ok items) :
      ValueOf text options .array (.array items)

inductive Document.Reordered : Document → Document → Prop where
  | object {o p : Object} (h : o.Reordered p) : Document.Reordered (.object o) (.object p)
  | array {items listed : List Object} (h : (Value.array items).Reordered (.array listed)) :
      Document.Reordered (.array items) (.array listed)

section Values

variable {asked : Option Shape} {shape : Shape} {text : List Char} {options : Options}
  {document : Document}

theorem detect_eq_array_iff : Shape.detect text = .array ↔ ∃ front rest : List Char,
    (∀ c ∈ front, Text.isWhiteSpace c = true) ∧ text = front ++ '[' :: rest := by
  rw [Shape.detect]
  constructor
  · intro h
    split at h
    next hhead =>
      obtain ⟨rest, hrest⟩ := List.head?_eq_some_iff.mp hhead
      refine ⟨text.takeWhile Text.isWhiteSpace, rest, fun c => List.mem_takeWhile_imp, ?_⟩
      rw [← hrest, Text.trimStart_append]
    next => cases h
  · rintro ⟨front, rest, hfront, rfl⟩
    rw [Text.trimStart, List.dropWhile_append_of_pos hfront]
    rfl

theorem shapeOf_iff : ShapeOf asked text shape ↔ asked.getD (.detect text) = shape := by
  constructor
  · intro h
    cases h with
    | asked h => rw [h, Option.getD_some]
    | array h hfront htext =>
      rw [h, Option.getD_none]
      exact detect_eq_array_iff.mpr ⟨_, _, hfront, htext⟩
    | object h hnot =>
      rw [h, Option.getD_none]
      cases hdetect : Shape.detect text with
      | object => rfl
      | array =>
        obtain ⟨front, rest, hfront, htext⟩ := detect_eq_array_iff.mp hdetect
        exact absurd htext (hnot front rest hfront)
  · rintro rfl
    cases asked with
    | some shape => exact .asked rfl
    | none =>
      rw [Option.getD_none]
      cases hdetect : Shape.detect text with
      | array =>
        obtain ⟨front, rest, hfront, htext⟩ := detect_eq_array_iff.mp hdetect
        exact .array rfl hfront htext
      | object =>
        refine .object rfl fun front rest hfront htext => ?_
        rw [detect_eq_array_iff.mpr ⟨front, rest, hfront, htext⟩] at hdetect
        cases hdetect

theorem document_parse_eq_ok_iff :
    Document.parse shape text options = .ok document ↔ ValueOf text options shape document := by
  constructor
  · intro h
    cases shape with
    | object =>
      obtain ⟨o, hmerge, rfl⟩ := Reader.exists_of_map_eq_ok h
      cases hblank : text.all Text.isWhiteSpace with
      | true =>
        rw [Object.merge_of_whiteSpace _ _ hblank] at hmerge
        cases hmerge
        exact .blank hblank
      | false => exact .object hblank ((Reader.merge_empty hblank).symm.trans hmerge)
    | array =>
      obtain ⟨items, hparse, rfl⟩ := Reader.exists_of_map_eq_ok h
      exact .array hparse
  · intro h
    cases h with
    | blank hblank => rw [Document.parse, Object.merge_of_whiteSpace _ _ hblank]; rfl
    | object hblank hparse => rw [Document.parse, Reader.merge_empty hblank, hparse]; rfl
    | array hparse => rw [Document.parse, hparse]; rfl

end Values

section Listings

theorem Document.reordered_self (document : Document) : document.Reordered document := by
  cases document with
  | object o =>
    cases (Value.object o).reordered_self with
    | object h => exact .object h
  | array items => exact .array (Value.array items).reordered_self

def Document.reversed : Document → Document
  | .object (.map members) => .object (.map members.reverse)
  | document => document

theorem Document.reordered_reversed (document : Document) :
    document.Reordered document.reversed := by
  rcases document with o | items
  · cases o with
    | scalar key s => exact .object (.scalar key s)
    | map members => exact .object (Object.reordered_of_perm members.reverse_perm.symm)
  · exact .array (Value.array items).reordered_self

end Listings

end LenientJson.Command
