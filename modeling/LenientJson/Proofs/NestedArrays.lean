import LenientJson.Proofs.Folding
import LenientJson.Proofs.LayoutFreedom
import LenientJson.Proofs.ParsedValues

/-!
# Arrays within arrays

An array that stands directly in an array is kept as a map, and so are the arrays in it. Turning
back one map after the other, from the outermost inwards, gives the tree that was written.
-/
namespace LenientJson

section Nesting

variable {members : List (String × Value)} {items : List Object} {o : Object}

theorem Value.nesting_toElement_le (v : Value) : v.toElement.nesting ≤ v.nesting := by
  cases v with
  | scalar s => exact Nat.zero_le _
  | object o => exact le_rfl
  | array items => exact Items.nesting_fold_le items

/-- The elements of an array are less nested than the map that stands for it. -/
theorem Object.nesting_lt_of_mem_toItems? (h : (Object.map members).toItems? = some items)
    (ho : o ∈ items) : o.nesting < (Object.map members).nesting := by
  obtain ⟨i, hi, rfl⟩ := List.getElem_of_mem ho
  obtain ⟨v, hv, helement⟩ := Option.map_eq_some_iff.mp ((toItems?_map_eq_some_iff.mp h).2 i hi)
  have hmember : v.nesting ≤ nestingMembers members :=
    nestingMembers_le_iff.mp le_rfl _ (Members.mem_of_get? hv)
  rw [← helement, nesting]
  have hle := v.nesting_toElement_le
  omega

end Nesting

/-- The tree of arrays that an element stands for: a scalar without a key is a leaf, and a map is
turned back into an array, whose elements are seen in the same way. -/
def Object.arrayTree? : Object → Option DocTree
  | .scalar none s => some (.scalar s)
  | .scalar (some _) _ => none
  | .map members =>
    match _found : (Object.map members).toItems? with
    | none => none
    | some items => Option.map DocTree.array (items.attach.mapM fun ⟨o, _⟩ => o.arrayTree?)
termination_by o => o.nesting
decreasing_by exact nesting_lt_of_mem_toItems? _found ‹_›

namespace DocTree

/-- A tree of arrays alone. Its leaves are scalars that their texts stand for, and strings that can
be written as they are. -/
inductive OfArrays (mode : ScanMode) : DocTree → Prop
  | leaf {s : Scalar} (proper : s.Proper)
      (verbatim : ∀ text, s = .string text → Reader.SafeIn mode text.toList) :
      OfArrays mode (.scalar s)
  | array {elements : List DocTree} (each : ∀ tree ∈ elements, OfArrays mode tree) :
      OfArrays mode (.array elements)

variable {mode : ScanMode}

theorem OfArrays.safe {tree : DocTree} (h : tree.OfArrays mode) (role : Role) :
    tree.Safe mode role := by
  induction h generalizing role with
  | leaf _ verbatim => exact .scalar fun text _ => verbatim text
  | array _ ih => exact .array fun tree htree => ih tree htree .element

end DocTree

namespace Object

theorem arrayTree?_leaf (s : Scalar) : (Object.scalar none s).arrayTree? = some (.scalar s) := by
  rw [arrayTree?]

theorem arrayTree?_fold (items : List Object) : (Items.fold items).arrayTree? =
    (items.mapM arrayTree?).map DocTree.array := by
  have hitems := toItems?_fold items
  rw [Items.fold_eq] at hitems ⊢
  rw [arrayTree?]
  split
  next h => rw [hitems] at h; cases h
  next listed h =>
    obtain rfl : items = listed := Option.some.inj (hitems.symm.trans h)
    simp

end Object

/-- What is kept for a tree of arrays stands for the tree. -/
theorem arrayTree?_toElement {mode : ScanMode} {tree : DocTree} (h : tree.OfArrays mode) :
    tree.value.toElement.arrayTree? = some tree := by
  induction h with
  | @leaf s proper =>
    rw [DocTree.value, Scalar.normal_of_proper proper]
    exact Object.arrayTree?_leaf s
  | @array elements _ ih =>
    rw [DocTree.value, Value.toElement, Object.arrayTree?_fold, DocTree.elementValues_eq_map,
      List.mapM_map]
    have helements : elements.mapM (Object.arrayTree? ∘ fun tree => tree.value.toElement) =
        some elements := mapM_eq_some_iff.mpr (List.forall₂_same.mpr ih)
    rw [helements, Option.map_some]

open Reader in
/-- A tree of arrays is read from its text, and all of it is recovered from what is kept. -/
theorem parse_arrayTree (mode : ScanMode) (limit : Option Nat) (elements : List DocTree)
    (arrays : (DocTree.array elements).OfArrays mode)
    (hlimit : ∀ m, limit = some m → (DocTree.array elements).nesting ≤ m) :
    ∃ items, Items.parse ((DocTree.array elements).compact .member) ⟨mode, limit⟩ = .ok items ∧
      items.mapM Object.arrayTree? = some elements := by
  have hread : Items.parse ((DocTree.array elements).compact .member) ⟨mode, limit⟩ =
      .ok (DocTree.elementValues elements) :=
    eq_ok_of_readsWithin (readsWithin_layout_array (arrays.safe .member) (layout_compact _))
      hlimit
  refine ⟨DocTree.elementValues elements, hread, ?_⟩
  cases arrays with
  | array each =>
    rw [DocTree.elementValues_eq_map, List.mapM_map, mapM_eq_some_iff, List.forall₂_same]
    exact fun tree htree => arrayTree?_toElement (each tree htree)

def nestedElements : List DocTree :=
  [.array [.scalar (.integer (-1)), .array []], .scalar (.string (.ofList [',', '\\', ']'])),
    .array [.array [.scalar (.bigInteger 9223372036854775808)], .scalar .null]]

theorem parse_arrayTree_nestedElements :
    ((DocTree.array nestedElements).OfArrays .legacy ∧ (DocTree.array nestedElements).nesting ≤ 3) ∧
    ∃ items, Items.parse "[[-1,[]],\",\\]\",[[9223372036854775808],null]]".toList
        ⟨.legacy, some 3⟩ = .ok items ∧ items.mapM Object.arrayTree? = some nestedElements := by
  have integer : (DocTree.scalar (.integer (-1))).OfArrays .legacy :=
    .leaf ⟨by simp, by simp⟩ (by simp)
  have wide : (DocTree.scalar (.bigInteger 9223372036854775808)).OfArrays .legacy :=
    .leaf ⟨by simp, by simp⟩ (by simp)
  have null : (DocTree.scalar .null).OfArrays .legacy := .leaf ⟨by simp, by simp⟩ (by simp)
  have string : (DocTree.scalar (.string (.ofList [',', '\\', ']']))).OfArrays .legacy := by
    refine .leaf ⟨by simp, by simp⟩ fun text h => ?_
    rw [← Scalar.string.inj h, String.toList_ofList]
    exact ⟨⟨by decide, by decide⟩, fun _ => by decide⟩
  have arrays : (DocTree.array nestedElements).OfArrays .legacy := by
    have first : (DocTree.array [.scalar (.integer (-1)), .array []]).OfArrays .legacy :=
      .array (by simp [integer, DocTree.OfArrays.array])
    have last : (DocTree.array [.array [.scalar (.bigInteger 9223372036854775808)],
        .scalar .null]).OfArrays .legacy := .array (by simp [wide, null, DocTree.OfArrays.array])
    exact .array (by simp [nestedElements, first, string, last])
  have hlimit : (DocTree.array nestedElements).nesting ≤ 3 := by decide
  refine ⟨⟨arrays, hlimit⟩, ?_⟩
  have h := parse_arrayTree .legacy (some 3) nestedElements arrays (by rintro _ ⟨⟩; exact hlimit)
  have htext : (DocTree.array nestedElements).compact .member =
      "[[-1,[]],\",\\]\",[[9223372036854775808],null]]".toList := by cbv
  rwa [htext] at h

end LenientJson
