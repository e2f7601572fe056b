import LenientJson.Indexed
import Mathlib.Tactic

/-!
# Nesting of values

Maps and arrays nest; scalars and the objects that hold one do not. As a document an object counts
as one level even if it holds a scalar.
-/
namespace LenientJson

/-- Induction over values, in which objects are met as values. -/
@[elab_as_elim]
theorem Value.induction {motive : Value → Prop} (scalar : ∀ s, motive (.scalar s))
    (literal : ∀ key s, motive (.object (.scalar key s)))
    (map : ∀ members, (∀ member ∈ members, motive member.2) → motive (.object (.map members)))
    (array : ∀ items, (∀ o ∈ items, motive (.object o)) → motive (.array items)) (v : Value) :
    motive v :=
  match v with
  | .scalar s => scalar s
  | .object (.scalar key s) => literal key s
  | .object (.map members) => map members fun member _ =>
      induction scalar literal map array member.2
  | .array items => array items fun o _ => induction scalar literal map array (.object o)
termination_by sizeOf v
decreasing_by
  · rename_i h
    have hmember := List.sizeOf_lt_of_mem h
    obtain ⟨key, value⟩ := member
    simp only [Value.object.sizeOf_spec, Object.map.sizeOf_spec, Prod.mk.sizeOf_spec] at hmember ⊢
    omega
  · rename_i h
    have hitem := List.sizeOf_lt_of_mem h
    simp only [Value.object.sizeOf_spec, Value.array.sizeOf_spec]
    omega

mutual

/-- How many maps and arrays stand within each other. -/
def Value.nesting : Value → Nat
  | .scalar _ => 0
  | .object o => o.nesting
  | .array items => nestingItems items + 1

def Object.nesting : Object → Nat
  | .scalar .. => 0
  | .map members => nestingMembers members + 1

def nestingMembers : List (String × Value) → Nat
  | [] => 0
  | (_, value) :: rest => max value.nesting (nestingMembers rest)

def nestingItems : List Object → Nat
  | [] => 0
  | o :: rest => max o.nesting (nestingItems rest)

end

/-- The nesting of a document, in which the object itself is one level. -/
def Object.depth (o : Object) : Nat := max o.nesting 1

def Items.depth (items : List Object) : Nat := (Value.array items).nesting

theorem nestingMembers_le_iff {members : List (String × Value)} {n : Nat} :
    nestingMembers members ≤ n ↔ ∀ member ∈ members, member.2.nesting ≤ n := by
  induction members with
  | nil => simp [nestingMembers]
  | cons member rest ih =>
    obtain ⟨key, value⟩ := member
    rw [nestingMembers, max_le_iff, ih, List.forall_mem_cons]

theorem nestingItems_le_iff {items : List Object} {n : Nat} :
    nestingItems items ≤ n ↔ ∀ o ∈ items, o.nesting ≤ n := by
  induction items with
  | nil => simp [nestingItems]
  | cons o rest ih => rw [nestingItems, max_le_iff, ih, List.forall_mem_cons]

theorem Object.nesting_map_le_iff {members : List (String × Value)} {n : Nat} :
    (Object.map members).nesting ≤ n + 1 ↔ ∀ member ∈ members, member.2.nesting ≤ n := by
  rw [nesting, Nat.add_le_add_iff_right, nestingMembers_le_iff]

theorem Value.nesting_array_le_iff {items : List Object} {n : Nat} :
    (Value.array items).nesting ≤ n + 1 ↔ ∀ o ∈ items, o.nesting ≤ n := by
  rw [nesting, Nat.add_le_add_iff_right, nestingItems_le_iff]

theorem Object.nesting_toMember (o : Object) : o.toMember.nesting = o.nesting := by
  obtain ⟨_ | key, value⟩ | members := o <;> rfl

theorem Members.mem_insertAll {α : Type} {entries onto : List (String × α)} {entry : String × α}
    (h : entry ∈ insertAll entries onto) : entry ∈ entries ∨ entry ∈ onto := by
  induction entries generalizing onto with
  | nil => exact .inr h
  | cons first rest ih =>
    rcases ih h with hrest | honto
    · exact .inl (List.mem_cons_of_mem _ hrest)
    · rcases mem_insert honto with rfl | honto
      · exact .inl List.mem_cons_self
      · exact .inr honto

theorem Members.mem_ofList {α : Type} {entries : List (String × α)} {entry : String × α}
    (h : entry ∈ ofList entries) : entry ∈ entries :=
  (mem_insertAll h).resolve_right List.not_mem_nil

theorem Items.exists_of_mem_indexed {items : List Object} {first : Nat} {member : String × Value}
    (h : member ∈ indexed first items) : ∃ o ∈ items, member.2 = o.toMember := by
  induction items generalizing first with
  | nil => cases h
  | cons o rest ih =>
    rcases List.mem_cons.mp h with rfl | h
    · exact ⟨o, List.mem_cons_self, rfl⟩
    · obtain ⟨p, hp, heq⟩ := ih h
      exact ⟨p, List.mem_cons_of_mem _ hp, heq⟩

/-- Folding an array adds no level: the object stands where the array stood. -/
theorem Items.nesting_fold_le (items : List Object) :
    (fold items).nesting ≤ (Value.array items).nesting := by
  rw [Value.nesting]
  apply Object.nesting_map_le_iff.mpr
  intro member hmember
  obtain ⟨o, ho, heq⟩ := exists_of_mem_indexed (Members.mem_ofList hmember)
  rw [heq, o.nesting_toMember]
  exact nestingItems_le_iff.mp le_rfl o ho

end LenientJson
