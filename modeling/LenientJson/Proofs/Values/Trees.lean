import LenientJson.Indexed
import LenientJson.Proofs.Scan.Escapes
import LenientJson.Proofs.Words
import LenientJson.Wire
import Mathlib.Tactic

/-!
# Document trees

A document tree is what a text says, apart from the way in which it is laid out: scalars, members
in the order of the text, and elements. The same key may come twice. A string is written escaped
among members and as it is among elements.
-/
namespace LenientJson

inductive DocTree where
  | scalar (s : Scalar)
  | object (members : List (String × DocTree))
  | array (elements : List DocTree)

/-- What a part of a document is part of. -/
inductive Role where
  | member
  | element
  deriving DecidableEq, Repr

def Role.content : Role → List Char → List Char
  | .member => Text.escape
  | .element => id

namespace DocTree

@[elab_as_elim]
theorem induction {motive : DocTree → Prop} (scalar : ∀ s, motive (.scalar s))
    (object : ∀ members, (∀ member ∈ members, motive member.2) → motive (.object members))
    (array : ∀ elements, (∀ tree ∈ elements, motive tree) → motive (.array elements))
    (tree : DocTree) : motive tree :=
  match tree with
  | .scalar s => scalar s
  | .object members => object members fun member _ => induction scalar object array member.2
  | .array elements => array elements fun tree _ => induction scalar object array tree
termination_by sizeOf tree
decreasing_by
  · rename_i h
    have hmember := List.sizeOf_lt_of_mem h
    obtain ⟨key, value⟩ := member
    simp only [DocTree.object.sizeOf_spec, Prod.mk.sizeOf_spec] at hmember ⊢
    omega
  · rename_i h
    have helement := List.sizeOf_lt_of_mem h
    simp only [DocTree.array.sizeOf_spec]
    omega

mutual

/-- The value of a tree. Numbers and names are read from their canonical text, and an array among
elements is folded. -/
def value : DocTree → Value
  | .scalar s => .scalar s.normal
  | .object members => .object (.map (Members.ofList (memberValues members)))
  | .array elements => .array (elementValues elements)

def memberValues : List (String × DocTree) → List (String × Value)
  | [] => []
  | (key, tree) :: rest => (key, tree.value) :: memberValues rest

def elementValues : List DocTree → List Object
  | [] => []
  | tree :: rest => tree.value.toElement :: elementValues rest

end

mutual

def nesting : DocTree → Nat
  | .scalar _ => 0
  | .object members => nestingMembers members + 1
  | .array elements => nestingElements elements + 1

def nestingMembers : List (String × DocTree) → Nat
  | [] => 0
  | (_, tree) :: rest => max tree.nesting (nestingMembers rest)

def nestingElements : List DocTree → Nat
  | [] => 0
  | tree :: rest => max tree.nesting (nestingElements rest)

end

mutual

/-- The text in which nothing stands that may be left out. -/
def compact (role : Role) : DocTree → List Char
  | .scalar s => s.wire role.content
  | .object members => '\x7b' :: Text.commaSeparated (compactMembers members) ++ ['\x7d']
  | .array elements => '[' :: Text.commaSeparated (compactElements elements) ++ [']']

def compactMembers : List (String × DocTree) → List (List Char)
  | [] => []
  | (key, tree) :: rest =>
    ('"' :: Text.escape key.toList ++ '"' :: ':' :: tree.compact .member) :: compactMembers rest

def compactElements : List DocTree → List (List Char)
  | [] => []
  | tree :: rest => tree.compact .element :: compactElements rest

end

/-- The strings that are written as they are leave no trace in a scan for brackets. -/
inductive Safe (mode : ScanMode) : Role → DocTree → Prop
  | scalar {role : Role} {s : Scalar}
      (verbatim : ∀ text, role = .element → s = .string text → Reader.SafeIn mode text.toList) :
      Safe mode role (.scalar s)
  | object {role : Role} {members : List (String × DocTree)}
      (each : ∀ member ∈ members, Safe mode .member member.2) : Safe mode role (.object members)
  | array {role : Role} {elements : List DocTree}
      (each : ∀ tree ∈ elements, Safe mode .element tree) : Safe mode role (.array elements)

theorem memberValues_eq_map (members : List (String × DocTree)) :
    memberValues members = members.map fun member => (member.1, member.2.value) := by
  induction members with
  | nil => rw [memberValues, List.map_nil]
  | cons member rest ih => rw [memberValues, ih, List.map_cons]

theorem elementValues_eq_map (elements : List DocTree) :
    elementValues elements = elements.map fun tree => tree.value.toElement := by
  induction elements with
  | nil => rw [elementValues, List.map_nil]
  | cons tree rest ih => rw [elementValues, ih, List.map_cons]

theorem compactMembers_eq_map (members : List (String × DocTree)) : compactMembers members =
    members.map fun member =>
      '"' :: Text.escape member.1.toList ++ '"' :: ':' :: member.2.compact .member := by
  induction members with
  | nil => rw [compactMembers, List.map_nil]
  | cons member rest ih => rw [compactMembers, ih, List.map_cons]

theorem compactElements_eq_map (elements : List DocTree) :
    compactElements elements = elements.map (compact .element) := by
  induction elements with
  | nil => rw [compactElements, List.map_nil]
  | cons tree rest ih => rw [compactElements, ih, List.map_cons]

theorem nesting_object_le_iff {members : List (String × DocTree)} {n : Nat} :
    (object members).nesting ≤ n + 1 ↔ ∀ member ∈ members, member.2.nesting ≤ n := by
  rw [nesting, Nat.add_le_add_iff_right]
  induction members with
  | nil => simp [nestingMembers]
  | cons member rest ih => rw [nestingMembers, max_le_iff, ih, List.forall_mem_cons]

theorem nesting_array_le_iff {elements : List DocTree} {n : Nat} :
    (array elements).nesting ≤ n + 1 ↔ ∀ tree ∈ elements, tree.nesting ≤ n := by
  rw [nesting, Nat.add_le_add_iff_right]
  induction elements with
  | nil => simp [nestingElements]
  | cons tree rest ih => rw [nestingElements, max_le_iff, ih, List.forall_mem_cons]

end DocTree

end LenientJson
