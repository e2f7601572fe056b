import LenientJson.Proofs.Values.Reordering
import LenientJson.Proofs.Values.Trees
import LenientJson.Tree

/-!
# Standard trees

What a lenient reader and a standard one have in common. The standard text of such a tree shows
all its strings and numbers as they are, and no array in it is lost to an object: none stands
directly in another. Its members may come in any order, and are kept in key order.
-/
namespace LenientJson

namespace Members

variable {α β : Type}

theorem map_insert (f : α → β) (key : String) (value : α) (entries : List (String × α)) :
    (insert key value entries).map (fun entry => (entry.1, f entry.2)) =
      insert key (f value) (entries.map fun entry => (entry.1, f entry.2)) := by
  induction entries with
  | nil => rfl
  | cons entry rest ih =>
    obtain ⟨name, v⟩ := entry
    rw [List.map_cons, insert, insert]
    split
    · rfl
    · split
      · rfl
      · rw [List.map_cons, ih]

theorem map_insertAll (f : α → β) (entries onto : List (String × α)) :
    (insertAll entries onto).map (fun entry => (entry.1, f entry.2)) =
      insertAll (entries.map fun entry => (entry.1, f entry.2))
        (onto.map fun entry => (entry.1, f entry.2)) := by
  induction entries generalizing onto with
  | nil => rfl
  | cons entry rest ih =>
    have hrest := ih (insert entry.1 entry.2 onto)
    rw [map_insert] at hrest
    exact hrest

theorem map_ofList (f : α → β) (entries : List (String × α)) :
    (ofList entries).map (fun entry => (entry.1, f entry.2)) =
      ofList (entries.map fun entry => (entry.1, f entry.2)) :=
  map_insertAll f entries []

end Members

namespace Json

mutual

/-- What the text of a tree says to the lenient reader. An integer is written like a wide one. -/
def tree : Json → DocTree
  | .null => .scalar .null
  | .boolean value => .scalar (.boolean value)
  | .integer value => .scalar (.bigInteger value)
  | .double value => .scalar (.double value)
  | .string text => .scalar (.string text)
  | .array items => .array (treeItems items)
  | .object members => .object (treeMembers members)

def treeItems : List Json → List DocTree
  | [] => []
  | j :: rest => j.tree :: treeItems rest

def treeMembers : List (String × Json) → List (String × DocTree)
  | [] => []
  | (name, j) :: rest => (name, j.tree) :: treeMembers rest

end

mutual

/-- The tree with the members of its objects in key order. Of members with one name the last is
kept. -/
def sorted : Json → Json
  | .array items => .array (sortedItems items)
  | .object members => .object (Members.ofList (sortedMembers members))
  | j => j

def sortedItems : List Json → List Json
  | [] => []
  | j :: rest => j.sorted :: sortedItems rest

def sortedMembers : List (String × Json) → List (String × Json)
  | [] => []
  | (name, j) :: rest => (name, j.sorted) :: sortedMembers rest

end

inductive Ordered : Json → Prop
  | leaf {j : Json} (array : ∀ items, j ≠ .array items) (object : ∀ members, j ≠ .object members) :
      Ordered j
  | array {items : List Json} (each : ∀ j ∈ items, Ordered j) : Ordered (.array items)
  | object {members : List (String × Json)} (ascending : Members.Ascending members)
      (each : ∀ member ∈ members, Ordered member.2) : Ordered (.object members)

/-- A text that stands between quotes as it is, in the standard form and in the lenient one. A
scan that takes quotes for characters like others must find no bracket in it. -/
structure Verbatim (mode : ScanMode) (text : String) : Prop where
  quote : '"' ∉ text.toList
  backslash : '\\' ∉ text.toList
  control : ∀ c ∈ text.toList, 0x20 ≤ c.toNat
  bracket : mode = .legacy → ∀ c ∈ text.toList, Reader.isBracket c = false

/-- The trees whose standard text the lenient reader understands as it is meant. -/
inductive Standard (mode : ScanMode) : Json → Prop
  | null : Standard mode .null
  | boolean (value : Bool) : Standard mode (.boolean value)
  | integer {value : Int} (least : -0x8000000000000000 ≤ value)
      (greatest : value < 0x8000000000000000) : Standard mode (.integer value)
  | double {value : Binary64} (finite : value.isFinite = true) (positional : 'e' ∉ value.json) :
      Standard mode (.double value)
  | string {text : String} (verbatim : Verbatim mode text) : Standard mode (.string text)
  | array {items : List Json} (each : ∀ j ∈ items, Standard mode j)
      (flat : ∀ inner, .array inner ∉ items) : Standard mode (.array items)
  | object {members : List (String × Json)} (names : ∀ member ∈ members, Verbatim mode member.1)
      (each : ∀ member ∈ members, Standard mode member.2) : Standard mode (.object members)

theorem treeItems_eq_map (items : List Json) : treeItems items = items.map tree := by
  induction items with
  | nil => rw [treeItems, List.map_nil]
  | cons j rest ih => rw [treeItems, ih, List.map_cons]

theorem treeMembers_eq_map (members : List (String × Json)) :
    treeMembers members = members.map fun member => (member.1, member.2.tree) := by
  induction members with
  | nil => rw [treeMembers, List.map_nil]
  | cons member rest ih => rw [treeMembers, ih, List.map_cons]

theorem sortedItems_eq_map (items : List Json) : sortedItems items = items.map sorted := by
  induction items with
  | nil => rw [sortedItems, List.map_nil]
  | cons j rest ih => rw [sortedItems, ih, List.map_cons]

theorem sortedMembers_eq_map (members : List (String × Json)) :
    sortedMembers members = members.map fun member => (member.1, member.2.sorted) := by
  induction members with
  | nil => rw [sortedMembers, List.map_nil]
  | cons member rest ih => rw [sortedMembers, ih, List.map_cons]

theorem compactItems_eq_map (items : List Json) : compactItems items = items.map compact := by
  induction items with
  | nil => rw [compactItems, List.map_nil]
  | cons j rest ih => rw [compactItems, ih, List.map_cons]

theorem compactMembers_eq_map (members : List (String × Json)) : compactMembers members =
    members.map fun member => quote member.1 ++ ':' :: member.2.compact := by
  induction members with
  | nil => rw [compactMembers, List.map_nil]
  | cons member rest ih => rw [compactMembers, ih, List.map_cons]

theorem sorted_of_ordered {j : Json} (h : j.Ordered) : j.sorted = j := by
  induction h with
  | @leaf j array object =>
    cases j with
    | array items => exact absurd rfl (array items)
    | object members => exact absurd rfl (object members)
    | _ => simp [sorted]
  | @array items _ ih =>
    rw [sorted, sortedItems_eq_map, List.map_congr_left ih, List.map_id']
  | @object members ascending _ ih =>
    have hmembers : members.map (fun member => (member.1, member.2.sorted)) = members := by
      have hsame (member : String × Json) (h : member ∈ members) :
          (member.1, member.2.sorted) = member := by rw [ih member h]
      rw [List.map_congr_left hsame, List.map_id']
    rw [sorted, sortedMembers_eq_map, hmembers, Members.ofList_of_perm ascending (.refl _)]

end Json

theorem jsonItems_eq_map (items : List Object) : jsonItems items = items.map Object.toJson := by
  induction items with
  | nil => rw [jsonItems, List.map_nil]
  | cons o rest ih => rw [jsonItems, ih, List.map_cons]

theorem jsonMembers_eq_map (members : List (String × Value)) :
    jsonMembers members = members.map fun member => (member.1, member.2.toJson) := by
  induction members with
  | nil => rw [jsonMembers, List.map_nil]
  | cons member rest ih => rw [jsonMembers, ih, List.map_cons]

/-- An element is the same as a JSON tree unless it is folded. -/
theorem Value.toJson_toElement {v : Value} (h : v.isArray = false) :
    v.toElement.toJson = v.toJson := by
  cases v with
  | scalar s => rw [toElement, toJson, Object.toJson]
  | object o => rw [toElement, toJson]
  | array items => cases h

theorem Scalar.toJson_normal_bigInteger {n : Int} (least : -0x8000000000000000 ≤ n)
    (greatest : n < 0x8000000000000000) : (Scalar.bigInteger n).normal.toJson = .integer n := by
  have hnarrow : Numeral.int64? n = some (.ofInt n) := if_pos ⟨least, greatest⟩
  rw [normal, hnarrow, Option.map_some, Option.getD_some, toJson,
    Int64.toInt_ofInt_of_le least greatest]

/-- What is kept of a standard tree is the same tree in key order. -/
theorem Json.Standard.toJson_value {mode : ScanMode} {j : Json} (h : j.Standard mode) :
    j.tree.value.toJson = j.sorted := by
  induction h with
  | integer least greatest =>
    rw [tree, DocTree.value, Value.toJson, Scalar.toJson_normal_bigInteger least greatest]
    simp [sorted]
  | double finite =>
    rw [tree, DocTree.value, Scalar.normal, if_pos finite, Value.toJson, Scalar.toJson,
      if_pos finite]
    simp [sorted]
  | @array items _ flat ih =>
    have helement (j : Json) (hj : j ∈ items) : j.tree.value.toElement.toJson = j.sorted := by
      rw [Value.toJson_toElement, ih j hj]
      cases j with
      | array inner => exact absurd hj (flat inner)
      | _ => simp [tree, DocTree.value, Value.isArray]
    rw [tree, DocTree.value, Value.toJson, DocTree.elementValues_eq_map, treeItems_eq_map,
      List.map_map, jsonItems_eq_map, List.map_map, sorted, sortedItems_eq_map]
    exact congrArg Json.array (List.map_congr_left helement)
  | @object members _ _ ih =>
    have hmember (member : String × Json) (h : member ∈ members) :
        (member.1, member.2.tree.value.toJson) = (member.1, member.2.sorted) := by
      rw [ih member h]
    rw [tree, DocTree.value, Value.toJson, Object.toJson, DocTree.memberValues_eq_map,
      treeMembers_eq_map, List.map_map, jsonMembers_eq_map, Members.map_ofList, List.map_map,
      sorted, sortedMembers_eq_map]
    exact congrArg (fun listed => Json.object (Members.ofList listed))
      (List.map_congr_left hmember)
  | _ => simp [tree, DocTree.value, Scalar.normal, Value.toJson, Scalar.toJson, sorted]

end LenientJson
