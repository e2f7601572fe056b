import LenientJson.Proofs.Values.Nesting
import LenientJson.Proofs.Words
import LenientJson.Text.Escape

/-!
# The normal form of values

A text cannot tell apart every two values. The normal form is the one that is read back: scalars
are those of their canonical text, an element that holds a scalar has no key, and a member that is
such an object is the scalar itself.
-/
namespace LenientJson

/-- The values that a value is made of, itself included. Elements of arrays count as objects. -/
inductive PartOf : Value → Value → Prop
  | self (v : Value) : PartOf v v
  | member {u : Value} {members : List (String × Value)} {member : String × Value}
      (mem : member ∈ members) (part : PartOf u member.2) : PartOf u (.object (.map members))
  | element {u : Value} {items : List Object} {o : Object} (mem : o ∈ items)
      (part : PartOf u (.object o)) : PartOf u (.array items)

theorem partOf_scalar_iff {u : Value} {s : Scalar} : PartOf u (.scalar s) ↔ u = .scalar s := by
  constructor
  · rintro ⟨⟩
    rfl
  · rintro rfl
    exact .self _

theorem partOf_literal_iff {u : Value} {key : Option String} {s : Scalar} :
    PartOf u (.object (.scalar key s)) ↔ u = .object (.scalar key s) := by
  constructor
  · rintro ⟨⟩
    rfl
  · rintro rfl
    exact .self _

theorem partOf_map_iff {u : Value} {members : List (String × Value)} :
    PartOf u (.object (.map members)) ↔
      u = .object (.map members) ∨ ∃ member ∈ members, PartOf u member.2 := by
  constructor
  · rintro (_ | ⟨hmem, hpart⟩ | _)
    · exact .inl rfl
    · exact .inr ⟨_, hmem, hpart⟩
  · rintro (rfl | ⟨member, hmem, hpart⟩)
    · exact .self _
    · exact .member hmem hpart

theorem partOf_array_iff {u : Value} {items : List Object} :
    PartOf u (.array items) ↔ u = .array items ∨ ∃ o ∈ items, PartOf u (.object o) := by
  constructor
  · rintro (_ | _ | ⟨hmem, hpart⟩)
    · exact .inl rfl
    · exact .inr ⟨_, hmem, hpart⟩
  · rintro (rfl | ⟨o, hmem, hpart⟩)
    · exact .self _
    · exact .element hmem hpart

/-- Every map lists its members in strictly ascending key order. -/
def Value.Ordered (v : Value) : Prop :=
  ∀ members, PartOf (.object (.map members)) v → Members.Ascending members

/-- The scalar that is read back where the text of a lone scalar is a member: a string between
quotes loses the escapes that it has there. -/
def Scalar.unescaped : Scalar → Scalar
  | .string text => .string (.ofList (Text.unescape text.toList))
  | s => s.normal

mutual

def Value.normal : Value → Value
  | .scalar s => .scalar s.normal
  | .object (.scalar _ s) => .scalar s.unescaped
  | .object (.map members) => .object (.map (normalMembers members))
  | .array items => .array (normalItems items)

def Object.normal : Object → Object
  | .scalar _ s => .scalar none s.normal
  | .map members => .map (normalMembers members)

def normalMembers : List (String × Value) → List (String × Value)
  | [] => []
  | (key, value) :: rest => (key, value.normal) :: normalMembers rest

def normalItems : List Object → List Object
  | [] => []
  | o :: rest => o.normal :: normalItems rest

end

def Items.normal (items : List Object) : List Object := normalItems items

theorem normalMembers_eq_map (members : List (String × Value)) :
    normalMembers members = members.map fun member => (member.1, member.2.normal) := by
  induction members with
  | nil => simp [normalMembers]
  | cons member rest ih =>
    obtain ⟨key, value⟩ := member
    rw [normalMembers, ih, List.map_cons]

theorem normalItems_eq_map (items : List Object) : normalItems items = items.map Object.normal := by
  induction items with
  | nil => simp [normalItems]
  | cons o rest ih => rw [normalItems, ih, List.map_cons]

end LenientJson
