import LenientJson.Object

/-!
# Operations on arrays

An array is a list of objects. Positions beyond its end are refused.
-/
namespace LenientJson.Items

/-- Inserts an element at a position, which may be the end. -/
def insert? (items : List Object) (index : Nat) (o : Object) : Option (List Object) :=
  if index ≤ items.length then some (items.insertIdx index o) else none

/-- Replaces the element at a position. -/
def replace? (items : List Object) (index : Nat) (o : Object) : Option (List Object) :=
  if index < items.length then some (items.set index o) else none

/-- Puts a member into every element. -/
def putEach (items : List Object) (key : String) (value : Value) : List Object :=
  items.map fun o => o.put key value

def putEachNotices (items : List Object) : List Notice := items.flatMap Object.putNotices

/-- The scalars of the elements that hold one without a key. -/
def scalars (items : List Object) : List Scalar :=
  items.filterMap fun
    | .scalar none value => some value
    | _ => none

end LenientJson.Items
