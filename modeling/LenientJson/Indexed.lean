import LenientJson.Object

/-!
# Arrays as objects

An array that stands directly in an array is kept as an object whose keys are the positions of
its elements, written in decimal. An object can be turned back if its keys are exactly such
positions, from zero to its size.
-/
namespace LenientJson

/-- The key of a position. -/
def indexKey (i : Nat) : String := .ofList (Digits.ofNat i)

/-- An element as a member: a scalar without a key becomes a plain scalar. -/
def Object.toMember : Object → Value
  | .scalar none value => .scalar value
  | o => .object o

namespace Items

def indexed (first : Nat) : List Object → List (String × Value)
  | [] => []
  | o :: rest => (indexKey first, o.toMember) :: indexed (first + 1) rest

/-- The object that stands for an array. -/
def fold (items : List Object) : Object := .map (Members.ofList (indexed 0 items))

def foldNotices (items : List Object) : List Notice := [.arrayFolded items.length]

end Items

/-- A member as an element; an array is folded. -/
def Value.toElement : Value → Object
  | .scalar value => .scalar none value
  | .object o => o
  | .array items => Items.fold items

namespace Object

/-- The members at the positions from zero on, as far as they are there. -/
def positions (members : List (String × Value)) : List (Option Value) :=
  (List.range members.length).map fun i => Members.get? (indexKey i) members

/-- The array for which an object stands. -/
def toItems? (o : Object) : Option (List Object) :=
  o.members?.bind fun members =>
    (positions members).mapM fun value? => value?.map Value.toElement

def toItemsNotices (o : Object) : List Notice :=
  ((positions o.members).takeWhile Option.isSome).flatMap fun
    | some (.array items) => Items.foldNotices items
    | _ => []

end Object

end LenientJson
