import LenientJson.Object

/-!
# Paths into a value

A path leads from a value into a member of a map or an element of an array, step by step. An
element is seen as an object value.
-/
namespace LenientJson

inductive PathStep where
  | member (key : String)
  | element (index : Nat)
  deriving DecidableEq, Repr

namespace Value

def step? : Value → PathStep → Option Value
  | .object o, .member key => o.get? key
  | .array items, .element index => items[index]?.map .object
  | _, _ => none

/-- The value to which a path leads. -/
def at? (v : Value) : List PathStep → Option Value
  | [] => some v
  | step :: rest => (v.step? step).bind fun next => next.at? rest

/-- Changes an object where it stands as a value. -/
def asElement (f : Value → Value) (o : Object) : Object := ((f (.object o)).object?).getD o

/-- Changes the value to which a path leads. -/
def modifyAt (f : Value → Value) : List PathStep → Value → Value
  | [], v => f v
  | .member key :: rest, .object o => .object (o.modify key (modifyAt f rest))
  | .element index :: rest, .array items =>
    .array (items.modify index (asElement (modifyAt f rest)))
  | _ :: _, v => v

end Value

end LenientJson
