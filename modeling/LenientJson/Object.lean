import LenientJson.Notice
import LenientJson.Value

/-!
# Operations on objects

An object is read and changed like a map. One that holds a scalar answers as a map without
members, except that it counts as one; the first `put` makes it a map, and a key is then carried
over as a member while a scalar without a key is dropped.
-/
namespace LenientJson.Object

def isScalar : Object → Bool
  | .scalar .. => true
  | .map _ => false

def isMap (o : Object) : Bool := !o.isScalar

/-- The key of a scalar. -/
def key? : Object → Option String
  | .scalar key _ => key
  | .map _ => none

def scalar? : Object → Option Scalar
  | .scalar _ value => some value
  | .map _ => none

def members? : Object → Option (List (String × Value))
  | .scalar .. => none
  | .map members => some members

/-- The members that can be looked up and listed. -/
def members (o : Object) : List (String × Value) := o.members?.getD []

def keys (o : Object) : List String := o.members.map Prod.fst

def size : Object → Nat
  | .scalar .. => 1
  | .map members => members.length

def isEmpty (o : Object) : Bool := o.size == 0

def get? (o : Object) (key : String) : Option Value := Members.get? key o.members

def contains (o : Object) (key : String) : Bool := (o.get? key).isSome

/-- The members that an object brings along when it becomes a map. -/
def toMembers : Object → List (String × Value)
  | .scalar (some key) value => [(key, .scalar value)]
  | .scalar none _ => []
  | .map members => members

def put (o : Object) (key : String) (value : Value) : Object :=
  .map (Members.insert key value o.toMembers)

/-- The value that a `put` of the key replaces. -/
def replaced? (o : Object) (key : String) : Option Value := Members.get? key o.toMembers

def putNotices : Object → List Notice
  | .scalar none value => [.scalarDiscarded value]
  | _ => []

/-- Stores members one after the other. An object stays as it is if there are none. -/
def putAll (o : Object) (members : List (String × Value)) : Object :=
  members.foldl (fun o member => o.put member.1 member.2) o

def putAllNotices (o : Object) (members : List (String × Value)) : List Notice :=
  if members.isEmpty then [] else o.putNotices

def erase (key : String) : Object → Object
  | .map members => .map (Members.erase key members)
  | o => o

/-- Changes the value of a key that is present. -/
def modify (key : String) (f : Value → Value) (o : Object) : Object :=
  match o.get? key with
  | some value => o.put key (f value)
  | none => o

theorem get?_put (o : Object) (key k : String) (value : Value) :
    (o.put key value).get? k = if key = k then some value else o.replaced? k :=
  Members.get?_insert key k value o.toMembers

theorem isMap_put (o : Object) (key : String) (value : Value) : (o.put key value).isMap = true :=
  rfl

theorem get?_erase (o : Object) (key k : String) :
    (o.erase key).get? k = if key = k then none else o.get? k := by
  cases o with
  | map members => exact Members.get?_erase key k members
  | scalar name value => simp [erase, get?, Object.members, members?, Members.get?]

end LenientJson.Object
