import LenientJson.Members
import LenientJson.Scalar

/-!
# Values and objects

A value is a scalar, an object or an array, and an array is a list of objects. An object has two
modes: a map of members, or one scalar that may carry a key. The second mode is how lone literals
and the scalar elements of arrays are kept.
-/
namespace LenientJson

mutual

inductive Value where
  | scalar (scalar : Scalar)
  | object (object : Object)
  | array (items : List Object)

inductive Object where
  | scalar (key : Option String) (value : Scalar)
  | map (members : List (String × Value))

end

/-- A new object is a map without members. -/
def Object.empty : Object := .map []

instance : Inhabited Object := ⟨.empty⟩

instance : Inhabited Value := ⟨.scalar .null⟩

namespace Value

def isScalar : Value → Bool
  | .scalar _ => true
  | _ => false

def isObject : Value → Bool
  | .object _ => true
  | _ => false

def isArray : Value → Bool
  | .array _ => true
  | _ => false

def scalar? : Value → Option Scalar
  | .scalar s => some s
  | _ => none

def object? : Value → Option Object
  | .object o => some o
  | _ => none

def array? : Value → Option (List Object)
  | .array items => some items
  | _ => none

def string? (v : Value) : Option String := v.scalar?.bind Scalar.string?

def integer? (v : Value) : Option Int64 := v.scalar?.bind Scalar.integer?

def double? (v : Value) : Option Binary64 := v.scalar?.bind Scalar.double?

def boolean? (v : Value) : Option Bool := v.scalar?.bind Scalar.boolean?

def isNull (v : Value) : Bool := v.scalar?.any Scalar.isNull

def typeName : Value → String
  | .scalar s => s.typeName
  | .object _ => "object"
  | .array _ => "array"

end Value

/-! Equality goes through both types at once; doubles are compared as numbers. -/

mutual

def Value.same : Value → Value → Bool
  | .scalar a, .scalar b => a.same b
  | .object a, .object b => a.same b
  | .array a, .array b => sameItems a b
  | _, _ => false

def Object.same : Object → Object → Bool
  | .scalar k a, .scalar l b => k == l && a.same b
  | .map a, .map b => sameMembers a b
  | _, _ => false

def sameMembers : List (String × Value) → List (String × Value) → Bool
  | [], [] => true
  | (k, a) :: as, (l, b) :: bs => k == l && a.same b && sameMembers as bs
  | _, _ => false

def sameItems : List Object → List Object → Bool
  | [], [] => true
  | a :: as, b :: bs => a.same b && sameItems as bs
  | _, _ => false

end

end LenientJson
