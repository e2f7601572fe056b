import LenientJson.Error
import LenientJson.Object

/-!
# Rows

A row is a list of named scalars. The row of a map holds its scalar members in key order; objects
and arrays among the members have no place in it.
-/
namespace LenientJson

structure Field where
  name : String
  value : Scalar
  deriving DecidableEq, Repr

structure Row where
  fields : List Field := []
  deriving DecidableEq, Repr, Inhabited

namespace Row

def push (row : Row) (name : String) (value : Scalar) : Row := ⟨row.fields ++ [⟨name, value⟩]⟩

/-- The value of the first field of that name. -/
def get? (row : Row) (name : String) : Option Scalar :=
  (row.fields.find? fun field => field.name == name).map Field.value

def size (row : Row) : Nat := row.fields.length

def isEmpty (row : Row) : Bool := row.fields.isEmpty

def names (row : Row) : List String := row.fields.map Field.name

def ofMembers (members : List (String × Value)) : Row :=
  ⟨members.filterMap fun (name, value) => value.scalar?.map fun scalar => ⟨name, scalar⟩⟩

def noticesOfMembers (members : List (String × Value)) : List Notice :=
  (members.filter fun member => !member.2.isScalar).map fun (name, value) =>
    .memberSkipped value.typeName name

end Row

namespace Object

def toRow : Object → Except Error Row
  | .scalar (some key) value => .ok ⟨[⟨key, value⟩]⟩
  | .scalar none _ => .error (.unsupported "an unkeyed scalar cannot be flattened into a row")
  | .map members => .ok (.ofMembers members)

def rowNotices (o : Object) : List Notice := Row.noticesOfMembers o.members

end Object

/-- No array has a row. -/
def Items.toRow (_ : List Object) : Except Error Row :=
  .error (.unsupported "an array value cannot be flattened into a row")

end LenientJson
