import LenientJson.Json
import LenientJson.Row

/-!
# Values as JSON trees

A scalar keeps its kind, except that an integer beyond 64 bits becomes the string of its digits
and a double that is not finite becomes null. An object that holds a scalar becomes that scalar,
and its key is lost. Members keep their order.
-/
namespace LenientJson

def Scalar.toJson : Scalar → Json
  | .string text => .string text
  | .integer value => .integer value.toInt
  | .bigInteger value => .string (.ofList (Digits.ofInt value))
  | .double value => if value.isFinite then .double value else .null
  | .boolean value => .boolean value
  | .null => .null

mutual

def Value.toJson : Value → Json
  | .scalar s => s.toJson
  | .object o => o.toJson
  | .array items => .array (jsonItems items)

def Object.toJson : Object → Json
  | .scalar _ value => value.toJson
  | .map members => .object (jsonMembers members)

def jsonMembers : List (String × Value) → List (String × Json)
  | [] => []
  | (key, value) :: rest => (key, value.toJson) :: jsonMembers rest

def jsonItems : List Object → List Json
  | [] => []
  | o :: rest => o.toJson :: jsonItems rest

end

def Items.toJson (items : List Object) : Json := .array (jsonItems items)

def Field.toJson (field : Field) : Json :=
  .object [("name", .string field.name), ("value", field.value.toJson)]

def Row.toJson (row : Row) : Json := .array (row.fields.map Field.toJson)

end LenientJson
