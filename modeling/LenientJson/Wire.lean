import LenientJson.Text.Commas
import LenientJson.Text.Escape
import LenientJson.Value

/-!
# The wire form

The compact text of a value. Keys and the strings among members are escaped; the string of an
object that holds a scalar is written as it is between quotes, as is a lone string. Members come
in key order.
-/
namespace LenientJson

/-- The word of a scalar that is no string, or a string between quotes. -/
def Scalar.wire (content : List Char → List Char) : Scalar → List Char
  | .string text => '"' :: content text.toList ++ ['"']
  | s => s.text

mutual

def Value.wire : Value → List Char
  | .scalar s => s.wire Text.escape
  | .object o => o.wire
  | .array items => '[' :: Text.commaSeparated (wireItems items) ++ [']']

def Object.wire : Object → List Char
  | .scalar _ value => value.wire id
  | .map members => '\x7b' :: Text.commaSeparated (wireMembers members) ++ ['\x7d']

/-- The text of each member: its key, a colon and its value. -/
def wireMembers : List (String × Value) → List (List Char)
  | [] => []
  | (key, value) :: rest =>
    ('"' :: Text.escape key.toList ++ '"' :: ':' :: value.wire) :: wireMembers rest

def wireItems : List Object → List (List Char)
  | [] => []
  | o :: rest => o.wire :: wireItems rest

end

def Items.wire (items : List Object) : List Char := (Value.array items).wire

theorem wireItems_eq_map (items : List Object) : wireItems items = items.map Object.wire := by
  induction items with
  | nil => simp [wireItems]
  | cons o rest ih => simp [wireItems, ih]

end LenientJson
