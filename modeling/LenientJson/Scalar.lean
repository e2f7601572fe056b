import LenientJson.Number.Layout

/-!
# Scalars

The leaves of a document. An integer beyond 64 bits is a value of its own kind, and a number
never changes its kind: an integer is seen as a double only on request.
-/
namespace LenientJson

inductive Scalar where
  | string (text : String)
  | integer (value : Int64)
  | bigInteger (value : Int)
  | double (value : Binary64)
  | boolean (value : Bool)
  | null
  deriving DecidableEq, Repr, Inhabited

namespace Scalar

def isNull : Scalar → Bool
  | .null => true
  | _ => false

def isString : Scalar → Bool
  | .string _ => true
  | _ => false

def isNumber : Scalar → Bool
  | .integer _ | .bigInteger _ | .double _ => true
  | _ => false

def string? : Scalar → Option String
  | .string text => some text
  | _ => none

def integer? : Scalar → Option Int64
  | .integer value => some value
  | _ => none

def bigInteger? : Scalar → Option Int
  | .bigInteger value => some value
  | _ => none

/-- The double, or the double nearest to a 64-bit integer. -/
def double? : Scalar → Option Binary64
  | .double value => some value
  | .integer value => some (.ofInt value.toInt)
  | _ => none

def boolean? : Scalar → Option Bool
  | .boolean value => some value
  | _ => none

def typeName : Scalar → String
  | .string _ => "string"
  | .integer _ => "integer"
  | .bigInteger _ => "big integer"
  | .double _ => "double"
  | .boolean _ => "boolean"
  | .null => "null"

/-- The canonical text. A string stands for itself, without quotes. -/
def text : Scalar → List Char
  | .string text => text.toList
  | .integer value => Digits.ofInt value.toInt
  | .bigInteger value => Digits.ofInt value
  | .double value => value.plain
  | .boolean value => (if value then "true" else "false").toList
  | .null => "null".toList

instance : ToString Scalar := ⟨fun s => .ofList s.text⟩

/-- Equality of scalars, in which doubles are compared as numbers. -/
def same : Scalar → Scalar → Bool
  | .double x, .double y => x.same y
  | x, y => x = y

/-- An unsigned 64-bit integer, which need not fit a signed one. -/
def ofUInt64 (n : UInt64) : Scalar :=
  if n.toNat < 0x8000000000000000 then .integer (.ofInt n.toNat) else .bigInteger n.toNat

end Scalar

end LenientJson
