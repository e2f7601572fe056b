import LenientJson.Reader.Fault

/-!
# Errors

What a caller is told when an operation fails. Errors of a document carry the location of the
fault in the whole text; errors of an operation or of a stream have none.
-/
namespace LenientJson

inductive Error where
  | malformed (detail : String) (location : Option Location)
  | unsupported (detail : String)
  | depthLimit (limit : Nat) (location : Option Location)
  | io (detail : String)
  deriving DecidableEq, Repr

namespace Error

def location? : Error → Option Location
  | .malformed _ location | .depthLimit _ location => location
  | .unsupported _ | .io _ => none

/-- The words that tell where an error is. -/
def place : Option Location → String
  | some location => " at " ++ location.message
  | none => ""

def message : Error → String
  | .malformed detail location => "malformed input: " ++ detail ++ place location
  | .unsupported detail => "unsupported operation: " ++ detail
  | .depthLimit limit location =>
    "maximum nesting depth of " ++ toString limit ++ " exceeded" ++ place location
  | .io detail => "read failed: " ++ detail

/-- Reports a fault of a document with its location. -/
def ofFault (text : List Char) (fault : Fault) : Error :=
  let location := Location.of text fault.offset
  match fault.cause with
  | .malformed malformation => .malformed malformation.message (some location)
  | .tooDeep limit => .depthLimit limit (some location)

end Error

end LenientJson
