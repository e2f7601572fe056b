import LenientJson.Number.Reading
import LenientJson.Scalar

/-!
# Notices

What the library remarks on while it works. A notice changes no answer: it tells that a value was
kept in another form, discarded or passed over.
-/
namespace LenientJson

inductive Notice where
  /-- An integer beyond 64 bits was kept with all its digits. -/
  | wideInteger (word : String)
  | badInteger (word : String) (fault : IntegerFault)
  | badDouble (word : String) (fault : DoubleFault)
  | doubleOutOfRange (word : String) (value : Binary64)
  /-- A scalar without a key was dropped when its object became a map. -/
  | scalarDiscarded (value : Scalar)
  | arrayFolded (length : Nat)
  /-- A member that is no scalar has no place in a row. -/
  | memberSkipped (typeName name : String)
  deriving DecidableEq, Repr

inductive Severity where
  | warning
  | debug
  deriving DecidableEq, Repr

namespace Notice

def severity : Notice → Severity
  | .badInteger .. | .badDouble .. | .doubleOutOfRange .. => .warning
  | _ => .debug

/-- The name of a double that is not finite. -/
def doubleName : Binary64 → String
  | .nan => "NaN"
  | .infinite negative => if negative then "-inf" else "inf"
  | x => .ofList x.plain

def message : Notice → String
  | .wideInteger word => "integer token " ++ word ++ " exceeds i64, using arbitrary precision"
  | .badInteger word fault => "failed to parse integer token " ++ word ++ ": " ++ fault.message
  | .badDouble word fault => "failed to parse double token " ++ word ++ ": " ++ fault.message
  | .doubleOutOfRange word value =>
    "double token " ++ word ++ " is out of range (" ++ doubleName value ++
      "), keeping it as a string"
  | .scalarDiscarded value =>
    "discarding unkeyed scalar " ++ toString value ++ " on switch to map mode"
  | .arrayFolded length =>
    "folded nested array of " ++ String.ofList (Digits.ofNat length) ++
      " elements into an indexed object"
  | .memberSkipped typeName name =>
    "skipping " ++ typeName ++ " member " ++ name ++ " while flattening"

end Notice

end LenientJson
