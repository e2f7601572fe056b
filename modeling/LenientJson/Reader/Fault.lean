import LenientJson.Text.Location

/-!
# Faults of a document

A fault is a cause and the offset at which it is noticed. The causes are the ways in which a
text can fail to be a document, and nesting deeper than allowed.
-/
namespace LenientJson

inductive Bracket where
  | curly
  | square
  deriving DecidableEq, Repr

def Bracket.opener : Bracket → Char
  | .curly => '\x7b'
  | .square => '['

def Bracket.closer : Bracket → Char
  | .curly => '\x7d'
  | .square => ']'

/-- What is enclosed by brackets of one kind. -/
def Bracket.content : Bracket → String
  | .curly => "an object"
  | .square => "an array"

/-- The parts that separators keep apart. -/
inductive Sibling where
  | members
  | elements
  | objects
  deriving DecidableEq, Repr

def Sibling.name : Sibling → String
  | .members => "members"
  | .elements => "elements"
  | .objects => "objects"

inductive Malformation where
  | notEnclosed (bracket : Bracket)
  | unmatched (bracket : Bracket)
  | trailing (bracket : Bracket)
  | unterminatedString
  | missingKey
  | missingColon
  | missingValue
  | unseparated (siblings : Sibling)
  | foreignInStream
  deriving DecidableEq, Repr

def quoted (c : Char) : String := .ofList ['\'', c, '\'']

def Malformation.message : Malformation → String
  | .notEnclosed b =>
    "expected " ++ b.content ++ " enclosed in " ++ quoted b.opener ++ " and " ++ quoted b.closer
  | .unmatched b => "no matching " ++ quoted b.closer ++ " for " ++ quoted b.opener
  | .trailing b => "unexpected content after the closing " ++ quoted b.closer
  | .unterminatedString => "unterminated string"
  | .missingKey => "expected a member key"
  | .missingColon => "expected ':' after member key"
  | .missingValue => "missing value"
  | .unseparated siblings => "expected ',' between " ++ siblings.name
  | .foreignInStream => "expected " ++ quoted Bracket.curly.opener ++ " in object stream"

inductive Cause where
  | malformed (malformation : Malformation)
  | tooDeep (limit : Nat)
  deriving DecidableEq, Repr

structure Fault where
  cause : Cause
  offset : Nat
  deriving DecidableEq, Repr

namespace Fault

def malformed (malformation : Malformation) (offset : Nat) : Fault :=
  ⟨.malformed malformation, offset⟩

end Fault

end LenientJson
