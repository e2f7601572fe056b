import LenientJson.Number.Layout
import LenientJson.Text.Commas

/-!
# JSON trees and their texts

The standard form of data: a tree with two texts, a compact one and one that puts each part on a
line of its own with two blanks for each level. In a string the quote, the backslash and the
control characters below the blank are escaped and nothing else; a double that is not finite is
null.
-/
namespace LenientJson

inductive Json where
  | null
  | boolean (value : Bool)
  | integer (value : Int)
  | double (value : Binary64)
  | string (text : String)
  | array (items : List Json)
  | object (members : List (String × Json))
  deriving Inhabited

namespace Json

def hexDigit (n : Nat) : Char := Nat.digitChar (n % 16)

/-- The text of one character of a string. -/
def escapeChar (c : Char) : List Char :=
  if c == '"' || c == '\\' then ['\\', c]
  else if c == '\n' then ['\\', 'n']
  else if c == '\t' then ['\\', 't']
  else if c == '\r' then ['\\', 'r']
  else if c == '\x08' then ['\\', 'b']
  else if c == '\x0c' then ['\\', 'f']
  else if c.toNat < 0x20 then
    ['\\', 'u', '0', '0', hexDigit (c.toNat / 16), hexDigit c.toNat]
  else [c]

def quote (text : String) : List Char := '"' :: text.toList.flatMap escapeChar ++ ['"']

/-- A container between its brackets, with no blanks. -/
def enclose (opener closer : Char) (parts : List (List Char)) : List Char :=
  opener :: Text.commaSeparated parts ++ [closer]

/-- A line break and the indentation of a level. -/
def newline (level : Nat) : List Char := '\n' :: List.replicate (2 * level) ' '

/-- A container whose parts stand on lines of their own, one level further in. -/
def encloseLines (level : Nat) (opener closer : Char) (parts : List (List Char)) : List Char :=
  if parts.isEmpty then [opener, closer]
  else
    opener :: Text.commaSeparated (parts.map (newline (level + 1) ++ ·)) ++
      newline level ++ [closer]

/-- The text of a tree that is no container. -/
def leaf : Json → List Char
  | .boolean value => (if value then "true" else "false").toList
  | .integer value => Digits.ofInt value
  | .double value => value.json
  | .string text => quote text
  | _ => "null".toList

mutual

def compact : Json → List Char
  | .array items => enclose '[' ']' (compactItems items)
  | .object members => enclose '\x7b' '\x7d' (compactMembers members)
  | j => j.leaf

def compactItems : List Json → List (List Char)
  | [] => []
  | j :: rest => j.compact :: compactItems rest

def compactMembers : List (String × Json) → List (List Char)
  | [] => []
  | (name, j) :: rest => (quote name ++ ':' :: j.compact) :: compactMembers rest

end

mutual

/-- The text on several lines, for a tree that begins at the given level. -/
def prettyAt (level : Nat) : Json → List Char
  | .array items => encloseLines level '[' ']' (prettyItems (level + 1) items)
  | .object members => encloseLines level '\x7b' '\x7d' (prettyMembers (level + 1) members)
  | j => j.leaf

def prettyItems (level : Nat) : List Json → List (List Char)
  | [] => []
  | j :: rest => j.prettyAt level :: prettyItems level rest

def prettyMembers (level : Nat) : List (String × Json) → List (List Char)
  | [] => []
  | (name, j) :: rest =>
    (quote name ++ ':' :: ' ' :: j.prettyAt level) :: prettyMembers level rest

end

def pretty (j : Json) : List Char := j.prettyAt 0

end Json

end LenientJson
