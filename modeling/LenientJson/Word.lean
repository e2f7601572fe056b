import LenientJson.Notice
import LenientJson.Text.CaseFold

/-!
# Words

A word is a value without quotes. It is an integer or a double if it has the form of one and can
be read, else true, false or null in any case, else a string. Numbers are read before names, and
a double beyond the finite ones stays a string.
-/
namespace LenientJson.Word

def dropMinus : List Char → List Char
  | '-' :: rest => rest
  | cs => cs

/-- The form of an integer: perhaps a minus, then digits. -/
def isInteger (word : List Char) : Bool := Digits.isNumeral (dropMinus word)

/-- The form of a double: perhaps a minus, then digits on both sides of a point. -/
def isDouble (word : List Char) : Bool :=
  let size := dropMinus word
  match size.dropWhile Char.isDigit with
  | '.' :: fraction =>
    Digits.isNumeral (size.takeWhile Char.isDigit) && Digits.isNumeral fraction
  | _ => false

/-- How an integer word is read: in 64 bits, or else by the wide grammar. -/
def integer (word : List Char) : Except IntegerFault Scalar :=
  match Numeral.narrowInteger? word with
  | some value => .ok (.integer value)
  | none => (Numeral.wideInteger word).map .bigInteger

def integerNotices (word : List Char) : List Notice :=
  match integer word with
  | .ok (.bigInteger _) => [.wideInteger (.ofList word)]
  | .ok _ => []
  | .error fault => [.badInteger (.ofList word) fault]

/-- A double word is kept as a number only if the nearest double is finite. -/
def double? (word : List Char) : Option Scalar :=
  match Numeral.double word with
  | .ok value => if value.isFinite then some (.double value) else none
  | .error _ => none

def doubleNotices (word : List Char) : List Notice :=
  match Numeral.double word with
  | .ok value => if value.isFinite then [] else [.doubleOutOfRange (.ofList word) value]
  | .error fault => [.badDouble (.ofList word) fault]

/-- The number that a word denotes. -/
def number? (word : List Char) : Option Scalar :=
  if isInteger word then (integer word).toOption
  else if isDouble word then double? word
  else none

/-- The value of a word that is no number. Whether it is a truth value is decided by simple case
folding, which one by ASCII case. -/
def name (word : List Char) : Scalar :=
  if Text.spellsFolded "true" word || Text.spellsFolded "false" word then
    .boolean (Text.spells "true" word)
  else if Text.spells "null" word then .null
  else .string (.ofList word)

end LenientJson.Word

namespace LenientJson.Scalar

/-- The scalar that a word stands for. -/
def ofWord (word : List Char) : Scalar := (Word.number? word).getD (Word.name word)

def noticesOfWord (word : List Char) : List Notice :=
  if Word.isInteger word then Word.integerNotices word
  else if Word.isDouble word then Word.doubleNotices word
  else []

end LenientJson.Scalar
