import LenientJson.Number.Binary64
import LenientJson.Number.Decimal

/-!
# Reading numerals

Integers are read in two grammars. The narrow one is a sign and digits in the range of 64-bit
integers; the wide one has no range and allows underscores between digits. Doubles are a sign and
a decimal with an optional exponent, rounded correctly, or one of the names of infinity and NaN.
-/
namespace LenientJson

inductive IntegerFault where
  | empty
  | invalidDigit
  deriving DecidableEq, Repr

inductive DoubleFault where
  | empty
  | invalid
  deriving DecidableEq, Repr

def IntegerFault.message : IntegerFault → String
  | .empty => "cannot parse integer from empty string"
  | .invalidDigit => "invalid digit found in string"

def DoubleFault.message : DoubleFault → String
  | .empty => "cannot parse float from empty string"
  | .invalid => "invalid float literal"

namespace Numeral

/-- A leading sign and what follows it; `true` is minus. -/
def splitSign : List Char → Bool × List Char
  | '-' :: rest => (true, rest)
  | '+' :: rest => (false, rest)
  | cs => (false, cs)

def signed (negative : Bool) (size : Nat) : Int := if negative then -size else size

/-- The 64-bit integer equal to `n`, if there is one. -/
def int64? (n : Int) : Option Int64 :=
  if -0x8000000000000000 ≤ n ∧ n < 0x8000000000000000 then some (.ofInt n) else none

/-- The narrow grammar: a sign, then digits, in range. -/
def narrowInteger? (cs : List Char) : Option Int64 :=
  let (negative, numeral) := splitSign cs
  if Digits.isNumeral numeral then int64? (signed negative (Digits.value numeral)) else none

/-- Drops the given sign unless a plus follows it. -/
def dropSign (sign : Char) : List Char → List Char
  | [] => []
  | c :: rest => if c = sign ∧ rest.head? ≠ some '+' then rest else c :: rest

/-- The wide grammar: a minus, a plus, then digits with underscores after the first one. -/
def wideInteger (cs : List Char) : Except IntegerFault Int :=
  let numeral := dropSign '+' (dropSign '-' cs)
  let kept := numeral.filter (· != '_')
  if numeral.isEmpty then .error .empty
  else if numeral.head? == some '_' || !kept.all Char.isDigit then .error .invalidDigit
  else .ok (signed (cs.head? == some '-') (Digits.value kept))

/-- The power of ten behind a decimal; none where there is no exponent is zero. -/
def exponent? : List Char → Option Int
  | [] => some 0
  | mark :: rest =>
    let (negative, numeral) := splitSign rest
    if (mark == 'e' || mark == 'E') && Digits.isNumeral numeral then
      some (signed negative (Digits.value numeral))
    else none

/-- Cuts an exponent to the range in which it matters: with the given numbers of digits before
and behind the point, larger ones are beyond every finite number and smaller ones below every
number but zero. -/
def cutExponent (whole fraction : Nat) (e : Int) : Int :=
  max (min e (fraction + 400)) (-(whole + 400))

/-- Digits with a point among or beside them, then an exponent; one digit at least. -/
def decimal? (cs : List Char) : Option Decimal :=
  let whole := cs.takeWhile Char.isDigit
  let (fraction, rest) := match cs.dropWhile Char.isDigit with
    | '.' :: more => (more.takeWhile Char.isDigit, more.dropWhile Char.isDigit)
    | rest => ([], rest)
  if whole.isEmpty && fraction.isEmpty then none
  else (exponent? rest).map fun e =>
    ⟨Digits.value (whole ++ fraction), cutExponent whole.length fraction.length e - fraction.length⟩

/-- The double that a numeral denotes, infinite where the nearest one is. -/
def double (cs : List Char) : Except DoubleFault Binary64 :=
  let (negative, size) := splitSign cs
  match decimal? size with
  | some d => .ok (.ofDecimal negative d.coefficient d.exponent)
  | none =>
    let name := String.ofList (size.map Char.toLower)
    if cs.isEmpty then .error .empty
    else if name == "inf" || name == "infinity" then .ok (.infinite negative)
    else if name == "nan" then .ok .nan
    else .error .invalid

theorem narrowInteger?_of_numeral {numeral : List Char} (negative : Bool)
    (h : Digits.isNumeral numeral = true) :
    narrowInteger? (if negative then '-' :: numeral else numeral) =
      int64? (signed negative (Digits.value numeral)) := by
  cases negative with
  | true => simp [narrowInteger?, splitSign, h]
  | false =>
    have hs : splitSign numeral = (false, numeral) := by
      unfold splitSign
      split
      · simp [Digits.isNumeral] at h
      · simp [Digits.isNumeral] at h
      · rfl
    simp [narrowInteger?, hs, h]

theorem cutExponent_zero (whole fraction : Nat) : cutExponent whole fraction 0 = 0 := by
  unfold cutExponent
  omega

end Numeral

end LenientJson
