import LenientJson.Number.Layout
import LenientJson.Number.Reading

/-!
# Plain texts from raw texts

The plain text of a number can also be made from any raw text of it that is positional or has an
exponent. The exponent moves the point by arithmetic in 32-bit integers, and a step that leaves
their range, takes more than there is or cuts behind the end gives no text at all.
-/
namespace LenientJson

namespace Expansion

/-- The 32-bit integer equal to `n`, if there is one. -/
def int32? (n : Int) : Option Int32 :=
  if -0x80000000 ≤ n ∧ n < 0x80000000 then some (.ofInt n) else none

def add? (a b : Int32) : Option Int32 := int32? (a.toInt + b.toInt)

def minus? (a b : Nat) : Option Nat := if b ≤ a then some (a - b) else none

def cut? (i : Nat) (cs : List Char) : Option (List Char × List Char) :=
  if i ≤ cs.length then some (cs.take i, cs.drop i) else none

/-- What stands on both sides of the first mark. -/
def splitOnce? (mark : Char) (cs : List Char) : Option (List Char × List Char) :=
  match cs.dropWhile (· != mark) with
  | [] => none
  | _ :: rest => some (cs.takeWhile (· != mark), rest)

/-- An exponent beyond 32 bits counts for nothing. -/
def exponent (numeral : List Char) : Int32 :=
  ((Numeral.narrowInteger? numeral).bind (int32? ·.toInt)).getD 0

/-- The digits with the point behind the given number of them. Zeros stand in for digits that are
missing on either side, and a point at the end is not written. -/
def place? (digits : List Char) (point : Int32) : Option (List Char) :=
  if point ≤ 0 then
    some ('0' :: '.' :: (List.replicate point.toInt.natAbs '0' ++ digits))
  else if digits.length ≤ point.toInt.toNat then do
    let zeros ← minus? point.toInt.toNat digits.length
    return digits ++ List.replicate zeros '0'
  else do
    let (whole, fraction) ← cut? point.toInt.toNat digits
    return whole ++ '.' :: fraction

/-- Moves the point of an unsigned mantissa by an exponent. -/
def expandSize? (mantissa mark : List Char) : Option (List Char) := do
  let (whole, fraction) := (splitOnce? '.' mantissa).getD (mantissa, [])
  let point ← add? (.ofNat whole.length) (exponent mark)
  place? (whole ++ fraction) point

/-- A raw text without its exponent. -/
def expand? (raw : List Char) : Option (List Char) :=
  match (splitOnce? 'e' raw).getD (raw, ['0']) with
  | ('-' :: size, mark) => (expandSize? size mark).map ('-' :: ·)
  | (size, mark) => expandSize? size mark

/-- Where the first `stop` characters of a text end without the zeros at their end, of which those
up to `least` stay. -/
def trimmedEnd (text : List Char) (least : Nat) : Nat → Nat
  | 0 => 0
  | stop + 1 =>
    if least < stop + 1 ∧ text[stop]? = some '0' then trimmedEnd text least stop else stop + 1

/-- One digit behind the point at least, and no zero at the end behind that one. -/
def ensureFraction (text : List Char) : List Char :=
  match text.findIdx? (· == '.') with
  | some dot =>
    let kept := text.take (trimmedEnd text (dot + 2) text.length)
    if kept.getLast? = some '.' then kept ++ ['0'] else kept
  | none => text ++ ['.', '0']

def ofRaw? (raw : List Char) : Option (List Char) :=
  (if raw.contains 'e' then expand? raw else some raw).map ensureFraction

end Expansion

namespace Binary64

/-- The plain text by way of a raw text, which only numbers need that are finite and not zero. -/
def plainFrom? (raw : Binary64 → List Char) : Binary64 → Option (List Char)
  | .finite negative rank lt =>
    if rank = 0 then some (if negative then ['-', '0', '.', '0'] else ['0', '.', '0'])
    else Expansion.ofRaw? (raw (.finite negative rank lt))
  | _ => some ['n', 'u', 'l', 'l']

end Binary64

end LenientJson
