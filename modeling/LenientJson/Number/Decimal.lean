import LenientJson.Number.Digits

/-!
# Decimal numbers and their layouts

A decimal is a natural coefficient and a power of ten; the sign of a number is written by its
layout, since zero has one too. The plain layout writes the whole part, a point and the fraction;
the fraction keeps one digit at least and drops its trailing zeros after that one.
-/
namespace LenientJson

structure Decimal where
  coefficient : Nat
  exponent : Int
  deriving DecidableEq, Repr

namespace Decimal

/-- Drops trailing zeros, but never the first digit. -/
def trimFraction : List Char → List Char
  | [] => []
  | first :: rest => first :: (rest.reverse.dropWhile (· == '0')).reverse

/-- Whole part, point, fraction. -/
def plain (d : Decimal) : List Char :=
  match d.exponent with
  | .ofNat e => Digits.ofNat (d.coefficient * Nat.pow 10 e) ++ ['.', '0']
  | .negSucc e =>
    let unit := Nat.pow 10 (e + 1)
    Digits.ofNat (d.coefficient / unit) ++
      '.' :: trimFraction (Digits.padded (e + 1) (d.coefficient % unit))

/-- The power of ten of the leading digit. -/
def magnitude (d : Decimal) : Int := d.exponent + ((Digits.ofNat d.coefficient).length - 1 : Nat)

/-- One digit before the point, the other digits after it, and the power of ten with its sign. -/
def scientific (d : Decimal) : List Char :=
  let mantissa := match Digits.ofNat d.coefficient with
    | first :: second :: rest => first :: '.' :: second :: rest
    | short => short
  let sign := if d.magnitude < 0 then '-' else '+'
  mantissa ++ 'e' :: sign :: Digits.ofNat d.magnitude.natAbs

end Decimal

end LenientJson
