import LenientJson.Number.Shortest

/-!
# The text of binary64 numbers

Both texts of a number use its shortest decimal. The plain text is always positional, so a reader
that tells doubles by their point finds a double again. The JSON text is positional for the
powers of ten in a fixed range and scientific beyond it. A number that is not finite has no
numeral and is written as the word null.
-/
namespace LenientJson

namespace Decimal

/-- Positional notation ends where the leading digit leaves the powers from `least` to
`greatest`. -/
structure Layout where
  least : Int
  greatest : Int

def write (layout : Layout) (d : Decimal) : List Char :=
  if layout.least ≤ d.magnitude ∧ d.magnitude ≤ layout.greatest then d.plain else d.scientific

/-- JSON numbers are positional from 0.00001 up to sixteen digits before the point. -/
def Layout.json : Layout := ⟨-5, 15⟩

end Decimal

namespace Binary64

/-- The sign and the decimal of a finite number in the given layout. -/
def write (layout : Decimal → List Char) : Binary64 → List Char
  | .finite negative rank _ =>
    let size := layout (Shortest.ofRank rank)
    if negative then '-' :: size else size
  | _ => ['n', 'u', 'l', 'l']

def plain (x : Binary64) : List Char := x.write Decimal.plain

def json (x : Binary64) : List Char := x.write (Decimal.write .json)

end Binary64

end LenientJson
