import LenientJson.Number.Binary64
import LenientJson.Number.Decimal

/-!
# Shortest decimals of binary64 numbers

The decimals that round to a finite number form an interval, which holds its ends when the rank
is even. The shortest of them are found on the coarsest grid of powers of ten that meets the
interval; of two the nearer is taken, of two equally near the even one. Everything is counted in
halves of 10^-1074: each finite size is a whole number of them, so the finest grid holds the
number itself and the search always ends with a decimal.
-/
namespace LenientJson.Shortest

/-- The decimals that round to one size, in halves of 10^-1074. -/
structure Interval where
  low : Nat
  centre : Nat
  high : Nat
  closed : Bool

/-- A unit of 2^-1074, as so many of 10^-1074. -/
def unit : Nat := Nat.pow 5 Binary64.unitExponent

/-- Half-way to the neighbours of rank `r` on both sides. -/
def interval (r : Nat) : Interval :=
  let size := Binary64.magnitude r
  { low := (Binary64.magnitude (r - 1) + size) * unit
    centre := 2 * size * unit
    high := (size + Binary64.magnitude (r + 1)) * unit
    closed := r % 2 == 0 }

def Interval.contains (i : Interval) (x : Nat) : Bool :=
  if i.closed then i.low ≤ x && x ≤ i.high else i.low < x && x < i.high

/-- The multiple of `step` in the interval that is nearest to the centre, as a coefficient. Only
the two neighbours of the centre can be it. -/
def Interval.nearest? (i : Interval) (step : Nat) : Option Nat :=
  let below := i.centre / step
  let above := below + 1
  match i.contains (below * step), i.contains (above * step) with
  | false, false => none
  | true, false => some below
  | false, true => some above
  | true, true =>
    match compare (i.centre - below * step) (above * step - i.centre) with
    | .lt => some below
    | .gt => some above
    | .eq => some (if below % 2 == 0 then below else above)

/-- Tries the grid of 10^(k - 1074) and, while it misses, the next finer one. -/
def search (i : Interval) : Nat → Decimal
  | 0 => ⟨i.centre / 2, -1074⟩
  | k + 1 =>
    match i.nearest? (2 * Nat.pow 10 (k + 1)) with
    | some coefficient => ⟨coefficient, (k + 1 : Nat) - 1074⟩
    | none => search i k

/-- The shortest decimal that rounds to the size of rank `r`. -/
def ofRank (r : Nat) : Decimal :=
  if r = 0 then ⟨0, 0⟩ else search (interval r) (Digits.ofNat (interval r).centre).length

end LenientJson.Shortest
