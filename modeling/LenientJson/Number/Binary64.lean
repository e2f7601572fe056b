/-!
# Binary64 numbers in exact arithmetic

A finite number is a sign and the rank of its size among all finite sizes, counted upwards from
zero. The rank is at once the low 63 bits of the interchange format, and the size of rank `r` is
the natural number `magnitude r` of units of 2^-1074, so that rounding, neighbours and order are
questions about natural numbers. Rounding goes to the nearest size, a tie to the even rank.
-/
namespace LenientJson

namespace Binary64

/-- Sizes of this rank and above are not finite. -/
def infinityRank : Nat := 0x7FF0000000000000

/-- The number of ranks with one exponent, which is 2^52. -/
def binade : Nat := 0x10000000000000

/-- The weight of the sign bit, which is 2^63. -/
def signWeight : Nat := 0x8000000000000000

/-- The size of rank `r` in units of 2^-1074: a significand of 53 bits, shifted by the exponent;
the first binade counts the units themselves. -/
def magnitude (r : Nat) : Nat :=
  if r < binade then r else (binade + r % binade) * Nat.pow 2 (r / binade - 1)

/-- The rank whose size is nearest to `numerator / denominator` units. The significand is the
quotient by a power of two that leaves 53 bits; a carry out of it lands on the next rank. -/
def nearestRank (numerator denominator : Nat) : Nat :=
  let exponent := (numerator / denominator).log2 - 52
  let step := denominator * Nat.pow 2 exponent
  let significand := numerator / step
  let twiceRest := 2 * (numerator % step)
  let up := step < twiceRest || step == twiceRest && significand % 2 == 1
  exponent * binade + significand + up.toNat

end Binary64

inductive Binary64 where
  | nan
  | infinite (negative : Bool)
  | finite (negative : Bool) (rank : Nat) (lt : rank < Binary64.infinityRank)
  deriving DecidableEq, Repr

namespace Binary64

def zero (negative : Bool) : Binary64 := .finite negative 0 (by decide)

instance : Inhabited Binary64 := ⟨zero false⟩

/-- The number nearest to `numerator / denominator` units of 2^-1074. -/
def ofUnits (negative : Bool) (numerator denominator : Nat) : Binary64 :=
  let rank := nearestRank numerator denominator
  if h : rank < infinityRank then .finite negative rank h else .infinite negative

/-- The number nearest to `units * 10 ^ exponent` units of 2^-1074. -/
def ofScaledUnits (negative : Bool) (units : Nat) : Int → Binary64
  | .ofNat e => ofUnits negative (units * Nat.pow 10 e) 1
  | .negSucc e => ofUnits negative units (Nat.pow 10 (e + 1))

/-- The unit of size is two to the power of minus this. -/
def unitExponent : Nat := 1074

/-- The number one in units of 2^-1074. -/
def unitsOfOne : Nat := Nat.pow 2 unitExponent

/-- The number nearest to `coefficient * 10 ^ exponent`. -/
def ofDecimal (negative : Bool) (coefficient : Nat) (exponent : Int) : Binary64 :=
  ofScaledUnits negative (coefficient * unitsOfOne) exponent

/-- The number nearest to an integer. -/
def ofInt (n : Int) : Binary64 := ofDecimal (decide (n < 0)) n.natAbs 0

def isFinite : Binary64 → Bool
  | .finite .. => true
  | _ => false

/-- Reads the interchange format. All payloads of NaN are one. -/
def ofBits (bits : UInt64) : Binary64 :=
  let negative := decide (signWeight ≤ bits.toNat)
  let rank := bits.toNat % signWeight
  if h : rank < infinityRank then .finite negative rank h
  else if rank = infinityRank then .infinite negative
  else .nan

/-- Writes the interchange format, NaN as its quiet form. -/
def toBits : Binary64 → UInt64
  | .nan => .ofNat (infinityRank + binade / 2)
  | .infinite negative => .ofNat (negative.toNat * signWeight + infinityRank)
  | .finite negative rank _ => .ofNat (negative.toNat * signWeight + rank)

/-- Equality as numbers: NaN differs from itself and the two zeros agree. -/
def same : Binary64 → Binary64 → Bool
  | .infinite a, .infinite b => a == b
  | .finite a r _, .finite b s _ => r == s && (a == b || r == 0)
  | _, _ => false

theorem ofUnits_of_lt {numerator denominator : Nat} (negative : Bool)
    (h : nearestRank numerator denominator < infinityRank) :
    ofUnits negative numerator denominator = .finite negative _ h := dif_pos h

theorem ofUnits_of_not_lt {numerator denominator : Nat} (negative : Bool)
    (h : ¬nearestRank numerator denominator < infinityRank) :
    ofUnits negative numerator denominator = .infinite negative := dif_neg h

theorem infinityRank_lt : infinityRank < signWeight := by decide

theorem ofBits_of_rank {bits : UInt64} {negative : Bool} {rank : Nat}
    (lt : rank < infinityRank) (h : bits.toNat = negative.toNat * signWeight + rank) :
    ofBits bits = .finite negative rank lt := by
  have hr : rank < signWeight := Nat.lt_trans lt infinityRank_lt
  have hm : bits.toNat % signWeight = rank := by
    rw [h, Nat.mul_add_mod_self_right, Nat.mod_eq_of_lt hr]
  have hn : decide (signWeight ≤ bits.toNat) = negative := by
    cases negative <;> simp only [Bool.toNat_false, Bool.toNat_true] at h <;> simp <;> omega
  simp only [ofBits, hm, hn, lt, dite_true]

theorem toNat_toBits_finite (negative : Bool) {rank : Nat} (lt : rank < infinityRank) :
    (toBits (.finite negative rank lt)).toNat = negative.toNat * signWeight + rank := by
  have hr : rank < signWeight := Nat.lt_trans lt infinityRank_lt
  have hs : negative.toNat * signWeight ≤ 1 * signWeight :=
    Nat.mul_le_mul_right signWeight (Bool.toNat_le negative)
  have hweight : signWeight = 0x8000000000000000 := rfl
  have hword : (UInt64.ofNat (negative.toNat * signWeight + rank)).toNat = _ :=
    UInt64.toNat_ofNat'
  exact hword.trans (Nat.mod_eq_of_lt (by omega))

theorem ofBits_toBits (x : Binary64) : ofBits x.toBits = x := by
  cases x with
  | nan => decide +kernel
  | infinite negative => cases negative <;> decide +kernel
  | finite negative rank lt => exact ofBits_of_rank lt (toNat_toBits_finite negative lt)

end Binary64

end LenientJson
