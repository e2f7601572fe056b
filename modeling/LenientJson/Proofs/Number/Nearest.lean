import LenientJson.Proofs.Number.Rounding
import Mathlib

/-!
# Rounding is correct

A finite number stands for a rational, and a decimal is rounded to the finite number nearest to it,
of two equally near to the one whose significand is even. Decimals from the middle between the
greatest size and the power of two behind it on are rounded to infinity. The half-way points that
characterise a rounded rank say just this.
-/
namespace LenientJson.Binary64

def signedRat (negative : Bool) (size : ℚ) : ℚ := if negative then -size else size

def sizeRat (rank : Nat) : ℚ := magnitude rank / 2 ^ unitExponent

/-- The rational that a finite number stands for. -/
def toRat : Binary64 → ℚ
  | .finite negative rank _ => signedRat negative (sizeRat rank)
  | _ => 0

def isEven : Binary64 → Bool
  | .finite _ rank _ => rank % 2 == 0
  | _ => false

/-- The middle between the greatest finite size and the next power of two. -/
def overflowRat : ℚ := 2 ^ 1024 - 2 ^ 970

/-- The finite number nearest to a rational, an even one if another is as near. -/
structure Nearest (q : ℚ) (x : Binary64) : Prop where
  closest : ∀ y : Binary64, y.isFinite = true → |q - x.toRat| ≤ |q - y.toRat|
  even_of_tie : ∀ y : Binary64, y.isFinite = true → y.toRat ≠ x.toRat → |q - x.toRat| = |q - y.toRat| →
    x.isEven = true

/-- What a rational of the given sign is rounded to. -/
inductive RoundedTo (negative : Bool) (q : ℚ) : Binary64 → Prop where
  | finite {rank : Nat} {lt : rank < infinityRank} (below : |q| < overflowRat)
      (nearest : Nearest q (.finite negative rank lt)) :
      RoundedTo negative q (.finite negative rank lt)
  | infinite (beyond : overflowRat ≤ |q|) : RoundedTo negative q (.infinite negative)

theorem RoundedTo.isFinite_iff {negative : Bool} {q : ℚ} {x : Binary64}
    (h : RoundedTo negative q x) : x.isFinite = true ↔ |q| < overflowRat := by
  cases h with
  | finite below nearest => exact iff_of_true rfl below
  | infinite beyond => exact iff_of_false Bool.false_ne_true (not_lt.mpr beyond)

theorem sizeRat_strictMono : StrictMono sizeRat := by
  intro r s h
  have hlt : (magnitude r : ℚ) < magnitude s := by exact_mod_cast magnitude_strictMono h
  unfold sizeRat
  gcongr

theorem sizeRat_zero : sizeRat 0 = 0 := by
  have hzero : magnitude 0 = 0 := rfl
  rw [sizeRat, hzero, Nat.cast_zero, zero_div]

theorem sizeRat_nonneg (rank : Nat) : 0 ≤ sizeRat rank := by
  unfold sizeRat
  positivity

theorem toRat_eq_zero_iff {negative : Bool} {rank : Nat} {lt : rank < infinityRank} :
    toRat (.finite negative rank lt) = 0 ↔ rank = 0 := by
  have hsize : toRat (.finite negative rank lt) = 0 ↔ sizeRat rank = sizeRat 0 := by
    rw [sizeRat_zero, toRat, signedRat]
    split
    · exact neg_eq_zero
    · exact Iff.rfl
  exact hsize.trans sizeRat_strictMono.injective.eq_iff

/-- The half-way points around a rank enclose the size, and leave themselves out if the rank is
odd. -/
structure Between (size : ℚ) (r : Nat) : Prop where
  low : sizeRat (r - 1) + sizeRat r ≤ 2 * size
  high : 2 * size ≤ sizeRat r + sizeRat (r + 1)
  lowOdd : r % 2 = 1 → sizeRat (r - 1) + sizeRat r < 2 * size
  highOdd : r % 2 = 1 → 2 * size < sizeRat r + sizeRat (r + 1)

theorem RoundsTo.between {numerator denominator r : Nat} (hd : 0 < denominator)
    (h : RoundsTo numerator denominator r) :
    Between (numerator / denominator / 2 ^ unitExponent) r := by
  have hden : (0 : ℚ) < denominator := by exact_mod_cast hd
  have hsum (a b : Nat) : sizeRat a + sizeRat b =
      ((magnitude a + magnitude b : Nat) : ℚ) / 2 ^ unitExponent := by
    rw [sizeRat, sizeRat, ← add_div, Nat.cast_add]
  have hdouble : 2 * ((numerator : ℚ) / denominator / 2 ^ unitExponent) =
      ((2 * numerator : Nat) : ℚ) / denominator / 2 ^ unitExponent := by
    rw [← mul_div_assoc, ← mul_div_assoc, Nat.cast_mul, Nat.cast_two]
  have hle (k n : Nat) : (k : ℚ) / 2 ^ unitExponent ≤ n / denominator / 2 ^ unitExponent ↔
      k * denominator ≤ n := by
    rw [div_le_div_iff_of_pos_right (by positivity), le_div_iff₀ hden]
    exact_mod_cast Iff.rfl
  have hge (k n : Nat) : (n : ℚ) / denominator / 2 ^ unitExponent ≤ k / 2 ^ unitExponent ↔
      n ≤ k * denominator := by
    rw [div_le_div_iff_of_pos_right (by positivity), div_le_iff₀ hden]
    exact_mod_cast Iff.rfl
  constructor
  case low => rw [hsum, hdouble, hle]; exact h.low
  case high => rw [hsum, hdouble, hge]; exact h.high
  case lowOdd =>
    intro hodd
    rw [hsum, hdouble, ← not_le, hge, not_le]
    exact h.lowOdd hodd
  case highOdd =>
    intro hodd
    rw [hsum, hdouble, ← not_le, hle, not_le]
    exact h.highOdd hodd

section Distance

variable {size : ℚ} {r : Nat}

/-- No other size is nearer, and none as near if the rank is odd. -/
theorem Between.distance (h : Between size r) {s : Nat} (hne : s ≠ r) :
    |size - sizeRat r| ≤ |size - sizeRat s| ∧
      (r % 2 = 1 → |size - sizeRat r| < |size - sizeRat s|) := by
  rcases lt_or_gt_of_ne hne with hs | hs
  · have hbelow : sizeRat s ≤ sizeRat (r - 1) := sizeRat_strictMono.monotone (by omega)
    have hlt : sizeRat s < sizeRat r := sizeRat_strictMono hs
    have hlow := h.low
    rw [abs_of_nonneg (by linarith : 0 ≤ size - sizeRat s)]
    constructor
    · exact abs_le.mpr ⟨by linarith, by linarith⟩
    · intro hodd
      have hlowOdd := h.lowOdd hodd
      exact abs_lt.mpr ⟨by linarith, by linarith⟩
  · have habove : sizeRat (r + 1) ≤ sizeRat s := sizeRat_strictMono.monotone (by omega)
    have hlt : sizeRat r < sizeRat s := sizeRat_strictMono hs
    have hhigh := h.high
    rw [abs_of_nonpos (by linarith : size - sizeRat s ≤ 0)]
    constructor
    · exact abs_le.mpr ⟨by linarith, by linarith⟩
    · intro hodd
      have hhighOdd := h.highOdd hodd
      exact abs_lt.mpr ⟨by linarith, by linarith⟩

theorem abs_signedRat (negative : Bool) {size : ℚ} (h : 0 ≤ size) :
    |signedRat negative size| = size := by
  cases negative with
  | true => rw [signedRat, if_pos rfl, abs_neg, abs_of_nonneg h]
  | false => exact abs_of_nonneg h

theorem signedRat_injective (negative : Bool) : Function.Injective (signedRat negative) := by
  cases negative with
  | true => exact neg_injective
  | false => exact Function.injective_id

theorem signedRat_sub (negative : Bool) (a b : ℚ) :
    |signedRat negative a - signedRat negative b| = |a - b| := by
  cases negative with
  | true => rw [signedRat, signedRat, if_pos rfl, if_pos rfl, neg_sub_neg, abs_sub_comm]
  | false => rfl

theorem signedRat_sub_not {a b : ℚ} (negative : Bool) (ha : 0 ≤ a) (hb : 0 ≤ b) :
    |signedRat negative a - signedRat (!negative) b| = a + b := by
  cases negative with
  | true =>
    have hsum : -a - b = -(a + b) := by ring
    simp only [signedRat, Bool.not_true, if_true, Bool.false_eq_true, if_false]
    rw [hsum, abs_neg, abs_of_nonneg (add_nonneg ha hb)]
  | false =>
    simp only [signedRat, Bool.not_false, if_true, Bool.false_eq_true, if_false, sub_neg_eq_add]
    exact abs_of_nonneg (add_nonneg ha hb)

/-- A number of the other sign is no nearer than zero. -/
theorem Between.distance_zero (h : Between size r) (hsize : 0 ≤ size) :
    |size - sizeRat r| ≤ size ∧ (r % 2 = 1 → |size - sizeRat r| < size) := by
  have hzero : |size - sizeRat 0| = size := by
    rw [sizeRat_zero, sub_zero, abs_of_nonneg hsize]
  by_cases hr : r = 0
  · subst hr
    exact ⟨hzero.le, fun hodd => by omega⟩
  · have hdistance := h.distance (Ne.symm hr)
    rwa [hzero] at hdistance

/-- Of all finite numbers none is nearer, and none of another value as near if the rank is odd. -/
theorem Between.distance_signed (h : Between size r) (hsize : 0 ≤ size) (negative sign : Bool)
    (s : Nat) :
    |signedRat negative size - signedRat negative (sizeRat r)| ≤
        |signedRat negative size - signedRat sign (sizeRat s)| ∧
      (r % 2 = 1 → signedRat sign (sizeRat s) ≠ signedRat negative (sizeRat r) →
        |signedRat negative size - signedRat negative (sizeRat r)| <
          |signedRat negative size - signedRat sign (sizeRat s)|) := by
  rw [signedRat_sub]
  by_cases hsign : sign = negative
  · subst hsign
    rw [signedRat_sub]
    by_cases hs : s = r
    · subst hs
      exact ⟨le_rfl, fun _ hne => absurd rfl hne⟩
    · exact (h.distance hs).imp_right fun hlt hodd _ => hlt hodd
  · rw [Bool.eq_not_of_ne hsign, signedRat_sub_not negative hsize (sizeRat_nonneg s)]
    obtain ⟨hle, hlt⟩ := h.distance_zero hsize
    have hs := sizeRat_nonneg s
    exact ⟨by linarith, fun hodd _ => by linarith [hlt hodd]⟩

theorem Between.nearest (h : Between size r) (hsize : 0 ≤ size) (negative : Bool)
    (lt : r < infinityRank) : Nearest (signedRat negative size) (.finite negative r lt) := by
  constructor
  · intro y hy
    cases y with
    | finite sign s _ => exact (h.distance_signed hsize negative sign s).1
    | _ => cases hy
  · intro y hy hne htie
    cases y with
    | finite sign s _ =>
      by_contra hodd
      have hr : r % 2 = 1 := by
        simp only [isEven, beq_iff_eq] at hodd
        omega
      exact absurd htie (ne_of_lt ((h.distance_signed hsize negative sign s).2 hr hne))
    | _ => cases hy

end Distance

section Overflow

/-- The first rank that is not finite would be that of a power of two. -/
theorem sizeRat_infinityRank : sizeRat infinityRank = 2 ^ 1024 := by
  have hsplit : Split infinityRank 2046 (2 ^ 52) := ⟨by decide, by decide, by decide⟩
  have hexponent : 52 + 2046 = 1024 + unitExponent := rfl
  rw [sizeRat, hsplit.magnitude_eq, ← pow_add, hexponent, div_eq_iff (by positivity), ← pow_add]
  push_cast
  rfl

theorem sizeRat_greatest : sizeRat (infinityRank - 1) = 2 ^ 1024 - 2 ^ 971 := by
  have hsplit : Split (infinityRank - 1) 2045 (2 ^ 53 - 1) := ⟨by decide, by decide, by decide⟩
  have hsignificand : ((2 ^ 53 - 1 : Nat) : ℚ) = 2 ^ 53 - 1 := by norm_num
  have hexponent : 53 + 2045 = 1024 + unitExponent := rfl
  have hexponent' : 2045 = 971 + unitExponent := rfl
  rw [sizeRat, hsplit.magnitude_eq, Nat.cast_mul, hsignificand, Nat.cast_pow, Nat.cast_two,
    div_eq_iff (by positivity), sub_mul, sub_mul, ← pow_add, ← pow_add, ← pow_add, hexponent,
    one_mul]
  rfl

theorem middle_eq :
    sizeRat (infinityRank - 1) + sizeRat infinityRank = 2 * overflowRat := by
  have hpow : (2 : ℚ) ^ 971 = 2 * 2 ^ 970 := pow_succ' 2 970
  rw [sizeRat_infinityRank, sizeRat_greatest, overflowRat, hpow]
  generalize (2 : ℚ) ^ 1024 = power
  generalize (2 : ℚ) ^ 970 = half
  ring

theorem Between.lt_infinityRank_iff {size : ℚ} {r : Nat} (h : Between size r) :
    r < infinityRank ↔ size < overflowRat := by
  have hmiddle := middle_eq
  have hinfinity : infinityRank - 1 + 1 = infinityRank := rfl
  constructor
  · intro hr
    suffices hhigh : 2 * size < sizeRat (infinityRank - 1) + sizeRat infinityRank by linarith
    by_cases hlast : r = infinityRank - 1
    · subst hlast
      exact h.highOdd (by decide)
    · have hlt : sizeRat r < sizeRat (infinityRank - 1) := sizeRat_strictMono (by omega)
      have hle : sizeRat (r + 1) < sizeRat infinityRank := sizeRat_strictMono (by omega)
      linarith [h.high]
  · intro hsize
    by_contra hr
    have hbelow : sizeRat (infinityRank - 1) ≤ sizeRat (r - 1) :=
      sizeRat_strictMono.monotone (by omega)
    have hle : sizeRat infinityRank ≤ sizeRat r := sizeRat_strictMono.monotone (by omega)
    linarith [h.low]

end Overflow

/-- A quotient of units is rounded correctly. -/
theorem roundedTo_ofUnits (negative : Bool) (numerator : Nat) {denominator : Nat}
    (hd : 0 < denominator) :
    RoundedTo negative (signedRat negative (numerator / denominator / 2 ^ unitExponent))
      (ofUnits negative numerator denominator) := by
  have hbetween := (roundsTo_nearestRank numerator hd).between hd
  have hsize : (0 : ℚ) ≤ numerator / denominator / 2 ^ unitExponent := by positivity
  by_cases hlt : nearestRank numerator denominator < infinityRank
  · rw [ofUnits_of_lt negative hlt]
    apply RoundedTo.finite
    · rw [abs_signedRat negative hsize]
      exact hbetween.lt_infinityRank_iff.mp hlt
    · exact hbetween.nearest hsize negative hlt
  · rw [ofUnits_of_not_lt negative hlt]
    apply RoundedTo.infinite
    rw [abs_signedRat negative hsize]
    exact not_lt.mp fun h => hlt (hbetween.lt_infinityRank_iff.mpr h)

theorem roundedTo_ofScaledUnits (negative : Bool) (units : Nat) (exponent : Int) :
    RoundedTo negative (signedRat negative (units * 10 ^ exponent / 2 ^ unitExponent))
      (ofScaledUnits negative units exponent) := by
  cases exponent with
  | ofNat e =>
    have hsize : (units : ℚ) * 10 ^ Int.ofNat e = ((units * 10 ^ e : Nat) : ℚ) / (1 : Nat) := by
      rw [Int.ofNat_eq_natCast, zpow_natCast, Nat.cast_one, div_one]
      push_cast
      rfl
    rw [hsize]
    exact roundedTo_ofUnits negative (units * 10 ^ e) Nat.one_pos
  | negSucc e =>
    have hsize : (units : ℚ) * 10 ^ Int.negSucc e = (units : ℚ) / (10 ^ (e + 1) : Nat) := by
      rw [zpow_negSucc, ← div_eq_mul_inv]
      push_cast
      rfl
    rw [hsize]
    exact roundedTo_ofUnits negative units (Nat.pow_pos (by decide))

/-- A decimal is rounded correctly. -/
theorem roundedTo_ofDecimal (negative : Bool) (coefficient : Nat) (exponent : Int) :
    RoundedTo negative (signedRat negative (coefficient * 10 ^ exponent))
      (ofDecimal negative coefficient exponent) := by
  have hunit : (2 : ℚ) ^ unitExponent ≠ 0 := pow_ne_zero _ two_ne_zero
  have hone : (unitsOfOne : ℚ) = 2 ^ unitExponent := by
    unfold unitsOfOne
    simp only [Nat.pow_eq, Nat.cast_pow, Nat.cast_two]
  have hrounded := roundedTo_ofScaledUnits negative (coefficient * unitsOfOne) exponent
  rwa [Nat.cast_mul, hone, mul_right_comm, mul_div_cancel_right₀ _ hunit] at hrounded

section Unique

/-- What lies between two equally near numbers is nearer than both. -/
theorem abs_sub_lt_of_tie {q a b c : ℚ} (hac : a < c) (hcb : c < b) (htie : |q - a| = |q - b|) :
    |q - c| < |q - a| ∧ |q - c| < |q - b| := by
  have hmiddle : q - a = b - q := by
    rcases abs_eq_abs.mp htie with h | h
    · linarith
    · linarith
  have hlt : |q - c| < |q - a| := by
    rw [abs_of_pos (by linarith : 0 < q - a)]
    exact abs_lt.mpr ⟨by linarith, by linarith⟩
  exact ⟨hlt, htie ▸ hlt⟩

variable {q : ℚ} {negative : Bool} {r s : Nat} {hr : r < infinityRank} {hs : s < infinityRank}

/-- Two different numbers that are both nearest would both be even, with an odd one between them. -/
theorem Nearest.not_lt (hx : Nearest q (.finite negative r hr))
    (hy : Nearest q (.finite negative s hs)) : ¬r < s := by
  intro hlt
  have hsizes : sizeRat r < sizeRat s := sizeRat_strictMono hlt
  have hvalues : toRat (.finite negative r hr) ≠ toRat (.finite negative s hs) := by
    cases negative with
    | true => exact (neg_lt_neg hsizes).ne'
    | false => exact hsizes.ne
  have htie : |q - toRat (.finite negative r hr)| = |q - toRat (.finite negative s hs)| :=
    le_antisymm (hx.closest _ rfl) (hy.closest _ rfl)
  have hevenx := hx.even_of_tie _ rfl hvalues.symm htie
  have heveny := hy.even_of_tie _ rfl hvalues htie.symm
  simp only [isEven, beq_iff_eq] at hevenx heveny
  have hbetween : r + 1 < infinityRank := by omega
  have hbelow : sizeRat r < sizeRat (r + 1) := sizeRat_strictMono (Nat.lt_succ_self r)
  have habove : sizeRat (r + 1) < sizeRat s := sizeRat_strictMono (by omega)
  have hclosest := hx.closest (.finite negative (r + 1) hbetween) rfl
  cases negative with
  | true =>
    have hnearer := abs_sub_lt_of_tie (neg_lt_neg habove) (neg_lt_neg hbelow) htie.symm
    exact absurd hclosest (not_le.mpr hnearer.2)
  | false =>
    have hnearer := abs_sub_lt_of_tie hbelow habove htie
    exact absurd hclosest (not_le.mpr hnearer.1)

/-- Correct rounding leaves no choice. -/
theorem RoundedTo.unique {x y : Binary64} (hx : RoundedTo negative q x)
    (hy : RoundedTo negative q y) : x = y := by
  cases hx with
  | finite below nearest =>
    cases hy with
    | finite _ nearest' =>
      congr 1
      exact le_antisymm (not_lt.mp (nearest'.not_lt nearest)) (not_lt.mp (nearest.not_lt nearest'))
    | infinite beyond => exact absurd below (not_lt.mpr beyond)
  | infinite beyond =>
    cases hy with
    | finite below _ => exact absurd below (not_lt.mpr beyond)
    | infinite _ => rfl

end Unique

end LenientJson.Binary64
