import LenientJson.Number.Binary64
import Mathlib.Tactic

/-!
# Rounding to the nearest size

The sizes of the finite numbers grow with their rank, and a quotient is rounded to the rank whose
half-way points to its neighbours enclose it. An odd rank does not take its half-way points. This
characterises the rounded rank completely, so that rounding depends on the quotient alone.
-/
namespace LenientJson.Binary64

/-- Every rank is an exponent and a significand, which has 53 bits unless the exponent is zero. -/
structure Split (rank exponent significand : Nat) : Prop where
  eq : rank = exponent * 2 ^ 52 + significand
  lt : significand < 2 ^ 53
  normal : exponent = 0 ∨ 2 ^ 52 ≤ significand

theorem binade_eq : binade = 2 ^ 52 := rfl

theorem exists_split (r : Nat) : ∃ e s, Split r e s := by
  by_cases h : r < 2 ^ 52
  · exact ⟨0, r, by omega, by omega, .inl rfl⟩
  · exact ⟨r / 2 ^ 52 - 1, 2 ^ 52 + r % 2 ^ 52, by omega, by omega, .inr (by omega)⟩

theorem Split.magnitude_eq {r e s : Nat} (h : Split r e s) : magnitude r = s * 2 ^ e := by
  obtain ⟨rfl, hlt, hnormal⟩ := h
  rw [magnitude, binade_eq, Nat.pow_eq]
  split
  next hsmall =>
    have he : e = 0 := by omega
    subst he
    simp
  next hlarge =>
    rcases hnormal with rfl | hs
    · have hq : (0 * 2 ^ 52 + s) / 2 ^ 52 - 1 = 0 := by omega
      have hm : 2 ^ 52 + (0 * 2 ^ 52 + s) % 2 ^ 52 = s := by omega
      rw [hq, hm]
    · have hq : (e * 2 ^ 52 + s) / 2 ^ 52 - 1 = e := by omega
      have hm : 2 ^ 52 + (e * 2 ^ 52 + s) % 2 ^ 52 = s := by omega
      rw [hq, hm]

/-- A carry out of the significand lands on the next exponent. -/
theorem Split.magnitude_succ {r e s : Nat} (h : Split r e s) :
    magnitude (r + 1) = (s + 1) * 2 ^ e := by
  by_cases hcarry : s + 1 < 2 ^ 53
  · have hnext : Split (r + 1) e (s + 1) :=
      ⟨by have := h.eq; omega, hcarry, h.normal.imp_right (by omega)⟩
    exact hnext.magnitude_eq
  · have hs : s + 1 = 2 ^ 53 := by have := h.lt; omega
    have hnext : Split (r + 1) (e + 1) (2 ^ 52) :=
      ⟨by have := h.eq; omega, by omega, .inr le_rfl⟩
    rw [hnext.magnitude_eq, hs, pow_succ 2 e]
    ring

theorem magnitude_lt_succ (r : Nat) : magnitude r < magnitude (r + 1) := by
  obtain ⟨e, s, h⟩ := exists_split r
  rw [h.magnitude_eq, h.magnitude_succ]
  exact Nat.mul_lt_mul_of_pos_right (Nat.lt_succ_self s) (Nat.two_pow_pos e)

theorem magnitude_strictMono : StrictMono magnitude := strictMono_nat_of_lt_succ magnitude_lt_succ

/-- The quotient `numerator / denominator` lies between the half-way points around rank `r`, and
on one of them only if the rank is even. -/
structure RoundsTo (numerator denominator r : Nat) : Prop where
  low : (magnitude (r - 1) + magnitude r) * denominator ≤ 2 * numerator
  high : 2 * numerator ≤ (magnitude r + magnitude (r + 1)) * denominator
  lowOdd : r % 2 = 1 → (magnitude (r - 1) + magnitude r) * denominator < 2 * numerator
  highOdd : r % 2 = 1 → 2 * numerator < (magnitude r + magnitude (r + 1)) * denominator

/-- The quotient by the power of two that rounding divides by has 53 bits at most, and no fewer
unless that power is one. -/
theorem split_significand (numerator denominator : Nat) :
    let exponent := (numerator / denominator).log2 - 52
    let significand := numerator / (denominator * 2 ^ exponent)
    Split (exponent * 2 ^ 52 + significand) exponent significand := by
  intro exponent significand
  have hs : significand = numerator / denominator / 2 ^ exponent :=
    (Nat.div_div_eq_div_mul _ _ _).symm
  have hup : numerator / denominator < 2 ^ ((numerator / denominator).log2 + 1) :=
    Nat.lt_log2_self
  constructor
  case eq => rfl
  case lt =>
    rw [hs, Nat.div_lt_iff_lt_mul (Nat.two_pow_pos exponent), ← pow_add]
    exact hup.trans_le (Nat.pow_le_pow_right (by omega) (by omega))
  case normal =>
    by_cases he : exponent = 0
    · exact .inl he
    · right
      have hne : numerator / denominator ≠ 0 := by
        intro hzero
        apply he
        simp [exponent, hzero]
      rw [hs, Nat.le_div_iff_mul_le (Nat.two_pow_pos exponent), ← pow_add]
      exact (Nat.pow_le_pow_right (by omega) (by omega)).trans (Nat.log2_self_le hne)

section Between

variable {numerator denominator r : Nat}

/-- At or below the middle between two sizes the lower rank is right, the middle itself only if
that rank is even. -/
theorem roundsTo_of_le_middle (hd : 0 < denominator)
    (hsize : magnitude r * denominator ≤ numerator)
    (h : 2 * numerator ≤ (magnitude r + magnitude (r + 1)) * denominator)
    (hodd : r % 2 = 1 → 2 * numerator ≠ (magnitude r + magnitude (r + 1)) * denominator) :
    RoundsTo numerator denominator r := by
  have hbelow : magnitude (r - 1) * denominator ≤ magnitude r * denominator :=
    Nat.mul_le_mul_right _ (magnitude_strictMono.monotone (Nat.sub_le r 1))
  have hbelowOdd (h : r % 2 = 1) : magnitude (r - 1) * denominator < magnitude r * denominator :=
    Nat.mul_lt_mul_of_pos_right (magnitude_strictMono (by omega)) hd
  constructor
  case low =>
    rw [Nat.add_mul]
    omega
  case high => exact h
  case lowOdd =>
    intro ho
    have hlow := hbelowOdd ho
    rw [Nat.add_mul]
    omega
  case highOdd => exact fun ho => lt_of_le_of_ne h (hodd ho)

/-- At or above the middle the upper rank is right, the middle itself only if that rank is even. -/
theorem roundsTo_of_middle_le (hd : 0 < denominator)
    (hsize : numerator < magnitude (r + 1) * denominator)
    (h : (magnitude r + magnitude (r + 1)) * denominator ≤ 2 * numerator)
    (hodd : (r + 1) % 2 = 1 →
      2 * numerator ≠ (magnitude r + magnitude (r + 1)) * denominator) :
    RoundsTo numerator denominator (r + 1) := by
  have habove : magnitude (r + 1) * denominator < magnitude (r + 1 + 1) * denominator :=
    Nat.mul_lt_mul_of_pos_right (magnitude_lt_succ _) hd
  have hhigh : 2 * numerator < (magnitude (r + 1) + magnitude (r + 1 + 1)) * denominator := by
    rw [Nat.add_mul]
    omega
  exact ⟨h, hhigh.le, fun ho => lt_of_le_of_ne h (Ne.symm (hodd ho)), fun _ => hhigh⟩

end Between

/-- The quotient by the step of its exponent is a significand; what rounding adds to it depends on
the rest, which is compared with half a step. -/
theorem roundsTo_nearestRank (numerator : Nat) {denominator : Nat} (hd : 0 < denominator) :
    RoundsTo numerator denominator (nearestRank numerator denominator) := by
  have hsplit := split_significand numerator denominator
  let exponent := (numerator / denominator).log2 - 52
  let step := denominator * 2 ^ exponent
  let significand := numerator / step
  let r := exponent * 2 ^ 52 + significand
  let up := decide (step < 2 * (numerator % step)) ||
    step == 2 * (numerator % step) && significand % 2 == 1
  change Split r exponent significand at hsplit
  change RoundsTo numerator denominator (r + up.toNat)
  have hstep : 0 < step := Nat.mul_pos hd (Nat.two_pow_pos exponent)
  have hdiv : step * significand + numerator % step = numerator := Nat.div_add_mod _ _
  have hrest : numerator % step < step := Nat.mod_lt _ hstep
  have hparity : r % 2 = significand % 2 := by omega
  have hsize : magnitude r * denominator = step * significand := by
    rw [hsplit.magnitude_eq]
    ring
  have hnext : magnitude (r + 1) * denominator = step * significand + step := by
    rw [hsplit.magnitude_succ]
    ring
  have hmiddle : (magnitude r + magnitude (r + 1)) * denominator =
      step * significand + (step * significand + step) := by
    rw [Nat.add_mul, hsize, hnext]
  cases hup : up with
  | true =>
    simp only [up, Bool.or_eq_true, Bool.and_eq_true, decide_eq_true_eq, beq_iff_eq] at hup
    rw [Bool.toNat_true]
    apply roundsTo_of_middle_le hd <;> omega
  | false =>
    simp only [up, Bool.or_eq_false_iff, Bool.and_eq_false_iff, decide_eq_false_iff_not,
      beq_eq_false_iff_ne] at hup
    rw [Bool.toNat_false, Nat.add_zero]
    apply roundsTo_of_le_middle hd <;> omega

/-- The half-way points of different ranks do not overlap, and neighbours share one point only,
which the odd rank of the two leaves to the other. -/
theorem RoundsTo.le {numerator denominator r s : Nat} (hd : 0 < denominator)
    (hr : RoundsTo numerator denominator r) (hs : RoundsTo numerator denominator s) : r ≤ s := by
  by_contra hlt
  by_cases hnext : r = s + 1
  · subst hnext
    have hlow := hr.low
    have hlowOdd := hr.lowOdd
    rw [Nat.add_sub_cancel] at hlow hlowOdd
    have hhigh := hs.high
    have hhighOdd := hs.highOdd
    omega
  · have hsizes : magnitude s + magnitude (s + 1) < magnitude (r - 1) + magnitude r := by
      have h1 : magnitude s < magnitude (r - 1) := magnitude_strictMono (by omega)
      have h2 : magnitude (s + 1) < magnitude r := magnitude_strictMono (by omega)
      omega
    have hpoints := Nat.mul_lt_mul_of_pos_right hsizes hd
    have hlow := hr.low
    have hhigh := hs.high
    omega

theorem nearestRank_eq_iff {numerator denominator r : Nat} (hd : 0 < denominator) :
    nearestRank numerator denominator = r ↔ RoundsTo numerator denominator r := by
  constructor
  · rintro rfl
    exact roundsTo_nearestRank numerator hd
  · intro h
    have hrank := roundsTo_nearestRank numerator hd
    exact le_antisymm (hrank.le hd h) (h.le hd hrank)

theorem RoundsTo.mul_right {numerator denominator r k : Nat} (hk : 0 < k)
    (h : RoundsTo numerator denominator r) : RoundsTo (numerator * k) (denominator * k) r := by
  have hnum : 2 * (numerator * k) = 2 * numerator * k := by ring
  constructor <;> (try intro hodd) <;> rw [hnum, ← Nat.mul_assoc]
  · exact Nat.mul_le_mul_right k h.low
  · exact Nat.mul_le_mul_right k h.high
  · exact Nat.mul_lt_mul_of_pos_right (h.lowOdd hodd) hk
  · exact Nat.mul_lt_mul_of_pos_right (h.highOdd hodd) hk

/-- Rounding depends on the quotient alone. -/
theorem nearestRank_congr {a b c d : Nat} (hb : 0 < b) (hd : 0 < d) (h : a * d = c * b) :
    nearestRank a b = nearestRank c d := by
  have hleft := (roundsTo_nearestRank a hb).mul_right hd
  have hright := (roundsTo_nearestRank c hd).mul_right hb
  rw [h, Nat.mul_comm b d] at hleft
  have hpos : 0 < d * b := Nat.mul_pos hd hb
  exact le_antisymm (hleft.le hpos hright) (hright.le hpos hleft)

theorem ofUnits_congr {a b c d : Nat} (negative : Bool) (hb : 0 < b) (hd : 0 < d)
    (h : a * d = c * b) : ofUnits negative a b = ofUnits negative c d := by
  simp only [ofUnits, nearestRank_congr hb hd h]

theorem ofUnits_of_roundsTo {numerator denominator r : Nat} (negative : Bool)
    (hr : r < infinityRank) (hd : 0 < denominator) (h : RoundsTo numerator denominator r) :
    ofUnits negative numerator denominator = .finite negative r hr := by
  have hrank := (nearestRank_eq_iff hd).mpr h
  subst hrank
  exact ofUnits_of_lt negative hr

/-- Over a common denominator: any power of ten that clears the exponent will do. -/
theorem ofScaledUnits_eq_ofUnits (negative : Bool) (units : Nat) {exponent : Int} {n : Nat}
    (h : 0 ≤ exponent + n) : ofScaledUnits negative units exponent =
      ofUnits negative (units * 10 ^ (exponent + n).toNat) (10 ^ n) := by
  have hten (k : Nat) : 0 < 10 ^ k := Nat.pow_pos (by decide)
  cases exponent with
  | ofNat e =>
    have hn : (Int.ofNat e + n).toNat = e + n := Int.toNat_natCast (e + n)
    rw [hn]
    apply ofUnits_congr negative Nat.one_pos (hten n)
    rw [Nat.mul_one, Nat.pow_eq, Nat.pow_add, Nat.mul_assoc]
  | negSucc e =>
    obtain ⟨k, rfl⟩ : ∃ k, n = e + 1 + k := ⟨n - (e + 1), by omega⟩
    have hn : (Int.negSucc e + ((e + 1 + k : Nat) : Int)).toNat = k := by omega
    rw [hn]
    apply ofUnits_congr negative (hten (e + 1)) (hten _)
    rw [Nat.pow_add, Nat.mul_assoc, Nat.mul_comm (10 ^ k)]

/-- Two decimals of one value are read as one number. -/
theorem ofDecimal_congr {c d : Nat} {e f : Int} {n : Nat} (negative : Bool) (he : 0 ≤ e + n)
    (hf : 0 ≤ f + n) (h : c * 10 ^ (e + n).toNat = d * 10 ^ (f + n).toNat) :
    ofDecimal negative c e = ofDecimal negative d f := by
  rw [ofDecimal, ofDecimal, ofScaledUnits_eq_ofUnits _ _ he, ofScaledUnits_eq_ofUnits _ _ hf,
    Nat.mul_right_comm c, h, Nat.mul_right_comm d]

end LenientJson.Binary64
