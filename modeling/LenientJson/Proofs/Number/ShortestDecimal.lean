import LenientJson.Number.Shortest
import LenientJson.Proofs.Number.Rounding

/-!
# The shortest decimal reads back

Whatever the search for the shortest decimal returns lies in the interval of its rank, on one of
the grids it tries or at the centre itself. So the decimal rounds to the number it was found for.
-/
namespace LenientJson.Shortest
open Binary64

theorem unit_pos : 0 < unit := by
  unfold unit
  rw [Nat.pow_eq]
  positivity

theorem unitsOfOne_mul_unit : unitsOfOne * unit = 10 ^ unitExponent := by
  unfold unitsOfOne unit
  simp only [Nat.pow_eq, ← Nat.mul_pow]

theorem Interval.contains_of_nearest? {i : Interval} {step coefficient : Nat}
    (h : i.nearest? step = some coefficient) : i.contains (coefficient * step) = true := by
  unfold Interval.nearest? at h
  simp only at h
  split at h
  · simp at h
  next hbelow _ =>
    obtain rfl := Option.some.inj h
    exact hbelow
  next _ habove =>
    obtain rfl := Option.some.inj h
    exact habove
  next hbelow habove =>
    split at h
    · obtain rfl := Option.some.inj h
      exact hbelow
    · obtain rfl := Option.some.inj h
      exact habove
    · obtain rfl := Option.some.inj h
      split
      · exact hbelow
      · exact habove

theorem roundsTo_of_contains {r x : Nat} (h : (interval r).contains (2 * x) = true) :
    RoundsTo x unit r := by
  unfold interval Interval.contains at h
  simp only at h
  cases hparity : r % 2 == 0 with
  | true =>
    have heven : r % 2 = 0 := by simpa using hparity
    simp only [hparity, if_true, Bool.and_eq_true, decide_eq_true_eq] at h
    exact ⟨h.1, h.2, fun hodd => (Nat.zero_ne_one (heven.symm.trans hodd)).elim,
      fun hodd => (Nat.zero_ne_one (heven.symm.trans hodd)).elim⟩
  | false =>
    simp only [hparity, Bool.false_eq_true, if_false, Bool.and_eq_true, decide_eq_true_eq] at h
    exact ⟨h.1.le, h.2.le, fun _ => h.1, fun _ => h.2⟩

theorem contains_centre {r : Nat} (hr : r ≠ 0) :
    (interval r).contains (interval r).centre = true := by
  have hlow : magnitude (r - 1) < magnitude r := magnitude_strictMono (by omega)
  have hhigh : magnitude r < magnitude (r + 1) := magnitude_lt_succ r
  have hbelow : (interval r).low < (interval r).centre :=
    Nat.mul_lt_mul_of_pos_right (by omega) unit_pos
  have habove : (interval r).centre < (interval r).high :=
    Nat.mul_lt_mul_of_pos_right (by omega) unit_pos
  unfold Interval.contains
  split
  · simp [hbelow.le, habove.le]
  · simp [hbelow, habove]

/-- The decimal `d` stands on the grid of 10^(k - 1074). -/
structure OnGrid (i : Interval) (d : Decimal) (k : Nat) : Prop where
  exponent : d.exponent = k - 1074
  contains : i.contains (2 * (d.coefficient * 10 ^ k)) = true

theorem exists_onGrid_search {i : Interval} (hcentre : i.contains i.centre = true)
    (heven : 2 * (i.centre / 2) = i.centre) (k : Nat) : ∃ j, OnGrid i (search i k) j := by
  induction k with
  | zero =>
    refine ⟨0, rfl, ?_⟩
    simpa [search, heven] using hcentre
  | succ k ih =>
    unfold search
    split
    next coefficient h =>
      refine ⟨k + 1, rfl, ?_⟩
      have hmul : 2 * (coefficient * 10 ^ (k + 1)) = coefficient * (2 * 10 ^ (k + 1)) := by ring
      rw [hmul]
      exact Interval.contains_of_nearest? h
    · exact ih

theorem exists_onGrid_ofRank {r : Nat} (hr : r ≠ 0) : ∃ k, OnGrid (interval r) (ofRank r) k := by
  have heven : 2 * ((interval r).centre / 2) = (interval r).centre := by
    change 2 * (2 * magnitude r * unit / 2) = 2 * magnitude r * unit
    rw [Nat.mul_assoc, Nat.mul_div_cancel_left _ (by decide)]
  rw [ofRank, if_neg hr]
  exact exists_onGrid_search (contains_centre hr) heven _

/-- A decimal on a grid is read as a quotient by a power of five. -/
theorem ofDecimal_of_onGrid (negative : Bool) {i : Interval} {d : Decimal} {k : Nat}
    (h : OnGrid i d k) : ofDecimal negative d.coefficient d.exponent =
      ofUnits negative (d.coefficient * 10 ^ k) unit := by
  have hexponent := h.exponent
  have hunit : unitExponent = 1074 := rfl
  have hpos : 0 ≤ d.exponent + unitExponent := by omega
  have hk : (d.exponent + unitExponent).toNat = k := by omega
  rw [ofDecimal, ofScaledUnits_eq_ofUnits _ _ hpos, hk]
  apply ofUnits_congr negative (Nat.pow_pos (by decide)) unit_pos
  rw [← unitsOfOne_mul_unit]
  ring

/-- The shortest decimal of a finite number is read as that number. -/
theorem ofDecimal_ofRank (negative : Bool) {r : Nat} (hr : r < infinityRank) :
    ofDecimal negative (ofRank r).coefficient (ofRank r).exponent = .finite negative r hr := by
  by_cases hzero : r = 0
  · subst hzero
    have hunits : RoundsTo 0 1 0 := by constructor <;> decide
    have hread : ofScaledUnits negative 0 0 = ofUnits negative (0 * 10 ^ 0) 1 := rfl
    rw [ofRank, if_pos rfl, ofDecimal, Nat.zero_mul, hread, Nat.zero_mul]
    exact ofUnits_of_roundsTo negative hr Nat.one_pos hunits
  · obtain ⟨k, hk⟩ := exists_onGrid_ofRank hzero
    rw [ofDecimal_of_onGrid negative hk]
    exact ofUnits_of_roundsTo negative hr unit_pos (roundsTo_of_contains hk.contains)

end LenientJson.Shortest
