import LenientJson.Number.Expansion
import LenientJson.Proofs.Words.Denotations

/-!
# Trimmed fractions

The loop that shortens a text from its end stops behind the last digit that counts, or behind the
first digit of the fraction. The zeros it drops have no value.
-/
namespace LenientJson

def Trimmed (fraction : List Char) : Prop :=
  ∃ first rest, fraction = first :: rest ∧ rest.getLast? ≠ some '0'

/-- A whole part with a digit and without a zero in front of it, so one trimmed from the other
side. -/
def Unpadded (whole : List Char) : Prop := Trimmed whole.reverse

theorem trimmed_singleton (c : Char) : Trimmed [c] := ⟨c, [], rfl, by simp⟩

theorem unpadded_singleton (c : Char) : Unpadded [c] := trimmed_singleton c

theorem unpadded_of_head?_ne {whole : List Char} (hne : whole ≠ []) (h : whole.head? ≠ some '0') :
    Unpadded whole := by
  obtain rfl | ⟨front, last, rfl⟩ := List.eq_nil_or_concat' whole
  · exact absurd rfl hne
  · refine ⟨last, front.reverse, List.reverse_concat, ?_⟩
    rw [List.getLast?_reverse]
    cases front with
    | nil => simp
    | cons c rest => exact h

namespace Expansion

section Loop

variable (text : List Char) (least : Nat)

theorem trimmedEnd_le (stop : Nat) : trimmedEnd text least stop ≤ stop := by
  induction stop with
  | zero => exact le_rfl
  | succ stop ih =>
    unfold trimmedEnd
    split
    · omega
    · exact le_rfl

/-- The loop does not look behind its end. -/
theorem trimmedEnd_append (behind : List Char) {stop : Nat} (h : stop ≤ text.length) :
    trimmedEnd (text ++ behind) least stop = trimmedEnd text least stop := by
  induction stop with
  | zero => rfl
  | succ stop ih =>
    have hget : (text ++ behind)[stop]? = text[stop]? := List.getElem?_append_left h
    rw [trimmedEnd, trimmedEnd, hget, ih (by omega)]

end Loop

/-- The loop drops the zeros at the end that stand behind the first digit. -/
theorem take_trimmedEnd (front : List Char) (first : Char) (rest : List Char) :
    (front ++ '.' :: first :: rest).take (trimmedEnd (front ++ '.' :: first :: rest)
        (front.length + 2) (front ++ '.' :: first :: rest).length) =
      front ++ '.' :: Decimal.trimFraction (first :: rest) := by
  induction rest using List.reverseRecOn with
  | nil =>
    have hlength : (front ++ ['.', first]).length = front.length + 1 + 1 := by simp
    rw [hlength, trimmedEnd, if_neg (by omega), ← hlength, List.take_length]
    rfl
  | append_singleton rest c ih =>
    have hsplit : front ++ '.' :: first :: (rest ++ [c]) =
        (front ++ '.' :: first :: rest) ++ [c] := by simp
    have hleast : front.length + 2 ≤ (front ++ '.' :: first :: rest).length := by
      simp
    rw [hsplit]
    generalize htext : front ++ '.' :: first :: rest = text at ih hleast ⊢
    rw [List.length_append, List.length_singleton, trimmedEnd, List.getElem?_concat_length]
    by_cases hc : c = '0'
    · subst hc
      rw [if_pos ⟨by omega, rfl⟩, trimmedEnd_append text _ ['0'] le_rfl,
        List.take_append_of_le_length (trimmedEnd_le text _ _), ih]
      simp [Decimal.trimFraction]
    · rw [if_neg fun h => hc (Option.some.inj h.2), List.take_of_length_le (by simp), ← htext]
      simp [Decimal.trimFraction, hc]

theorem trimmed_trimFraction {fraction : List Char} (h : fraction ≠ []) :
    Trimmed (Decimal.trimFraction fraction) := by
  obtain ⟨first, rest, rfl⟩ := List.exists_cons_of_ne_nil h
  refine ⟨first, _, rfl, ?_⟩
  rw [List.getLast?_reverse]
  intro hlast
  have hhead := List.head?_dropWhile_not (· == '0') rest.reverse
  rw [hlast] at hhead
  cases hhead

section Ensure

variable {text front fraction : List Char}

theorem findIdx?_of_notMem (h : '.' ∉ text) : text.findIdx? (· == '.') = none := by
  rw [List.findIdx?_eq_none_iff]
  intro c hc
  rw [beq_eq_false_iff_ne]
  rintro rfl
  exact h hc

theorem ensureFraction_of_notMem (h : '.' ∉ text) : ensureFraction text = text ++ ['.', '0'] := by
  rw [ensureFraction, findIdx?_of_notMem h]

/-- A fraction is trimmed where it stands. -/
theorem ensureFraction_point (h : '.' ∉ front) (hfraction : Digits.isNumeral fraction = true) :
    ensureFraction (front ++ '.' :: fraction) = front ++ '.' :: Decimal.trimFraction fraction := by
  obtain ⟨hne, hdigits⟩ := Digits.isNumeral_iff.mp (Decimal.isNumeral_trimFraction hfraction)
  obtain ⟨first, rest, rfl⟩ := List.exists_cons_of_ne_nil (Digits.isNumeral_iff.mp hfraction).1
  have hdot : (front ++ '.' :: first :: rest).findIdx? (· == '.') = some front.length := by
    rw [List.findIdx?_append, findIdx?_of_notMem h]
    simp [List.findIdx?_cons]
  have hlast : (front ++ '.' :: Decimal.trimFraction (first :: rest)).getLast? ≠ some '.' := by
    intro hpoint
    rw [List.append_cons, List.getLast?_append_of_ne_nil _ hne] at hpoint
    have hdigit := hdigits '.' (List.mem_of_getLast? hpoint)
    cases hdigit
  simp only [ensureFraction, hdot, take_trimmedEnd, if_neg hlast]

end Ensure

section Mantissa

open Numeral Pattern

variable {whole fraction mantissa : List Char} (negative : Bool)

theorem notMem_point_withSign (h : Digits.isNumeral whole = true) :
    '.' ∉ withSign negative whole := by
  have hwhole : '.' ∉ whole := fun hc => by simpa using ne_of_isNumeral h '.' rfl '.' hc
  cases negative with
  | true => exact List.not_mem_cons_of_ne_of_not_mem (by decide) hwhole
  | false => exact hwhole

theorem withSign_append (front behind : List Char) :
    withSign negative (front ++ behind) = withSign negative front ++ behind := by
  cases negative <;> rfl

/-- The zeros that a fraction loses have no value. -/
theorem mantissaRat_trimFraction (h : Digits.isNumeral whole = true) :
    mantissaRat (whole ++ '.' :: Decimal.trimFraction fraction) =
      mantissaRat (whole ++ '.' :: fraction) := by
  obtain ⟨k, hk⟩ := Decimal.trimFraction_append fraction
  rw [mantissaRat_point h, mantissaRat_point h]
  generalize Decimal.trimFraction fraction = kept at hk ⊢
  subst hk
  rw [← List.append_assoc, Digits.value_append (whole ++ kept), Digits.value_replicate_zero,
    List.length_append, List.length_replicate, Nat.add_zero]
  push_cast
  rw [neg_add, zpow_add₀ (by norm_num), zpow_neg _ (k : ℤ), zpow_natCast]
  field_simp

structure Ensured (mantissa fraction : List Char) : Prop where
  isNumeral_whole : Digits.isNumeral (mantissa.takeWhile (· != '.')) = true
  isNumeral_fraction : Digits.isNumeral fraction = true
  trimmed : Trimmed fraction
  value : mantissaRat (mantissa.takeWhile (· != '.') ++ '.' :: fraction) = mantissaRat mantissa

/-- The whole part of a mantissa is kept, its fraction is trimmed or made from a single zero. -/
theorem exists_ensured (h : Mantissa mantissa) : ∃ fraction, Ensured mantissa fraction ∧
    ensureFraction (withSign negative mantissa) =
      withSign negative (mantissa.takeWhile (· != '.') ++ '.' :: fraction) := by
  cases h with
  | whole hwhole =>
    have htake : mantissa.takeWhile (· != '.') = mantissa :=
      List.takeWhile_eq_self_iff.mpr (ne_of_isNumeral hwhole '.' rfl)
    refine ⟨['0'], ⟨?_, rfl, trimmed_singleton '0', ?_⟩, ?_⟩
    · rwa [htake]
    · rw [htake, mantissaRat_point hwhole, mantissaRat_numeral hwhole, Digits.value_concat]
      simp [Digits.digitValue]
      field_simp
    · rw [htake, withSign_append, ensureFraction_of_notMem (notMem_point_withSign negative hwhole)]
  | @fraction whole fraction hwhole hfraction =>
    have htake := takeWhile_mark '.' (ne_of_isNumeral hwhole '.' rfl) rfl fraction
    refine ⟨Decimal.trimFraction fraction, ⟨?_, Decimal.isNumeral_trimFraction hfraction,
      trimmed_trimFraction (Digits.isNumeral_iff.mp hfraction).1, ?_⟩, ?_⟩
    · rwa [htake]
    · rw [htake, mantissaRat_trimFraction hwhole]
    · rw [htake, withSign_append, withSign_append,
        ensureFraction_point (notMem_point_withSign negative hwhole) hfraction]

end Mantissa

end Expansion

end LenientJson
