import LenientJson.Proofs.Words
import Mathlib.Computability.RegularExpressions

/-!
# The patterns of number words

The forms of number words as regular expressions. A word of one of them is a sign and one, two or
three numerals with marks between them, and the tests for the form of an integer and of a double
decide the first two.
-/
namespace LenientJson

namespace Pattern
open RegularExpression Numeral

def digit : RegularExpression Char :=
  char '0' + char '1' + char '2' + char '3' + char '4' + char '5' + char '6' + char '7' +
    char '8' + char '9'

def digits : RegularExpression Char := digit * star digit

def sign : RegularExpression Char := 1 + char '-'

/-- The pattern `-?[0-9]+`. -/
def integer : RegularExpression Char := sign * digits

/-- The pattern `-?[0-9]+\.[0-9]+`. -/
def double : RegularExpression Char := sign * (digits * (char '.' * digits))

/-- The pattern `-?[0-9]+(\.[0-9]+)?e-?[0-9]+`. -/
def scientific : RegularExpression Char :=
  sign * (digits * ((1 + char '.' * digits) * (char 'e' * integer)))

section Languages

variable {word : List Char} {c : Char} {l m : RegularExpression Char}

theorem mem_char_iff : word ∈ (char c).matches' ↔ word = [c] := Iff.rfl

theorem mem_char_mul_iff :
    word ∈ (char c * l).matches' ↔ ∃ rest ∈ l.matches', word = c :: rest := by
  rw [matches'_mul, Language.mem_mul]
  constructor
  · rintro ⟨_, rfl, rest, hrest, rfl⟩
    exact ⟨rest, hrest, rfl⟩
  · rintro ⟨rest, hrest, rfl⟩
    exact ⟨[c], rfl, rest, hrest, rfl⟩

theorem mem_sign_mul_iff : word ∈ (sign * l).matches' ↔
    ∃ negative, ∃ size ∈ l.matches', word = withSign negative size := by
  rw [sign, matches'_mul, Language.mem_mul]
  constructor
  · rintro ⟨_, rfl | rfl, size, hsize, rfl⟩
    · exact ⟨false, size, hsize, rfl⟩
    · exact ⟨true, size, hsize, rfl⟩
  · rintro ⟨negative, size, hsize, rfl⟩
    cases negative with
    | false => exact ⟨[], .inl rfl, size, hsize, rfl⟩
    | true => exact ⟨['-'], .inr rfl, size, hsize, rfl⟩

theorem mem_digit_iff : word ∈ digit.matches' ↔ ∃ c, c.isDigit = true ∧ word = [c] := by
  constructor
  · rintro (((((((((rfl | rfl) | rfl) | rfl) | rfl) | rfl) | rfl) | rfl) | rfl) | rfl) <;>
      exact ⟨_, rfl, rfl⟩
  · rintro ⟨c, hc, rfl⟩
    obtain ⟨hlow, hhigh⟩ := Char.isDigit_iff_toNat.mp hc
    have hlow' : 48 ≤ c.toNat := hlow
    have hhigh' : c.toNat ≤ 57 := hhigh
    rw [← Char.ofNat_toNat c]
    simp only [digit, matches'_add, Language.mem_add, mem_char_iff]
    interval_cases c.toNat <;> decide

theorem mem_digits_iff : word ∈ digits.matches' ↔ Digits.isNumeral word = true := by
  rw [digits, matches'_mul, Language.mem_mul, Digits.isNumeral_iff]
  constructor
  · rintro ⟨first, hfirst, rest, hrest, rfl⟩
    obtain ⟨c, hc, rfl⟩ := mem_digit_iff.mp hfirst
    obtain ⟨parts, rfl, hparts⟩ := Language.mem_kstar.mp hrest
    refine ⟨List.cons_ne_nil _ _, fun d hd => ?_⟩
    rcases List.mem_cons.mp hd with rfl | hd
    · exact hc
    · obtain ⟨part, hpart, hd⟩ := List.mem_flatten.mp hd
      obtain ⟨e, he, rfl⟩ := mem_digit_iff.mp (hparts part hpart)
      rwa [List.mem_singleton.mp hd]
  · rintro ⟨hne, hdigits⟩
    obtain ⟨c, rest, rfl⟩ := List.exists_cons_of_ne_nil hne
    refine ⟨[c], mem_digit_iff.mpr ⟨c, hdigits c List.mem_cons_self, rfl⟩, rest, ?_, rfl⟩
    rw [matches'_star, Language.mem_kstar]
    have hparts : rest = (rest.map ([·])).flatten := by
      rw [← List.flatMap_def]
      exact (List.flatMap_singleton' rest).symm
    refine ⟨rest.map ([·]), hparts, fun part hpart => ?_⟩
    obtain ⟨d, hd, rfl⟩ := List.mem_map.mp hpart
    exact mem_digit_iff.mpr ⟨d, hdigits d (List.mem_cons_of_mem c hd), rfl⟩

theorem mem_digits_mul_iff : word ∈ (digits * l).matches' ↔
    ∃ numeral rest, Digits.isNumeral numeral = true ∧ rest ∈ l.matches' ∧
      word = numeral ++ rest := by
  rw [matches'_mul, Language.mem_mul]
  constructor
  · rintro ⟨numeral, hnumeral, rest, hrest, rfl⟩
    exact ⟨numeral, rest, mem_digits_iff.mp hnumeral, hrest, rfl⟩
  · rintro ⟨numeral, rest, hnumeral, hrest, rfl⟩
    exact ⟨numeral, mem_digits_iff.mpr hnumeral, rest, hrest, rfl⟩

end Languages

section Words

variable {word : List Char}

theorem mem_integer_iff : word ∈ integer.matches' ↔
    ∃ negative numeral, Digits.isNumeral numeral = true ∧ word = withSign negative numeral := by
  rw [integer, mem_sign_mul_iff]
  simp only [mem_digits_iff]

theorem mem_double_iff : word ∈ double.matches' ↔
    ∃ negative whole fraction, Digits.isNumeral whole = true ∧
      Digits.isNumeral fraction = true ∧
      word = withSign negative (whole ++ '.' :: fraction) := by
  rw [double, mem_sign_mul_iff]
  simp only [mem_digits_mul_iff, mem_char_mul_iff, mem_digits_iff]
  constructor
  · rintro ⟨negative, _, ⟨whole, _, hwhole, ⟨fraction, hfraction, rfl⟩, rfl⟩, rfl⟩
    exact ⟨negative, whole, fraction, hwhole, hfraction, rfl⟩
  · rintro ⟨negative, whole, fraction, hwhole, hfraction, rfl⟩
    exact ⟨negative, _, ⟨whole, _, hwhole, ⟨fraction, hfraction, rfl⟩, rfl⟩, rfl⟩

inductive Mantissa : List Char → Prop where
  | whole {whole : List Char} (h : Digits.isNumeral whole = true) : Mantissa whole
  | fraction {whole fraction : List Char} (h : Digits.isNumeral whole = true)
      (hfraction : Digits.isNumeral fraction = true) : Mantissa (whole ++ '.' :: fraction)

theorem mem_scientific_iff : word ∈ scientific.matches' ↔
    ∃ negative mantissa exponent, Mantissa mantissa ∧ exponent ∈ integer.matches' ∧
      word = withSign negative (mantissa ++ 'e' :: exponent) := by
  rw [scientific, mem_sign_mul_iff]
  simp only [mem_digits_mul_iff]
  constructor
  · rintro ⟨negative, _, ⟨whole, _, hwhole, ⟨_, hpoint, _, hmark, rfl⟩, rfl⟩, rfl⟩
    obtain ⟨exponent, hexponent, rfl⟩ := mem_char_mul_iff.mp hmark
    rcases hpoint with rfl | hpoint
    · exact ⟨negative, whole, exponent, .whole hwhole, hexponent, rfl⟩
    · obtain ⟨fraction, hfraction, rfl⟩ := mem_char_mul_iff.mp hpoint
      refine ⟨negative, _, exponent, .fraction hwhole (mem_digits_iff.mp hfraction), hexponent, ?_⟩
      simp
  · rintro ⟨negative, mantissa, exponent, hmantissa, hexponent, rfl⟩
    have hmark : 'e' :: exponent ∈ (char 'e' * integer).matches' :=
      mem_char_mul_iff.mpr ⟨exponent, hexponent, rfl⟩
    cases hmantissa with
    | whole hwhole =>
      exact ⟨negative, _, ⟨mantissa, _, hwhole, ⟨[], .inl rfl, _, hmark, rfl⟩, rfl⟩, rfl⟩
    | @fraction whole fraction hwhole hfraction =>
      have hpoint : '.' :: fraction ∈ (char '.' * digits).matches' :=
        mem_char_mul_iff.mpr ⟨fraction, mem_digits_iff.mpr hfraction, rfl⟩
      refine ⟨negative, _, ⟨whole, _, hwhole, ⟨_, .inr hpoint, _, hmark, rfl⟩, rfl⟩, ?_⟩
      simp

end Words

end Pattern

namespace Word
open Numeral

theorem exists_eq_withSign (word : List Char) :
    ∃ negative, word = withSign negative (dropMinus word) := by
  unfold dropMinus
  split
  · exact ⟨true, rfl⟩
  · exact ⟨false, rfl⟩

theorem isInteger_iff {word : List Char} :
    isInteger word = true ↔ word ∈ Pattern.integer.matches' := by
  rw [Pattern.mem_integer_iff]
  constructor
  · intro h
    obtain ⟨negative, hword⟩ := exists_eq_withSign word
    exact ⟨negative, dropMinus word, h, hword⟩
  · rintro ⟨negative, numeral, hnumeral, rfl⟩
    exact isInteger_withSign negative hnumeral

theorem isDouble_iff {word : List Char} :
    isDouble word = true ↔ word ∈ Pattern.double.matches' := by
  rw [Pattern.mem_double_iff]
  constructor
  · intro h
    obtain ⟨negative, hword⟩ := exists_eq_withSign word
    simp only [isDouble] at h
    split at h
    next fraction hdrop =>
      obtain ⟨hwhole, hfraction⟩ := Bool.and_eq_true_iff.mp h
      refine ⟨negative, _, fraction, hwhole, hfraction, ?_⟩
      rw [← hdrop, List.takeWhile_append_dropWhile]
      exact hword
    next => cases h
  · rintro ⟨negative, whole, fraction, hwhole, hfraction, rfl⟩
    exact isDouble_withSign negative hwhole hfraction

end Word

end LenientJson
