import LenientJson.Proofs.Number.Nearest
import LenientJson.Proofs.Words.Patterns

/-!
# What number words denote

The integer or the rational that a number word denotes, by the place values of its digits: those
behind the point count tenths, hundredths and so on, and a power of ten behind the mark e scales
the whole.
-/
namespace LenientJson.Numeral
open Digits Word
open Binary64 (signedRat)

def isNegative (word : List Char) : Bool := word.head? == some '-'

def intOf (word : List Char) : ℤ := signed (isNegative word) (value (dropMinus word))

def mantissaRat (mantissa : List Char) : ℚ :=
  let whole := mantissa.takeWhile (· != '.')
  let fraction := (mantissa.dropWhile (· != '.')).tail
  value whole + value fraction / 10 ^ fraction.length

/-- The rational that a number word denotes: its sign, its mantissa and its power of ten. -/
def ratOf (word : List Char) : ℚ :=
  let size := dropMinus word
  signedRat (isNegative word)
    (mantissaRat (size.takeWhile (· != 'e')) * 10 ^ intOf (size.dropWhile (· != 'e')).tail)

theorem int64?_of_mem {n : Int} (hlow : -2 ^ 63 ≤ n) (hhigh : n ≤ 2 ^ 63 - 1) :
    ∃ value : Int64, value.toInt = n ∧ int64? n = some value := by
  refine ⟨.ofInt n, Int64.toInt_ofInt_of_le hlow (by omega), if_pos ⟨by omega, by omega⟩⟩

theorem int64?_of_not_mem {n : Int} (h : n < -2 ^ 63 ∨ 2 ^ 63 - 1 < n) : int64? n = none :=
  if_neg (by omega)

section Sign

variable (negative : Bool) {numeral : List Char}

theorem isNegative_withSign (rest : List Char) (h : isNumeral numeral = true) :
    isNegative (withSign negative (numeral ++ rest)) = negative := by
  cases negative with
  | true => rfl
  | false =>
    have hhead := head?_ne_of_isNumeral h (c := '-') rfl
    obtain ⟨c, more, rfl⟩ := List.exists_cons_of_ne_nil (isNumeral_iff.mp h).1
    exact beq_eq_false_iff_ne.mpr hhead

theorem intOf_withSign (h : isNumeral numeral = true) :
    intOf (withSign negative numeral) = signed negative (value numeral) := by
  have hsign := isNegative_withSign negative [] h
  have hdrop := dropMinus_withSign negative [] h
  rw [List.append_nil] at hsign hdrop
  rw [intOf, hsign, hdrop]

end Sign

section Mantissa

variable {whole fraction : List Char}

/-- The digits of a numeral are none of the marks. -/
theorem ne_of_isNumeral {numeral : List Char} (h : isNumeral numeral = true) (mark : Char)
    (hmark : mark.isDigit = false) : ∀ c ∈ numeral, (c != mark) = true := by
  intro c hc
  have hdigit := (isNumeral_iff.mp h).2 c hc
  rw [bne_iff_ne]
  rintro rfl
  rw [hmark] at hdigit
  cases hdigit

theorem mantissaRat_numeral (h : isNumeral whole = true) : mantissaRat whole = value whole := by
  have hmarks := ne_of_isNumeral h '.' rfl
  have htake : whole.takeWhile (· != '.') = whole := List.takeWhile_eq_self_iff.mpr hmarks
  have hdrop : whole.dropWhile (· != '.') = [] := List.dropWhile_eq_nil_iff.mpr hmarks
  rw [mantissaRat, htake, hdrop]
  simp [value]

/-- The digits on both sides of the point are one numeral, moved by the length of the fraction. -/
theorem mantissaRat_point (h : isNumeral whole = true) :
    mantissaRat (whole ++ '.' :: fraction) =
      value (whole ++ fraction) * 10 ^ (-fraction.length : ℤ) := by
  have htake := takeWhile_mark '.' (ne_of_isNumeral h '.' rfl) rfl fraction
  have hdrop := dropWhile_mark '.' (ne_of_isNumeral h '.' rfl) rfl fraction
  rw [mantissaRat, htake, hdrop, List.tail_cons, value_append, zpow_neg, zpow_natCast]
  push_cast
  field_simp

end Mantissa

section Rational

open Pattern

variable {mantissa : List Char}

theorem exists_numeral_of_mantissa (h : Mantissa mantissa) :
    ∃ numeral rest, isNumeral numeral = true ∧ mantissa = numeral ++ rest := by
  cases h with
  | whole hwhole => exact ⟨mantissa, [], hwhole, (List.append_nil _).symm⟩
  | fraction hwhole _ => exact ⟨_, _, hwhole, rfl⟩

/-- A mantissa ends before the mark of an exponent. -/
theorem ne_of_mantissa (h : Mantissa mantissa) : ∀ c ∈ mantissa, (c != 'e') = true := by
  cases h with
  | whole hwhole => exact ne_of_isNumeral hwhole 'e' rfl
  | fraction hwhole hfraction =>
    intro c hc
    rcases List.mem_append.mp hc with hc | hc
    · exact ne_of_isNumeral hwhole 'e' rfl c hc
    · rcases List.mem_cons.mp hc with rfl | hc
      · rfl
      · exact ne_of_isNumeral hfraction 'e' rfl c hc

variable (negative : Bool)

theorem isNegative_mantissa (h : Mantissa mantissa) (rest : List Char) :
    isNegative (withSign negative (mantissa ++ rest)) = negative := by
  obtain ⟨numeral, more, hnumeral, rfl⟩ := exists_numeral_of_mantissa h
  rw [List.append_assoc]
  exact isNegative_withSign negative _ hnumeral

theorem dropMinus_mantissa (h : Mantissa mantissa) (rest : List Char) :
    dropMinus (withSign negative (mantissa ++ rest)) = mantissa ++ rest := by
  obtain ⟨numeral, more, hnumeral, rfl⟩ := exists_numeral_of_mantissa h
  rw [List.append_assoc]
  exact dropMinus_withSign negative _ hnumeral

theorem ratOf_mantissa (h : Mantissa mantissa) :
    ratOf (withSign negative mantissa) = signedRat negative (mantissaRat mantissa) := by
  have hsign := isNegative_mantissa negative h []
  have hdrop := dropMinus_mantissa negative h []
  rw [List.append_nil] at hsign hdrop
  have htake : mantissa.takeWhile (· != 'e') = mantissa :=
    List.takeWhile_eq_self_iff.mpr (ne_of_mantissa h)
  have hmark : mantissa.dropWhile (· != 'e') = [] :=
    List.dropWhile_eq_nil_iff.mpr (ne_of_mantissa h)
  have hexponent : intOf [] = 0 := rfl
  rw [ratOf, hsign, hdrop, htake, hmark, List.tail_nil, hexponent, zpow_zero, mul_one]

theorem ratOf_scientific (h : Mantissa mantissa) (exponent : List Char) :
    ratOf (withSign negative (mantissa ++ 'e' :: exponent)) =
      signedRat negative (mantissaRat mantissa * 10 ^ intOf exponent) := by
  have htake := takeWhile_mark 'e' (ne_of_mantissa h) rfl exponent
  have hmark := dropWhile_mark 'e' (ne_of_mantissa h) rfl exponent
  rw [ratOf, isNegative_mantissa negative h, dropMinus_mantissa negative h, htake, hmark,
    List.tail_cons]

/-- The digits on both sides of the point are one numeral, whose unit the fraction makes small. -/
theorem ratOf_decimal {whole fraction : List Char} (hwhole : isNumeral whole = true)
    (hfraction : isNumeral fraction = true) :
    ratOf (withSign negative (whole ++ '.' :: fraction)) =
      signedRat negative (value (whole ++ fraction) * 10 ^ (-fraction.length : ℤ)) := by
  rw [ratOf_mantissa negative (.fraction hwhole hfraction), mantissaRat_point hwhole]

end Rational

end LenientJson.Numeral
