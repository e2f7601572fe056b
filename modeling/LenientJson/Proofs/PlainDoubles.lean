import LenientJson.Proofs.Number.RawTexts
import LenientJson.Proofs.Number.Spelling

/-!
# Plain texts of doubles

The plain text of a finite number other than zero can be made from any raw text of it. It denotes
the same rational with the same sign, its fraction has a digit and no zero too many, and it is
inferred as the double that the raw text is read as. Made from the shortest decimal, it is the
plain text of the number.
-/
namespace LenientJson

open Numeral Expansion
open Binary64 (signedRat)

def Numeral.fractionOf (text : List Char) : List Char := (text.dropWhile (· != '.')).tail

structure Expansion.PlainTextOf (raw text : List Char) : Prop where
  form : text ∈ Pattern.double.matches'
  value : ratOf text = ratOf raw
  sign : isNegative text = isNegative raw
  trimmed : Trimmed (fractionOf text)
  notInteger : text ∉ Pattern.integer.matches'
  read : Numeral.double text = Numeral.double raw
  inferred : ∃ x, Scalar.ReadsDouble text x
  finite : |ratOf raw| < Binary64.overflowRat → ∃ x, Scalar.ofWord text = .double x

namespace Binary64

def isNegative : Binary64 → Bool
  | .finite negative _ _ => negative
  | .infinite negative => negative
  | .nan => false

/-- The rational of the shortest decimal that is rounded to a number. -/
def shortestRat : Binary64 → ℚ
  | .finite negative rank _ =>
    signedRat negative ((Shortest.ofRank rank).coefficient * 10 ^ (Shortest.ofRank rank).exponent)
  | _ => 0

end Binary64

/-- A raw text of the shortest decimal that is rounded to a number, without a zero in front that
could be left out. -/
structure Expansion.SpellsShortest (raw : List Char) (x : Binary64) : Prop where
  sign : isNegative raw = x.isNegative
  value : ratOf raw = x.shortestRat
  front : SignificantFront raw

namespace Expansion

section Plain

variable {raw whole fraction : List Char} (h : PlainParts raw whole fraction)

include h

theorem PlainParts.mem_double :
    withSign (isNegative raw) (whole ++ '.' :: fraction) ∈ Pattern.double.matches' :=
  Pattern.mem_double_iff.mpr ⟨_, _, _, h.isNumeral_whole, h.isNumeral_fraction, rfl⟩

theorem PlainParts.fractionOf_eq :
    fractionOf (withSign (isNegative raw) (whole ++ '.' :: fraction)) = fraction := by
  have hfront : ∀ c ∈ withSign (isNegative raw) whole, (c != '.') = true := by
    intro c hc
    rw [bne_iff_ne]
    rintro rfl
    exact notMem_point_withSign _ h.isNumeral_whole hc
  rw [fractionOf, withSign_append, dropWhile_mark '.' hfront rfl, List.tail_cons]

theorem PlainParts.plainTextOf (hraw : RawForm raw) :
    PlainTextOf raw (withSign (isNegative raw) (whole ++ '.' :: fraction)) := by
  have hsign := isNegative_withSign (isNegative raw) ('.' :: fraction) h.isNumeral_whole
  have hfraction := h.fractionOf_eq
  obtain ⟨x, hx⟩ := Word.readsDouble_of_mem h.mem_double
  constructor
  case form => exact h.mem_double
  case value => exact h.value
  case sign => exact hsign
  case trimmed =>
    rw [hfraction]
    exact h.trimmed
  case notInteger =>
    rw [← Word.isInteger_iff, Word.isInteger_of_point _ h.isNumeral_whole]
    exact Bool.false_ne_true
  case read => exact double_eq_of_ratOf_eq hraw (.positional h.mem_double) hsign h.value
  case inferred => exact ⟨x, hx⟩
  case finite =>
    intro hbelow
    rw [← h.value, ← hx.rounded.isFinite_iff] at hbelow
    exact ⟨x, (hx.finite hbelow).1⟩

/-- Of the shortest decimal there is only the one plain text. -/
theorem PlainParts.eq_plain {x : Binary64} (hx : x.isFinite = true)
    (hshortest : SpellsShortest raw x) :
    withSign (isNegative raw) (whole ++ '.' :: fraction) = x.plain := by
  cases x with
  | nan => cases hx
  | infinite negative => cases hx
  | finite negative rank lt =>
    obtain ⟨whole', fraction', hplain, hspelled, hvalue⟩ :=
      exists_spelled_plain (Shortest.ofRank rank)
    have htext : (Binary64.finite negative rank lt).plain =
        withSign negative (Shortest.ofRank rank).plain := rfl
    have hsign : isNegative raw = negative := hshortest.sign
    have hsame := h.value.trans hshortest.value
    rw [hsign, ratOf_mantissa _ (.fraction h.isNumeral_whole h.isNumeral_fraction),
      Binary64.shortestRat, ← hvalue] at hsame
    have hspelled' : Spelled whole fraction :=
      ⟨h.isNumeral_whole, h.isNumeral_fraction, h.unpadded hshortest.front, h.trimmed⟩
    obtain ⟨rfl, rfl⟩ := hspelled'.unique hspelled (Binary64.signedRat_injective negative hsame)
    rw [hsign, htext, hplain]

end Plain

theorem plainFrom?_of_toRat_ne_zero (raw : Binary64 → List Char) {x : Binary64}
    (hx : x.isFinite = true) (hzero : x.toRat ≠ 0) : x.plainFrom? raw = ofRaw? (raw x) := by
  cases x with
  | nan => cases hx
  | infinite negative => cases hx
  | finite negative rank lt =>
    exact if_neg fun hrank => hzero (Binary64.toRat_eq_zero_iff.mpr hrank)

/-- With raw texts of shortest decimals, the two ways to write a number give one text. -/
theorem plainFrom?_eq_plain {raw : Binary64 → List Char}
    (h : ∀ x : Binary64, x.isFinite = true → x.toRat ≠ 0 →
      RawForm (raw x) ∧ SpellsShortest (raw x) x) (x : Binary64) :
    x.plainFrom? raw = some x.plain := by
  cases x with
  | nan => rfl
  | infinite negative => rfl
  | finite negative rank lt =>
    by_cases hrank : rank = 0
    · subst hrank
      cases negative <;> rfl
    · have hzero : (Binary64.finite negative rank lt).toRat ≠ 0 :=
        mt Binary64.toRat_eq_zero_iff.mp hrank
      obtain ⟨hform, hshortest⟩ := h (.finite negative rank lt) rfl hzero
      obtain ⟨whole, fraction, hparts⟩ := hform.exists_plainParts
      rw [plainFrom?_of_toRat_ne_zero raw rfl hzero, hparts.text, hparts.eq_plain rfl hshortest]

end Expansion

/-- The plain text of a finite number other than zero, made from a raw text of any form, exists
and is exact. It is read as the number if the raw text is, and it is the text that is written if
the raw text is of the shortest decimal. -/
theorem plainFrom_exact (raw : Binary64 → List Char) {x : Binary64} (hx : x.isFinite = true)
    (hzero : x.toRat ≠ 0) (h : RawForm (raw x)) :
    ∃ text, x.plainFrom? raw = some text ∧ PlainTextOf (raw x) text ∧
      (Numeral.double (raw x) = .ok x → Numeral.double text = .ok x ∧
        Scalar.ofWord text = .double x ∧ Scalar.noticesOfWord text = []) ∧
      (SpellsShortest (raw x) x → text = x.plain) := by
  obtain ⟨whole, fraction, hparts⟩ := h.exists_plainParts
  have hplain := hparts.plainTextOf h
  refine ⟨_, (plainFrom?_of_toRat_ne_zero raw hx hzero).trans hparts.text, hplain, ?_,
    hparts.eq_plain hx⟩
  intro hread
  obtain ⟨y, hy⟩ := hplain.inferred
  have htext := hplain.read.trans hread
  obtain rfl : y = x := Except.ok.inj (hy.read.symm.trans htext)
  exact ⟨htext, hy.finite hx⟩

def largeDouble : Binary64 := .finite true 4927202764297983378 (by decide)

theorem plainFrom_exact_largeDouble :
    ∃ text, largeDouble.plainFrom? (fun _ => "-2.5e21".toList) = some text ∧
      PlainTextOf "-2.5e21".toList text ∧ Scalar.ofWord text = .double largeDouble ∧
      text = largeDouble.plain := by
  have hzero : largeDouble.toRat ≠ 0 := mt Binary64.toRat_eq_zero_iff.mp (by decide)
  have hmantissa : Pattern.Mantissa "2.5".toList :=
    @Pattern.Mantissa.fraction ['2'] ['5'] rfl rfl
  have hscientific : "-2.5e21".toList ∈ Pattern.scientific.matches' :=
    Pattern.mem_scientific_iff.mpr ⟨true, _, "21".toList, hmantissa,
      Word.isInteger_iff.mp (by decide), rfl⟩
  have hform : RawForm "-2.5e21".toList :=
    .scientific hscientific (by decide) (by decide) (by decide)
  have hread : Numeral.double "-2.5e21".toList = .ok largeDouble := by decide +kernel
  have hdecimal : Shortest.ofRank 4927202764297983378 = ⟨25, 20⟩ := by decide +kernel
  have hshortest : SpellsShortest "-2.5e21".toList largeDouble := by
    refine ⟨by decide, ?_, fun hhead => absurd hhead (by decide)⟩
    have hvalue : ratOf "-2.5e21".toList = signedRat true
        (mantissaRat "2.5".toList * 10 ^ intOf "21".toList) :=
      ratOf_scientific true hmantissa _
    have hmantissaRat : mantissaRat "2.5".toList = 25 * 10 ^ (-1 : ℤ) :=
      @mantissaRat_point ['2'] ['5'] rfl
    have hexponent : intOf "21".toList = 21 := by decide
    rw [hvalue, hmantissaRat, hexponent, largeDouble, Binary64.shortestRat, hdecimal]
    norm_num
  obtain ⟨text, htext, hplain, hsame, hwritten⟩ :=
    plainFrom_exact (fun _ => "-2.5e21".toList) rfl hzero hform
  exact ⟨text, htext, hplain, (hsame hread).2.1, hwritten hshortest⟩

end LenientJson
