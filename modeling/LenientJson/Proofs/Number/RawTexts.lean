import LenientJson.Proofs.Number.Placing
import LenientJson.Proofs.NumberWords

/-!
# Raw texts

A raw text of a number is positional, or it has an exponent in the range of finite numbers. Without
its exponent, and with its fraction trimmed, it still denotes the same rational with the same sign,
and so it is read as the same double.
-/
namespace LenientJson.Expansion
open Digits Numeral Pattern
open Binary64 (signedRat)

def exponentOf (raw : List Char) : ℤ := intOf (raw.dropWhile (· != 'e')).tail

/-- A raw text of a finite number. A buffer of 24 characters holds all that are printed, and
2^30 of them leave room for the arithmetic of the point. -/
inductive RawForm (raw : List Char) : Prop where
  | positional (form : raw ∈ double.matches')
  | scientific (form : raw ∈ scientific.matches') (least : -324 ≤ exponentOf raw)
      (greatest : exponentOf raw ≤ 308) (length : raw.length ≤ 2 ^ 30)

/-- A zero in front of a raw text is the whole part of a positional one. -/
def SignificantFront (raw : List Char) : Prop :=
  (Word.dropMinus raw).head? = some '0' →
    'e' ∉ raw ∧ (Word.dropMinus raw).takeWhile (· != '.') = ['0']

section Signs

variable {mantissa : List Char} (negative : Bool)

/-- The mark of an exponent stands behind the sign and the mantissa. -/
theorem ne_of_withSign (h : Mantissa mantissa) :
    ∀ c ∈ withSign negative mantissa, (c != 'e') = true := by
  cases negative with
  | true => exact List.forall_mem_cons.mpr ⟨rfl, ne_of_mantissa h⟩
  | false => exact ne_of_mantissa h

theorem withSign_mark (mark : List Char) : withSign negative (mantissa ++ 'e' :: mark) =
    withSign negative mantissa ++ 'e' :: mark := withSign_append negative mantissa _

theorem exponentOf_withSign (h : Mantissa mantissa) (mark : List Char) :
    exponentOf (withSign negative (mantissa ++ 'e' :: mark)) = intOf mark := by
  rw [exponentOf, withSign_mark, dropWhile_mark 'e' (ne_of_withSign negative h) rfl, List.tail_cons]

/-- The sign is put back in front of the size. -/
theorem expand?_withSign (h : Mantissa mantissa) (mark : List Char) :
    expand? (withSign negative (mantissa ++ 'e' :: mark)) =
      (expandSize? mantissa mark).map (withSign negative) := by
  rw [expand?, withSign_mark, splitOnce?_mark 'e' (ne_of_withSign negative h), Option.getD_some]
  cases negative with
  | true => rfl
  | false =>
    obtain ⟨numeral, rest, hnumeral, rfl⟩ := exists_numeral_of_mantissa h
    have hminus := head?_ne_of_isNumeral hnumeral (c := '-') rfl
    obtain ⟨c, more, rfl⟩ := List.exists_cons_of_ne_nil (isNumeral_iff.mp hnumeral).1
    have hc : c ≠ '-' := fun hc => hminus (congrArg some hc)
    have hid : withSign false = id := rfl
    rw [hid, Option.map_id, List.cons_append]
    simp [hc]

end Signs

structure Unscaled (raw moved : List Char) : Prop where
  text : (if raw.contains 'e' then expand? raw else some raw) =
    some (withSign (isNegative raw) moved)
  form : Mantissa moved
  value : ratOf raw = signedRat (isNegative raw) (mantissaRat moved)
  unpadded : SignificantFront raw → Unpadded (moved.takeWhile (· != '.'))

section Texts

variable {whole fraction mantissa mark : List Char} (negative : Bool)

/-- A positional text stays as it is. -/
theorem unscaled_positional (hwhole : isNumeral whole = true)
    (hfraction : isNumeral fraction = true) :
    Unscaled (withSign negative (whole ++ '.' :: fraction)) (whole ++ '.' :: fraction) := by
  have hform : Mantissa (whole ++ '.' :: fraction) := .fraction hwhole hfraction
  have hsign := isNegative_withSign negative ('.' :: fraction) hwhole
  have hmark : (withSign negative (whole ++ '.' :: fraction)).contains 'e' = false := by
    rw [List.contains_eq_mem, decide_eq_false_iff_not]
    exact fun hmem => absurd (ne_of_withSign negative hform 'e' hmem) (by simp)
  have htake := takeWhile_mark '.' (ne_of_isNumeral hwhole '.' rfl) rfl fraction
  constructor
  case text => rw [hmark, hsign, if_neg Bool.false_ne_true]
  case form => exact hform
  case value => rw [hsign, ratOf_mantissa negative hform]
  case unpadded =>
    intro hfront
    rw [SignificantFront, Word.dropMinus_withSign negative _ hwhole, htake,
      List.head?_append_of_ne_nil _ (isNumeral_iff.mp hwhole).1] at hfront
    rw [htake]
    by_cases hzero : whole.head? = some '0'
    · rw [(hfront hzero).2]
      exact unpadded_singleton '0'
    · exact unpadded_of_head?_ne (isNumeral_iff.mp hwhole).1 hzero

/-- The exponent of a scientific text moves the point. -/
theorem exists_unscaled_scientific (hmantissa : Mantissa mantissa) (hmark : mark ∈ integer.matches')
    (hleast : -324 ≤ intOf mark) (hgreatest : intOf mark ≤ 308)
    (hlength : mantissa.length ≤ 2 ^ 30) :
    ∃ moved, Unscaled (withSign negative (mantissa ++ 'e' :: mark)) moved := by
  obtain ⟨moved, hmoved, hspec⟩ := exists_expandSize hmantissa hmark (by omega) (by omega) (by omega)
  have hsign := isNegative_mantissa negative hmantissa ('e' :: mark)
  have hmem : 'e' ∈ withSign negative (mantissa ++ 'e' :: mark) := by
    rw [withSign_mark]
    exact List.mem_append_right _ List.mem_cons_self
  refine ⟨moved, ?_, hspec.form, ?_, ?_⟩
  · rw [if_pos (List.contains_iff_mem.mpr hmem), expand?_withSign negative hmantissa, hmoved, hsign]
    rfl
  · rw [hsign, ratOf_scientific negative hmantissa, hspec.value]
  · intro hfront
    refine hspec.unpadded fun hzero => (hfront ?_).1 hmem
    have hne : mantissa ≠ [] := List.ne_nil_of_mem (List.mem_of_mem_head? hzero)
    rwa [dropMinus_mantissa negative hmantissa, List.head?_append_of_ne_nil _ hne]

theorem RawForm.exists_unscaled {raw : List Char} (h : RawForm raw) :
    ∃ moved, Unscaled raw moved := by
  cases h with
  | positional form =>
    obtain ⟨negative, whole, fraction, hwhole, hfraction, rfl⟩ := mem_double_iff.mp form
    exact ⟨_, unscaled_positional negative hwhole hfraction⟩
  | scientific form least greatest length =>
    obtain ⟨negative, mantissa, mark, hmantissa, hmark, rfl⟩ := mem_scientific_iff.mp form
    rw [exponentOf_withSign negative hmantissa] at least greatest
    refine exists_unscaled_scientific negative hmantissa hmark least greatest ?_
    rw [withSign_append, List.length_append] at length
    have hsign : mantissa.length ≤ (withSign negative mantissa).length := by
      cases negative with
      | true => exact Nat.le_succ _
      | false => exact le_rfl
    omega

structure PlainParts (raw whole fraction : List Char) : Prop where
  text : ofRaw? raw = some (withSign (isNegative raw) (whole ++ '.' :: fraction))
  isNumeral_whole : isNumeral whole = true
  isNumeral_fraction : isNumeral fraction = true
  trimmed : Trimmed fraction
  value : ratOf (withSign (isNegative raw) (whole ++ '.' :: fraction)) = ratOf raw
  unpadded : SignificantFront raw → Unpadded whole

theorem RawForm.exists_plainParts {raw : List Char} (h : RawForm raw) :
    ∃ whole fraction, PlainParts raw whole fraction := by
  obtain ⟨moved, hmoved⟩ := h.exists_unscaled
  obtain ⟨fraction, hfraction, htext⟩ := exists_ensured (isNegative raw) hmoved.form
  refine ⟨_, fraction, ?_, hfraction.isNumeral_whole, hfraction.isNumeral_fraction,
    hfraction.trimmed, ?_, hmoved.unpadded⟩
  · rw [ofRaw?, hmoved.text, Option.map_some, htext]
  · rw [ratOf_mantissa _ (.fraction hfraction.isNumeral_whole hfraction.isNumeral_fraction),
      hfraction.value, hmoved.value]

end Texts

section Reading

variable {mantissa mark : List Char}

theorem exponent?_mark (h : mark ∈ integer.matches') :
    exponent? ('e' :: mark) = some (intOf mark) := by
  obtain ⟨negative, numeral, hnumeral, rfl⟩ := mem_integer_iff.mp h
  have hsplit := splitSign_withSign negative [] hnumeral
  rw [List.append_nil] at hsplit
  rw [intOf_withSign negative hnumeral, exponent?, hsplit]
  simp [hnumeral]

/-- An exponent in the range of finite numbers is not cut. -/
theorem cutExponent_of_mem (whole fraction : Nat) {e : Int} (hleast : -324 ≤ e)
    (hgreatest : e ≤ 308) : cutExponent whole fraction e = e := by
  unfold cutExponent
  omega

/-- The decimal of a scientific text has the value that the text denotes. -/
theorem exists_decimal? (h : Mantissa mantissa) (hmark : mark ∈ integer.matches')
    (hleast : -324 ≤ intOf mark) (hgreatest : intOf mark ≤ 308) :
    ∃ d, decimal? (mantissa ++ 'e' :: mark) = some d ∧
      (d.coefficient : ℚ) * 10 ^ d.exponent = mantissaRat mantissa * 10 ^ intOf mark := by
  have hmarkDigits := exponent?_mark hmark
  cases h with
  | whole h =>
    obtain ⟨hne, hdigits⟩ := isNumeral_iff.mp h
    have htake := takeWhile_mark 'e' hdigits rfl mark
    have hdrop := dropWhile_mark 'e' hdigits rfl mark
    refine ⟨⟨value mantissa, intOf mark⟩, ?_, by rw [mantissaRat_numeral h]⟩
    simp [decimal?, htake, hdrop, hne, hmarkDigits, cutExponent_of_mem _ _ hleast hgreatest]
  | @fraction whole fraction h hfraction =>
    obtain ⟨hne, hdigits⟩ := isNumeral_iff.mp h
    have hbehind := (isNumeral_iff.mp hfraction).2
    have htake := takeWhile_mark '.' hdigits rfl (fraction ++ 'e' :: mark)
    have hdrop := dropWhile_mark '.' hdigits rfl (fraction ++ 'e' :: mark)
    have htake' := takeWhile_mark 'e' hbehind rfl mark
    have hdrop' := dropWhile_mark 'e' hbehind rfl mark
    refine ⟨⟨value (whole ++ fraction), intOf mark - fraction.length⟩, ?_, ?_⟩
    · simp [decimal?, htake, hdrop, htake', hdrop', hne, hmarkDigits,
        cutExponent_of_mem _ _ hleast hgreatest]
    · rw [mantissaRat_point h, mul_assoc, ← zpow_add₀ (by norm_num), neg_add_eq_sub]

/-- A raw text is read as the double that its value is rounded to. -/
theorem RawForm.exists_roundedTo {raw : List Char} (h : RawForm raw) :
    ∃ x, Numeral.double raw = .ok x ∧ Binary64.RoundedTo (isNegative raw) (ratOf raw) x := by
  cases h with
  | positional form =>
    obtain ⟨x, hx⟩ := Word.readsDouble_of_mem form
    exact ⟨x, hx.read, hx.rounded⟩
  | scientific form least greatest _ =>
    obtain ⟨negative, mantissa, mark, hmantissa, hmark, rfl⟩ := mem_scientific_iff.mp form
    rw [exponentOf_withSign negative hmantissa] at least greatest
    obtain ⟨d, hd, hvalue⟩ := exists_decimal? hmantissa hmark least greatest
    have hsplit : splitSign (withSign negative (mantissa ++ 'e' :: mark)) =
        (negative, mantissa ++ 'e' :: mark) := by
      obtain ⟨numeral, rest, hnumeral, rfl⟩ := exists_numeral_of_mantissa hmantissa
      rw [List.append_assoc]
      exact splitSign_withSign negative _ hnumeral
    refine ⟨.ofDecimal negative d.coefficient d.exponent, ?_, ?_⟩
    · simp only [Numeral.double, hsplit, hd]
    · rw [isNegative_mantissa negative hmantissa, ratOf_scientific negative hmantissa, ← hvalue]
      exact Binary64.roundedTo_ofDecimal negative d.coefficient d.exponent

/-- What is read depends on the sign and the value only. -/
theorem double_eq_of_ratOf_eq {raw text : List Char} (h : RawForm raw) (htext : RawForm text)
    (hsign : isNegative text = isNegative raw) (hvalue : ratOf text = ratOf raw) :
    Numeral.double text = Numeral.double raw := by
  obtain ⟨x, hx, hrounded⟩ := h.exists_roundedTo
  obtain ⟨y, hy, hrounded'⟩ := htext.exists_roundedTo
  rw [hsign, hvalue] at hrounded'
  rw [hx, hy, hrounded'.unique hrounded]

end Reading

end LenientJson.Expansion
