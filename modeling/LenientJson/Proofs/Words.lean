import LenientJson.Proofs.Number.PlainText
import LenientJson.Text.Blank
import LenientJson.Word
import Mathlib

/-!
# The canonical text of a scalar as a word

A scalar that is no string is written as a word of letters, digits, a point and a minus, and the
word stands for the scalar again. Only two scalars change on the way: an integer kept wide that
fits 64 bits becomes narrow, and a double that is not finite becomes null.
-/
namespace LenientJson

/-- The scalar that the canonical text stands for. -/
def Scalar.normal : Scalar → Scalar
  | .bigInteger n => ((Numeral.int64? n).map .integer).getD (.bigInteger n)
  | .double x => if x.isFinite then .double x else .null
  | s => s

namespace Word

def isPlain (c : Char) : Bool := c.isAlphanum || c == '-' || c == '.'

theorem isPlain_of_isDigit {c : Char} (h : c.isDigit = true) : isPlain c = true := by
  simp [isPlain, Char.isAlphanum, h]

/-- Plain characters lie among the visible ASCII characters. -/
theorem toNat_of_isPlain {c : Char} (h : isPlain c = true) : 0x2D ≤ c.toNat ∧ c.toNat ≤ 0x7A := by
  simp only [isPlain, Char.isAlphanum, Char.isAlpha, Char.isUpper, Char.isLower, Char.isDigit,
    Bool.or_eq_true, Bool.and_eq_true, decide_eq_true_eq, beq_iff_eq, UInt32.le_iff_toNat_le] at h
  have htoNat : c.val.toNat = c.toNat := rfl
  rcases h with (((h | h) | h) | rfl) | rfl
  · simp at h
    omega
  · simp at h
    omega
  · simp at h
    omega
  · decide
  · decide

theorem isWhiteSpace_of_isPlain {c : Char} (h : isPlain c = true) :
    Text.isWhiteSpace c = false := by
  have hrange := toNat_of_isPlain h
  simp [Text.isWhiteSpace, Text.whiteSpaceRanges]
  omega

theorem isPlain_of_mem_ofInt {n : Int} {c : Char} (h : c ∈ Digits.ofInt n) : isPlain c = true := by
  cases n with
  | ofNat n => exact isPlain_of_isDigit (Digits.isDigit_of_mem_ofNat h)
  | negSucc n =>
    rcases List.mem_cons.mp h with rfl | h
    · rfl
    · exact isPlain_of_isDigit (Digits.isDigit_of_mem_ofNat h)

theorem isPlain_of_mem_plain {x : Binary64} {c : Char} (h : c ∈ x.plain) : isPlain c = true := by
  have hsize (d : Decimal) (hc : c ∈ d.plain) : isPlain c = true := by
    obtain ⟨whole, fraction, n, hd⟩ := d.exists_denotes_plain
    rw [hd.text_eq] at hc
    rcases List.mem_append.mp hc with hc | hc
    · exact isPlain_of_isDigit ((Digits.isNumeral_iff.mp hd.isNumeral_whole).2 c hc)
    · rcases List.mem_cons.mp hc with rfl | hc
      · rfl
      · exact isPlain_of_isDigit ((Digits.isNumeral_iff.mp hd.isNumeral_fraction).2 c hc)
  have hnull (hc : c ∈ ['n', 'u', 'l', 'l']) : isPlain c = true :=
    List.all_eq_true.mp (by decide) c hc
  cases x with
  | nan => exact hnull h
  | infinite negative => exact hnull h
  | finite negative rank lt =>
    cases negative with
    | true =>
      rcases List.mem_cons.mp h with rfl | h
      · rfl
      · exact hsize _ h
    | false => exact hsize _ h

theorem isPlain_of_mem_text {s : Scalar} (hs : s.isString = false) {c : Char} (h : c ∈ s.text) :
    isPlain c = true := by
  cases s with
  | string text => simp [Scalar.isString] at hs
  | integer value => exact isPlain_of_mem_ofInt h
  | bigInteger value => exact isPlain_of_mem_ofInt h
  | double value => exact isPlain_of_mem_plain h
  | boolean value =>
    have hall : (Scalar.boolean value).text.all isPlain = true := by cases value <;> decide
    exact List.all_eq_true.mp hall c h
  | null => exact List.all_eq_true.mp (by decide) c h

theorem text_ne_nil {s : Scalar} (hs : s.isString = false) : s.text ≠ [] := by
  have hint (n : Int) : Digits.ofInt n ≠ [] := by
    cases n with
    | ofNat n => exact Nat.toDigits_ne_nil
    | negSucc n => exact List.cons_ne_nil _ _
  have hdecimal (d : Decimal) : d.plain ≠ [] := by
    obtain ⟨whole, fraction, n, hd⟩ := d.exists_denotes_plain
    rw [hd.text_eq]
    exact List.append_ne_nil_of_right_ne_nil _ (List.cons_ne_nil _ _)
  cases s with
  | string text => simp [Scalar.isString] at hs
  | integer value => exact hint _
  | bigInteger value => exact hint _
  | double value =>
    cases value with
    | nan => exact List.cons_ne_nil _ _
    | infinite negative => exact List.cons_ne_nil _ _
    | finite negative rank lt =>
      cases negative with
      | true => exact List.cons_ne_nil _ _
      | false => exact hdecimal _
  | boolean value => cases value <;> decide
  | null => decide

/-- An integer is written as the digits of its size behind its sign. -/
theorem ofInt_eq (n : Int) : Digits.ofInt n =
    if decide (n < 0) then '-' :: Digits.ofNat n.natAbs else Digits.ofNat n.natAbs := by
  cases n with
  | ofNat n => rfl
  | negSucc n =>
    rw [if_pos (decide_eq_true (Int.negSucc_lt_zero n))]
    rfl

theorem signed_natAbs (n : Int) : Numeral.signed (decide (n < 0)) n.natAbs = n := by
  unfold Numeral.signed
  split
  next h =>
    have hn : n < 0 := by simpa using h
    omega
  next h =>
    have hn : ¬n < 0 := by simpa using h
    omega

theorem dropMinus_of_isNumeral {numeral : List Char} (rest : List Char)
    (h : Digits.isNumeral numeral = true) : dropMinus (numeral ++ rest) = numeral ++ rest := by
  cases numeral with
  | nil => simp [Digits.isNumeral] at h
  | cons c more =>
    have hminus : c ≠ '-' := fun hc => Digits.head?_ne_of_isNumeral h rfl (congrArg some hc)
    simp [dropMinus, hminus]

section Forms

open Numeral

variable (negative : Bool) {whole fraction : List Char}

theorem dropMinus_withSign (rest : List Char) (h : Digits.isNumeral whole = true) :
    dropMinus (withSign negative (whole ++ rest)) = whole ++ rest := by
  cases negative with
  | true => rfl
  | false => exact dropMinus_of_isNumeral rest h

theorem isInteger_withSign (h : Digits.isNumeral whole = true) :
    isInteger (withSign negative whole) = true := by
  have hdrop := dropMinus_withSign negative [] h
  rw [List.append_nil] at hdrop
  rw [isInteger, hdrop]
  exact h

/-- A word with a point is no integer. -/
theorem isInteger_of_point (h : Digits.isNumeral whole = true) :
    isInteger (withSign negative (whole ++ '.' :: fraction)) = false := by
  rw [isInteger, dropMinus_withSign negative ('.' :: fraction) h]
  simp [Digits.isNumeral]

theorem isDouble_withSign (h : Digits.isNumeral whole = true)
    (hfraction : Digits.isNumeral fraction = true) :
    isDouble (withSign negative (whole ++ '.' :: fraction)) = true := by
  have hdigits := (Digits.isNumeral_iff.mp h).2
  have htake := takeWhile_mark '.' hdigits rfl fraction
  have hdrop := dropWhile_mark '.' hdigits rfl fraction
  simp [isDouble, dropMinus_withSign negative ('.' :: fraction) h, htake, hdrop, h, hfraction]

end Forms

theorem isInteger_ofInt (n : Int) : isInteger (Digits.ofInt n) = true := by
  rw [ofInt_eq]
  exact isInteger_withSign _ (Digits.isNumeral_ofNat n.natAbs)

theorem narrowInteger?_ofInt (n : Int) :
    Numeral.narrowInteger? (Digits.ofInt n) = Numeral.int64? n := by
  rw [ofInt_eq, Numeral.narrowInteger?_of_numeral _ (Digits.isNumeral_ofNat _), Digits.value_ofNat,
    signed_natAbs]

theorem dropSign_cons (sign : Char) {rest : List Char} (h : rest.head? ≠ some '+') :
    Numeral.dropSign sign (sign :: rest) = rest := by
  simp [Numeral.dropSign, h]

theorem dropSign_of_head?_ne {sign : Char} {cs : List Char} (h : cs.head? ≠ some sign) :
    Numeral.dropSign sign cs = cs := by
  cases cs with
  | nil => rfl
  | cons c rest =>
    have hc : c ≠ sign := fun hc => h (congrArg some hc)
    simp [Numeral.dropSign, hc]

/-- The wide grammar reads digits behind an optional minus as the narrow one does, in any range. -/
theorem wideInteger_of_numeral {numeral : List Char} (negative : Bool)
    (h : Digits.isNumeral numeral = true) :
    Numeral.wideInteger (if negative then '-' :: numeral else numeral) =
      .ok (Numeral.signed negative (Digits.value numeral)) := by
  have hminus : numeral.head? ≠ some '-' := Digits.head?_ne_of_isNumeral h rfl
  have hplus : numeral.head? ≠ some '+' := Digits.head?_ne_of_isNumeral h rfl
  have hunderscore : numeral.head? ≠ some '_' := Digits.head?_ne_of_isNumeral h rfl
  obtain ⟨hne, hdigits⟩ := Digits.isNumeral_iff.mp h
  have hnumeral : Numeral.dropSign '+'
      (Numeral.dropSign '-' (if negative then '-' :: numeral else numeral)) = numeral := by
    cases negative with
    | true => rw [if_pos rfl, dropSign_cons '-' hplus, dropSign_of_head?_ne hplus]
    | false =>
      rw [if_neg Bool.false_ne_true, dropSign_of_head?_ne hminus, dropSign_of_head?_ne hplus]
  have hsign : ((if negative then '-' :: numeral else numeral).head? == some '-') = negative := by
    cases negative with
    | true => rfl
    | false => exact beq_eq_false_iff_ne.mpr hminus
  have hkept : numeral.filter (· != '_') = numeral := by
    apply List.filter_eq_self.mpr
    intro c hc
    have hdigit := hdigits c hc
    have hc' : c ≠ '_' := by
      rintro rfl
      simp at hdigit
    simpa using hc'
  have hall : numeral.all Char.isDigit = true := List.all_eq_true.mpr hdigits
  simp only [Numeral.wideInteger, hnumeral, hkept, hsign]
  simp [hne, hall, hunderscore]

theorem wideInteger_ofInt (n : Int) : Numeral.wideInteger (Digits.ofInt n) = .ok n := by
  rw [ofInt_eq, wideInteger_of_numeral _ (Digits.isNumeral_ofNat _), Digits.value_ofNat,
    signed_natAbs]

theorem number?_ofInt (n : Int) : number? (Digits.ofInt n) =
    some (((Numeral.int64? n).map .integer).getD (.bigInteger n)) := by
  rw [number?, if_pos (isInteger_ofInt n), integer, narrowInteger?_ofInt]
  cases Numeral.int64? n with
  | some value => rfl
  | none =>
    rw [wideInteger_ofInt]
    rfl

/-- The plain text of a finite number has the form of a double and not that of an integer. -/
theorem number?_plain (negative : Bool) {rank : Nat} (lt : rank < Binary64.infinityRank) :
    number? (Binary64.finite negative rank lt).plain =
      some (.double (.finite negative rank lt)) := by
  obtain ⟨whole, fraction, n, hd⟩ := (Shortest.ofRank rank).exists_denotes_plain
  have htext : (Binary64.finite negative rank lt).plain =
      Numeral.withSign negative (Shortest.ofRank rank).plain := rfl
  have hread := Numeral.double_plain negative (Shortest.ofRank rank)
  rw [Shortest.ofDecimal_ofRank negative lt] at hread
  have hint := @isInteger_of_point negative whole fraction hd.isNumeral_whole
  have hdouble := isDouble_withSign negative hd.isNumeral_whole hd.isNumeral_fraction
  rw [← hd.text_eq] at hint hdouble
  simp [htext, number?, hint, hdouble, double?, hread, Binary64.isFinite]

end Word

namespace Scalar
open Word

theorem exists_of_isString {s : Scalar} (hs : s.isString = true) : ∃ text, s = .string text := by
  cases s with
  | string text => exact ⟨text, rfl⟩
  | _ => cases hs

theorem int64?_toInt (value : Int64) : Numeral.int64? value.toInt = some value := by
  rw [Numeral.int64?, if_pos ⟨value.le_toInt, value.toInt_lt⟩, Int64.ofInt_toInt]

/-- The canonical text of a scalar is a word for its normal form. -/
theorem ofWord_text {s : Scalar} (hs : s.isString = false) : ofWord s.text = s.normal := by
  cases s with
  | string text => simp [isString] at hs
  | integer value => simp [ofWord, text, number?_ofInt, int64?_toInt, normal]
  | bigInteger value => simp [ofWord, text, number?_ofInt, normal]
  | double value =>
    cases value with
    | nan => decide
    | infinite negative => cases negative <;> decide
    | finite negative rank lt => simp [ofWord, text, number?_plain, normal, Binary64.isFinite]
  | boolean value => cases value <;> decide
  | null => decide

/-- An integer word is digits behind an optional minus. -/
theorem exists_numeral_of_isInteger {word : List Char} (h : isInteger word = true) :
    ∃ (negative : Bool) (numeral : List Char),
      word = (if negative then '-' :: numeral else numeral) ∧
        Digits.isNumeral numeral = true := by
  unfold isInteger dropMinus at h
  split at h
  next rest => exact ⟨true, rest, rfl, h⟩
  next => exact ⟨false, word, rfl, h⟩

theorem normal_integer {word : List Char} {s : Scalar} (h : isInteger word = true)
    (hs : Word.integer word = .ok s) : s.normal = s := by
  obtain ⟨negative, numeral, rfl, hnumeral⟩ := exists_numeral_of_isInteger h
  rw [Word.integer, Numeral.narrowInteger?_of_numeral negative hnumeral,
    wideInteger_of_numeral negative hnumeral] at hs
  cases hnarrow : Numeral.int64? (Numeral.signed negative (Digits.value numeral)) with
  | some value =>
    rw [hnarrow] at hs
    rw [← Except.ok.inj hs]
    rfl
  | none =>
    rw [hnarrow] at hs
    rw [← Except.ok.inj hs, normal, hnarrow]
    rfl

theorem normal_name (word : List Char) : (name word).normal = name word := by
  unfold name
  split
  · rfl
  · split <;> rfl

/-- What a word stands for is in normal form already. -/
theorem normal_ofWord (word : List Char) : (ofWord word).normal = ofWord word := by
  unfold ofWord number?
  split
  next hinteger =>
    cases hs : Word.integer word with
    | ok s => exact normal_integer hinteger hs
    | error fault => exact normal_name word
  next =>
    split
    next =>
      unfold Word.double?
      split
      next value hvalue =>
        split
        next hfinite => simp [normal, hfinite]
        next => exact normal_name word
      next => exact normal_name word
    next => exact normal_name word

end Scalar

end LenientJson
