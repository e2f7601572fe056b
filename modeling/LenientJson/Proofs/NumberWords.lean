import LenientJson.Proofs.NameWords
import LenientJson.Proofs.Words.Denotations

/-!
# Words that are numbers

A word of the form of an integer is the integer that it denotes, narrow if 64 bits hold it and wide
if not, and a word of the form of a double is the double that its value is rounded to. Only where
that is infinite the word stays a string. No word of either form fails to be read.
-/
namespace LenientJson

open Numeral

/-- How an integer word is read: its value in one of two kinds, and a remark on the wide kind. -/
structure Scalar.ReadsInteger (word : List Char) : Prop where
  narrow : -2 ^ 63 ≤ intOf word → intOf word ≤ 2 ^ 63 - 1 →
    (∃ value : Int64, value.toInt = intOf word ∧ ofWord word = .integer value) ∧
      noticesOfWord word = []
  wide : intOf word < -2 ^ 63 ∨ 2 ^ 63 - 1 < intOf word →
    ofWord word = .bigInteger (intOf word) ∧
      noticesOfWord word = [.wideInteger (.ofList word)]
  severity : ∀ notice ∈ noticesOfWord word, notice.severity = .debug
  read : ∃ s, Word.integer word = .ok s

/-- How a double word is read: its value rounded correctly, unless that is infinite. Then the word
is kept, and there is one warning. -/
structure Scalar.ReadsDouble (word : List Char) (x : Binary64) : Prop where
  read : Numeral.double word = .ok x
  rounded : Binary64.RoundedTo (isNegative word) (ratOf word) x
  finite : x.isFinite = true → ofWord word = .double x ∧ noticesOfWord word = []
  infinite : x.isFinite = false →
    ofWord word = .string (.ofList word) ∧
      noticesOfWord word = [.doubleOutOfRange (.ofList word) x]
  severity : ∀ notice ∈ noticesOfWord word, notice.severity = .warning

namespace Word

section Integer

variable {word : List Char} {s : Scalar}

theorem ofWord_of_isInteger (hform : isInteger word = true) (h : integer word = .ok s) :
    Scalar.ofWord word = s := by
  rw [Scalar.ofWord, number?, if_pos hform, h]
  rfl

theorem noticesOfWord_of_isInteger (hform : isInteger word = true) :
    Scalar.noticesOfWord word = integerNotices word := by
  rw [Scalar.noticesOfWord, if_pos hform]

/-- The narrow kind is tried first, and the wide kind takes what it leaves. -/
theorem integer_of_mem (h : word ∈ Pattern.integer.matches') : integer word =
    .ok (((int64? (intOf word)).map .integer).getD (.bigInteger (intOf word))) := by
  obtain ⟨negative, numeral, hnumeral, rfl⟩ := Pattern.mem_integer_iff.mp h
  rw [integer, narrowInteger?_of_numeral negative hnumeral,
    wideInteger_of_numeral negative hnumeral, intOf_withSign negative hnumeral]
  cases int64? (signed negative (Digits.value numeral)) <;> rfl

theorem readsInteger_of_mem (h : word ∈ Pattern.integer.matches') :
    Scalar.ReadsInteger word := by
  have hform : isInteger word = true := isInteger_iff.mpr h
  have hread := integer_of_mem h
  have hnotices := noticesOfWord_of_isInteger hform
  rw [integerNotices, hread] at hnotices
  constructor
  case narrow =>
    intro hlow hhigh
    obtain ⟨value, hvalue, hint⟩ := int64?_of_mem hlow hhigh
    rw [hint] at hread hnotices
    exact ⟨⟨value, hvalue, ofWord_of_isInteger hform hread⟩, hnotices⟩
  case wide =>
    intro hbeyond
    rw [int64?_of_not_mem hbeyond] at hread hnotices
    exact ⟨ofWord_of_isInteger hform hread, hnotices⟩
  case severity =>
    intro notice hnotice
    rw [hnotices] at hnotice
    cases hint : int64? (intOf word) with
    | some value =>
      rw [hint] at hnotice
      cases hnotice
    | none =>
      rw [hint] at hnotice
      rw [List.mem_singleton.mp hnotice]
      rfl
  case read => exact ⟨_, hread⟩

end Integer

section Double

variable {word : List Char} {x : Binary64}

theorem ofWord_of_isDouble (hinteger : isInteger word = false) (hform : isDouble word = true)
    (h : Numeral.double word = .ok x) :
    Scalar.ofWord word = if x.isFinite then .double x else name word := by
  rw [Scalar.ofWord, number?, hinteger, hform, if_neg Bool.false_ne_true, if_pos rfl, double?, h]
  cases hx : x.isFinite <;> simp [hx]

theorem noticesOfWord_of_isDouble (hinteger : isInteger word = false)
    (hform : isDouble word = true) (h : Numeral.double word = .ok x) :
    Scalar.noticesOfWord word =
      if x.isFinite then [] else [.doubleOutOfRange (.ofList word) x] := by
  rw [Scalar.noticesOfWord, hinteger, hform, if_neg Bool.false_ne_true, if_pos rfl, doubleNotices,
    h]

theorem readsDouble_of_mem (h : word ∈ Pattern.double.matches') :
    ∃ x, Scalar.ReadsDouble word x := by
  have hform : isDouble word = true := isDouble_iff.mpr h
  obtain ⟨negative, whole, fraction, hwhole, hfraction, rfl⟩ := Pattern.mem_double_iff.mp h
  have hinteger := @isInteger_of_point negative whole fraction hwhole
  have hread := double_decimal negative hwhole hfraction
  have hrounded := Binary64.roundedTo_ofDecimal negative (Digits.value (whole ++ fraction))
    (-fraction.length)
  have hsign := isNegative_withSign negative ('.' :: fraction) hwhole
  have hpoint : '.' ∈ withSign negative (whole ++ '.' :: fraction) := by
    unfold withSign
    split <;> simp
  have hvalue := ofWord_of_isDouble hinteger hform hread
  have hnotices := noticesOfWord_of_isDouble hinteger hform hread
  rw [← ratOf_decimal negative hwhole hfraction] at hrounded
  refine ⟨_, hread, by rwa [hsign], ?_, ?_, ?_⟩
  · intro hx
    rw [hvalue, hnotices, hx]
    exact ⟨rfl, rfl⟩
  · intro hx
    rw [hvalue, hnotices, hx, name_of_point hpoint]
    exact ⟨rfl, rfl⟩
  · intro notice hnotice
    rw [hnotices] at hnotice
    split at hnotice
    · cases hnotice
    · rw [List.mem_singleton.mp hnotice]
      rfl

end Double

end Word

/-- A word that matches the pattern of integers is the integer it denotes, and one that matches the
pattern of doubles is what its value is rounded to, or the word itself where that is infinite. -/
theorem ofWord_number (word : List Char) :
    (word ∈ Pattern.integer.matches' → Scalar.ReadsInteger word) ∧
      (word ∈ Pattern.double.matches' → ∃ x, Scalar.ReadsDouble word x) :=
  ⟨Word.readsInteger_of_mem, Word.readsDouble_of_mem⟩

def belowRange : List Char := "-009223372036854775809".toList

def minusZero : List Char := "-0.0".toList

theorem ofWord_number_belowRange_minusZero :
    belowRange ∈ Pattern.integer.matches' ∧ minusZero ∈ Pattern.double.matches' ∧
      Scalar.ofWord belowRange = .bigInteger (-9223372036854775809) ∧
      Scalar.noticesOfWord belowRange = [.wideInteger "-009223372036854775809"] ∧
      Scalar.ReadsDouble minusZero (.zero true) ∧ Scalar.ofWord minusZero = .double (.zero true) := by
  have hinteger : belowRange ∈ Pattern.integer.matches' := Word.isInteger_iff.mp (by decide)
  have hdouble : minusZero ∈ Pattern.double.matches' := Word.isDouble_iff.mp (by decide)
  have hvalue : intOf belowRange = -9223372036854775809 := by decide
  obtain ⟨hword, hnotices⟩ := ((ofWord_number belowRange).1 hinteger).wide (by rw [hvalue]; decide)
  obtain ⟨x, hx⟩ := (ofWord_number minusZero).2 hdouble
  have hzero : Numeral.double minusZero = .ok (.zero true) := by decide +kernel
  obtain rfl : .zero true = x := Except.ok.inj (hzero.symm.trans hx.read)
  rw [hvalue] at hword
  exact ⟨hinteger, hdouble, hword, hnotices, hx, (hx.finite rfl).1⟩

end LenientJson
