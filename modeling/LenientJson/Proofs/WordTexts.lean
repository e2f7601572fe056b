import LenientJson.Proofs.ParsedValues
import LenientJson.Proofs.PlainDoubles

/-!
# Words and the texts of scalars

A scalar that a word can stand for is what its text stands for, and so the text of what a word
stands for does not stand for anything else. It does not matter how a double is written, as long as
its raw text is read back.
-/
namespace LenientJson

/-- Every finite number but zero has a raw text, which is read as the number. -/
structure Expansion.ReadBack (raw : Binary64 → List Char) : Prop where
  form : ∀ x : Binary64, x.isFinite = true → x.toRat ≠ 0 → RawForm (raw x)
  read : ∀ x : Binary64, x.isFinite = true → x.toRat ≠ 0 → Numeral.double (raw x) = .ok x

namespace Scalar

def textFrom? (raw : Binary64 → List Char) : Scalar → Option (List Char)
  | .double x => x.plainFrom? raw
  | s => some s.text

/-- What is written stands for what it was written from. -/
structure Reinfers (write : Scalar → Option (List Char)) : Prop where
  scalars : ∀ s : Scalar, s.isString = false → s.Proper →
    ∃ text, write s = some text ∧ ofWord text = s
  words : ∀ word, ∃ text, write (ofWord word) = some text ∧ ofWord text = ofWord word

end Scalar

theorem Binary64.exists_of_isFinite {x : Binary64} (hx : x.isFinite = true) :
    ∃ negative rank lt, x = .finite negative rank lt := by
  cases x with
  | nan => cases hx
  | infinite negative => cases hx
  | finite negative rank lt => exact ⟨negative, rank, lt, rfl⟩

namespace Word

variable {word : List Char}

theorem isString_of_integer {s : Scalar} (h : integer word = .ok s) : s.isString = false := by
  unfold integer at h
  split at h
  next value hnarrow =>
    rw [← Except.ok.inj h]
    rfl
  next hnarrow =>
    cases hwide : Numeral.wideInteger word with
    | ok n =>
      rw [hwide] at h
      rw [← Except.ok.inj h]
      rfl
    | error fault =>
      rw [hwide] at h
      cases h

theorem isString_of_double? {s : Scalar} (h : double? word = some s) : s.isString = false := by
  unfold double? at h
  split at h
  next value hread =>
    by_cases hfinite : value.isFinite = true
    · rw [if_pos hfinite] at h
      rw [← Option.some.inj h]
      rfl
    · simp [hfinite] at h
  next fault hread => cases h

theorem isString_of_number? {s : Scalar} (h : number? word = some s) : s.isString = false := by
  unfold number? at h
  by_cases hinteger : isInteger word = true
  · rw [if_pos hinteger] at h
    apply isString_of_integer
    cases hread : integer word with
    | ok t =>
      rw [hread] at h
      rw [Option.some.inj h]
    | error fault =>
      rw [hread] at h
      cases h
  · rw [if_neg hinteger] at h
    by_cases hdouble : isDouble word = true
    · rw [if_pos hdouble] at h
      exact isString_of_double? h
    · simp [hdouble] at h

/-- A word that is neither a number nor a name is kept as it is. -/
theorem toList_of_ofWord {text : String} (h : Scalar.ofWord word = .string text) :
    text.toList = word := by
  rw [Scalar.ofWord] at h
  cases hnumber : number? word with
  | some s =>
    rw [hnumber, Option.getD_some] at h
    have hstring := isString_of_number? hnumber
    rw [h] at hstring
    cases hstring
  | none =>
    rw [hnumber, Option.getD_none, name] at h
    split at h
    · cases h
    · split at h
      · cases h
      · rw [← Scalar.string.inj h, String.toList_ofList]

end Word

namespace Scalar

/-- A word stands for itself or for a scalar that a word can stand for. -/
theorem reinfers_of_scalars {write : Scalar → Option (List Char)}
    (hstring : ∀ text, write (.string text) = some text.toList)
    (hscalars : ∀ s : Scalar, s.isString = false → s.Proper →
      ∃ text, write s = some text ∧ ofWord text = s) : Reinfers write where
  scalars := hscalars
  words word := by
    cases hs : (ofWord word).isString with
    | true =>
      obtain ⟨text, htext⟩ := exists_of_isString hs
      refine ⟨text.toList, ?_, ?_⟩
      · rw [htext, hstring]
      · rw [Word.toList_of_ofWord htext]
    | false => exact hscalars (ofWord word) hs (proper_of_normal (normal_ofWord word))

theorem ofWord_text_of_proper {s : Scalar} (hs : s.isString = false) (h : s.Proper) :
    ofWord s.text = s := by
  rw [ofWord_text hs, normal_of_proper h]

/-- A finite number is written by way of its raw text, and zero without one. -/
theorem exists_plainFrom? {raw : Binary64 → List Char} (h : Expansion.ReadBack raw) {x : Binary64}
    (hx : x.isFinite = true) : ∃ text, x.plainFrom? raw = some text ∧ ofWord text = .double x := by
  by_cases hzero : x.toRat = 0
  · obtain ⟨negative, rank, lt, rfl⟩ := Binary64.exists_of_isFinite hx
    obtain rfl : rank = 0 := Binary64.toRat_eq_zero_iff.mp hzero
    refine ⟨(Binary64.finite negative 0 lt).plain, ?_, ?_⟩
    · cases negative <;> rfl
    · exact @ofWord_text (.double (.finite negative 0 lt)) rfl
  · obtain ⟨whole, fraction, hparts⟩ := (h.form x hx hzero).exists_plainParts
    have hplain := hparts.plainTextOf (h.form x hx hzero)
    obtain ⟨y, hy⟩ := hplain.inferred
    have hread := hplain.read.trans (h.read x hx hzero)
    obtain rfl : y = x := Except.ok.inj (hy.read.symm.trans hread)
    refine ⟨_, ?_, (hy.finite hx).1⟩
    rw [Expansion.plainFrom?_of_toRat_ne_zero raw hx hzero, hparts.text]

theorem exists_textFrom? {raw : Binary64 → List Char} (h : Expansion.ReadBack raw) {s : Scalar}
    (hs : s.isString = false) (hproper : s.Proper) :
    ∃ text, s.textFrom? raw = some text ∧ ofWord text = s := by
  cases s with
  | double x => exact exists_plainFrom? h (hproper.finite x rfl)
  | _ => exact ⟨_, rfl, ofWord_text_of_proper hs hproper⟩

end Scalar

/-- The text of a scalar that is no string stands for the scalar, if a word can, and the text of
what a word stands for stands for the same, whichever raw texts doubles are written from. -/
theorem reinfers_text :
    Scalar.Reinfers (fun s => some s.text) ∧
      ∀ raw, Expansion.ReadBack raw → Scalar.Reinfers (Scalar.textFrom? raw) := by
  constructor
  · apply Scalar.reinfers_of_scalars
    · intro text
      rfl
    · intro s hs hproper
      exact ⟨s.text, rfl, Scalar.ofWord_text_of_proper hs hproper⟩
  · intro raw h
    apply Scalar.reinfers_of_scalars
    · intro text
      rfl
    · intro s hs hproper
      exact Scalar.exists_textFrom? h hs hproper

namespace Expansion

/-- The plain text is a raw text of its own. -/
theorem readBack_plain : ReadBack Binary64.plain where
  form x hx _ := by
    obtain ⟨negative, rank, lt, rfl⟩ := Binary64.exists_of_isFinite hx
    obtain ⟨whole, fraction, n, hd⟩ := (Shortest.ofRank rank).exists_denotes_plain
    apply RawForm.positional
    apply Pattern.mem_double_iff.mpr
    refine ⟨negative, whole, fraction, hd.isNumeral_whole, hd.isNumeral_fraction, ?_⟩
    rw [← hd.text_eq]
    rfl
  read x hx _ := by
    obtain ⟨negative, rank, lt, rfl⟩ := Binary64.exists_of_isFinite hx
    have hread := Numeral.double_plain negative (Shortest.ofRank rank)
    rw [Shortest.ofDecimal_ofRank negative lt] at hread
    exact hread

end Expansion

def tenMillionth : Binary64 := .finite false 4502148214488346440 (by decide)

theorem reinfers_text_tenMillionth :
    ∃ raw, Expansion.ReadBack raw ∧ raw tenMillionth = "1e-7".toList ∧
      Scalar.textFrom? raw (.double tenMillionth) = some "0.0000001".toList ∧
      Scalar.ofWord "0.0000001".toList = .double tenMillionth := by
  have hscientific : "1e-7".toList ∈ Pattern.scientific.matches' :=
    Pattern.mem_scientific_iff.mpr ⟨false, _, "-7".toList, @Pattern.Mantissa.whole ['1'] rfl,
      Word.isInteger_iff.mp (by decide), rfl⟩
  have hread : Numeral.double "1e-7".toList = .ok tenMillionth := by decide +kernel
  let raw (x : Binary64) : List Char := if x = tenMillionth then "1e-7".toList else x.plain
  have h : Expansion.ReadBack raw := by
    constructor
    case form =>
      intro x hx hzero
      by_cases hten : x = tenMillionth
      · simp only [raw, if_pos hten]
        exact .scientific hscientific (by decide) (by decide) (by decide)
      · simp only [raw, if_neg hten]
        exact Expansion.readBack_plain.form x hx hzero
    case read =>
      intro x hx hzero
      by_cases hten : x = tenMillionth
      · simp only [raw, if_pos hten]
        rw [hread, hten]
      · simp only [raw, if_neg hten]
        exact Expansion.readBack_plain.read x hx hzero
  have hproper : (Scalar.double tenMillionth).Proper := Scalar.proper_of_normal rfl
  obtain ⟨text, htext, hword⟩ :=
    (reinfers_text.2 raw h).scalars (.double tenMillionth) rfl hproper
  obtain rfl : "0.0000001".toList = text := Option.some.inj htext
  exact ⟨raw, h, if_pos rfl, htext, hword⟩

end LenientJson
