import LenientJson.Number.Layout
import LenientJson.Number.Reading
import LenientJson.Proofs.Number.ShortestDecimal
import Mathlib.Data.List.TakeWhile

/-!
# The plain text of a number reads back

The plain layout writes two numerals with a point between them. Trailing zeros of the fraction do
not change the number they denote, so reading the two numerals gives the decimal that was laid
out, and with the shortest decimal of a finite number the number itself.
-/
namespace LenientJson

namespace Digits

theorem value_append (a b : List Char) :
    value (a ++ b) = value a * 10 ^ b.length + value b := by
  induction b using List.reverseRecOn with
  | nil => simp [value]
  | append_singleton b c ih =>
    rw [← List.append_assoc, value_concat, ih, value_concat, List.length_append,
      List.length_singleton, pow_succ]
    ring

theorem value_replicate_zero (k : Nat) : value (List.replicate k '0') = 0 := by
  induction k with
  | zero => rfl
  | succ k ih =>
    rw [List.replicate_succ', value_concat, ih]
    rfl

theorem isNumeral_iff {cs : List Char} :
    isNumeral cs = true ↔ cs ≠ [] ∧ ∀ c ∈ cs, c.isDigit = true := by
  simp [isNumeral]

/-- A numeral begins with no character but a digit. -/
theorem head?_ne_of_isNumeral {numeral : List Char} (h : isNumeral numeral = true) {c : Char}
    (hc : c.isDigit = false) : numeral.head? ≠ some c := by
  intro hhead
  have hmem : c ∈ numeral := List.mem_of_mem_head? hhead
  rw [(isNumeral_iff.mp h).2 c hmem] at hc
  cases hc

theorem isDigit_of_mem_ofNat {n : Nat} {c : Char} (h : c ∈ ofNat n) : c.isDigit = true :=
  (isNumeral_iff.mp (isNumeral_ofNat n)).2 c h

theorem isDigit_of_mem_padded {width n : Nat} {c : Char} (h : c ∈ padded width n) :
    c.isDigit = true := by
  rcases List.mem_append.mp h with h | h
  · rw [List.eq_of_mem_replicate h]
    rfl
  · exact isDigit_of_mem_ofNat h

theorem value_padded (width n : Nat) : value (padded width n) = n := by
  rw [padded, value_append, value_replicate_zero, value_ofNat, Nat.zero_mul, Nat.zero_add]

theorem length_padded {width n : Nat} (hw : 0 < width) (hn : n < 10 ^ width) :
    (padded width n).length = width := by
  have hle : (ofNat n).length ≤ width :=
    (Nat.length_toDigits_le_iff (by decide) hw).mpr hn
  rw [padded, List.length_append, List.length_replicate]
  omega

end Digits

namespace Decimal
open Digits

theorem trimFraction_append (fraction : List Char) :
    ∃ k, trimFraction fraction ++ List.replicate k '0' = fraction := by
  cases fraction with
  | nil => exact ⟨0, rfl⟩
  | cons first rest =>
    refine ⟨(rest.reverse.takeWhile (· == '0')).length, ?_⟩
    have hzeros : rest.reverse.takeWhile (· == '0') =
        List.replicate (rest.reverse.takeWhile (· == '0')).length '0' :=
      List.eq_replicate_of_mem fun c hc => by simpa using List.mem_takeWhile_imp hc
    have hsplit := congrArg List.reverse
      (List.takeWhile_append_dropWhile (p := (· == '0')) (l := rest.reverse))
    rw [List.reverse_append, List.reverse_reverse, hzeros, List.reverse_replicate] at hsplit
    simpa [trimFraction] using hsplit

theorem isNumeral_trimFraction {fraction : List Char} (h : isNumeral fraction = true) :
    isNumeral (trimFraction fraction) = true := by
  obtain ⟨k, hk⟩ := trimFraction_append fraction
  rw [isNumeral_iff] at h ⊢
  refine ⟨?_, fun c hc => h.2 c ?_⟩
  · cases fraction with
    | nil => exact absurd rfl h.1
    | cons first rest => simp [trimFraction]
  · rw [← hk]
    exact List.mem_append_left _ hc

/-- A text of two numerals with a point between them that denotes the decimal `d`: the digits,
brought to `n` places, are those of `d`. -/
structure Denotes (text : List Char) (d : Decimal) (whole fraction : List Char) (n : Nat) :
    Prop where
  text_eq : text = whole ++ '.' :: fraction
  isNumeral_whole : isNumeral whole = true
  isNumeral_fraction : isNumeral fraction = true
  clears : 0 ≤ d.exponent + n
  places : fraction.length ≤ n
  value : value (whole ++ fraction) * 10 ^ (n - fraction.length) =
    d.coefficient * 10 ^ (d.exponent + n).toNat

theorem denotes_plain_ofNat (c e : Nat) :
    Denotes (plain ⟨c, .ofNat e⟩) ⟨c, .ofNat e⟩ (Digits.ofNat (c * 10 ^ e)) ['0'] 1 where
  text_eq := rfl
  isNumeral_whole := isNumeral_ofNat _
  isNumeral_fraction := rfl
  clears := Int.natCast_nonneg (e + 1)
  places := le_rfl
  value := by
    have hn : (Int.ofNat e + (1 : Nat)).toNat = e + 1 := Int.toNat_natCast (e + 1)
    rw [hn, value_concat, value_ofNat, pow_succ]
    simp [digitValue]
    ring

/-- The zeros that are dropped are as many as the places that are left open. -/
theorem denotes_plain_negSucc (c e : Nat) :
    Denotes (plain ⟨c, .negSucc e⟩) ⟨c, .negSucc e⟩ (Digits.ofNat (c / 10 ^ (e + 1)))
      (trimFraction (padded (e + 1) (c % 10 ^ (e + 1)))) (e + 1) := by
  have hunit : 0 < 10 ^ (e + 1) := Nat.pow_pos (by decide)
  have hlength : (padded (e + 1) (c % 10 ^ (e + 1))).length = e + 1 :=
    length_padded (Nat.succ_pos e) (Nat.mod_lt c hunit)
  have hpadded : isNumeral (padded (e + 1) (c % 10 ^ (e + 1))) = true := by
    rw [isNumeral_iff, ← List.length_pos_iff, hlength]
    exact ⟨Nat.succ_pos e, fun c hc => isDigit_of_mem_padded hc⟩
  obtain ⟨k, hk⟩ := trimFraction_append (padded (e + 1) (c % 10 ^ (e + 1)))
  have hzeros := congrArg List.length hk
  rw [List.length_append, List.length_replicate, hlength] at hzeros
  constructor
  case text_eq => rfl
  case isNumeral_whole => exact isNumeral_ofNat _
  case isNumeral_fraction => exact isNumeral_trimFraction hpadded
  case clears =>
    have hsum : Int.negSucc e + ((e + 1 : Nat) : Int) = 0 := by omega
    exact hsum.ge
  case places => omega
  case value =>
    have hn : (Int.negSucc e + ((e + 1 : Nat) : Int)).toNat = 0 := by omega
    have hopen : e + 1 - (trimFraction (padded (e + 1) (c % 10 ^ (e + 1)))).length = k := by omega
    have hvalue := congrArg (fun fraction => value (Digits.ofNat (c / 10 ^ (e + 1)) ++ fraction)) hk
    simp only [← List.append_assoc] at hvalue
    rw [value_append, value_replicate_zero, List.length_replicate, Nat.add_zero] at hvalue
    rw [hn, hopen, hvalue, value_append, value_ofNat, value_padded, hlength, Nat.div_add_mod']
    simp

theorem exists_denotes_plain (d : Decimal) :
    ∃ whole fraction n, Denotes d.plain d whole fraction n := by
  obtain ⟨c, e⟩ := d
  cases e with
  | ofNat e => exact ⟨_, _, _, denotes_plain_ofNat c e⟩
  | negSucc e => exact ⟨_, _, _, denotes_plain_negSucc c e⟩

end Decimal

section Mark

variable {p : Char → Bool} {front : List Char} (mark : Char)

/-- A front that passes a test ends at a mark that fails it. -/
theorem takeWhile_mark (h : ∀ c ∈ front, p c = true) (hmark : p mark = false)
    (behind : List Char) : (front ++ mark :: behind).takeWhile p = front := by
  rw [List.takeWhile_append_of_pos h, List.takeWhile_cons_of_neg (by simp [hmark]),
    List.append_nil]

theorem dropWhile_mark (h : ∀ c ∈ front, p c = true) (hmark : p mark = false)
    (behind : List Char) : (front ++ mark :: behind).dropWhile p = mark :: behind := by
  rw [List.dropWhile_append_of_pos h, List.dropWhile_cons_of_neg (by simp [hmark])]

end Mark

namespace Numeral
open Digits

/-- Two numerals with a point between them are a decimal without an exponent. -/
theorem decimal?_numerals {whole fraction : List Char} (hw : isNumeral whole = true)
    (hf : isNumeral fraction = true) : decimal? (whole ++ '.' :: fraction) =
      some ⟨value (whole ++ fraction), -fraction.length⟩ := by
  rw [isNumeral_iff] at hw hf
  have htake := takeWhile_mark '.' hw.2 rfl fraction
  have hdrop := dropWhile_mark '.' hw.2 rfl fraction
  have htake' : fraction.takeWhile Char.isDigit = fraction := List.takeWhile_eq_self_iff.mpr hf.2
  have hdrop' : fraction.dropWhile Char.isDigit = [] := List.dropWhile_eq_nil_iff.mpr hf.2
  simp [decimal?, htake, hdrop, htake', hdrop', hw.1, exponent?, cutExponent_zero]

theorem splitSign_of_isNumeral {whole : List Char} (rest : List Char)
    (hw : isNumeral whole = true) : splitSign (whole ++ rest) = (false, whole ++ rest) := by
  cases whole with
  | nil => simp [isNumeral] at hw
  | cons c more =>
    have hminus : c ≠ '-' := fun hc => head?_ne_of_isNumeral hw rfl (congrArg some hc)
    have hplus : c ≠ '+' := fun hc => head?_ne_of_isNumeral hw rfl (congrArg some hc)
    rw [List.cons_append, splitSign.eq_3] <;> simp [hminus, hplus]

abbrev withSign (negative : Bool) (size : List Char) : List Char :=
  if negative then '-' :: size else size

section Sign

variable (negative : Bool) {whole fraction : List Char}

theorem splitSign_withSign (rest : List Char) (h : isNumeral whole = true) :
    splitSign (withSign negative (whole ++ rest)) = (negative, whole ++ rest) := by
  cases negative with
  | true => rfl
  | false => exact splitSign_of_isNumeral rest h

/-- Two numerals with a point between them are read as the double nearest to what they denote. -/
theorem double_decimal (hwhole : isNumeral whole = true) (hfraction : isNumeral fraction = true) :
    double (withSign negative (whole ++ '.' :: fraction)) =
      .ok (.ofDecimal negative (value (whole ++ fraction)) (-fraction.length)) := by
  simp only [double, splitSign_withSign negative _ hwhole, decimal?_numerals hwhole hfraction]

end Sign

/-- The plain text of a decimal is read as the number nearest to it. -/
theorem double_plain (negative : Bool) (d : Decimal) :
    double (if negative then '-' :: d.plain else d.plain) =
      .ok (.ofDecimal negative d.coefficient d.exponent) := by
  obtain ⟨whole, fraction, n, h⟩ := d.exists_denotes_plain
  have hread := double_decimal negative h.isNumeral_whole h.isNumeral_fraction
  rw [← h.text_eq] at hread
  have hplaces := h.places
  have hsame : Binary64.ofDecimal negative (value (whole ++ fraction)) (-fraction.length) =
      .ofDecimal negative d.coefficient d.exponent := by
    apply Binary64.ofDecimal_congr negative (n := n) (by omega) h.clears
    have hn : (-(fraction.length : Int) + n).toNat = n - fraction.length := by omega
    rw [hn]
    exact h.value
  exact hread.trans (congrArg Except.ok hsame)

end Numeral

end LenientJson
