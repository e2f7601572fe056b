import LenientJson.Proofs.Number.Trimming

/-!
# One plain text for each number

Two numerals with a point between them are known from the rational that they denote, if the whole
part is not padded and the fraction is trimmed: brought to the same places on both sides they have
the same digits, and the zeros that were added come off again. The plain layout of a decimal
has such numerals.
-/
namespace LenientJson

namespace Digits

theorem digitValue_lt {c : Char} (h : c.isDigit = true) : digitValue c < 10 := by
  obtain ⟨hlow, hhigh⟩ := Char.isDigit_iff_toNat.mp h
  have hhigh' : c.toNat ≤ 57 := hhigh
  have hzero : '0'.toNat = 48 := rfl
  rw [digitValue, hzero]
  omega

theorem digitValue_inj {c d : Char} (hc : c.isDigit = true) (hd : d.isDigit = true)
    (h : digitValue c = digitValue d) : c = d := by
  obtain ⟨hc', -⟩ := Char.isDigit_iff_toNat.mp hc
  obtain ⟨hd', -⟩ := Char.isDigit_iff_toNat.mp hd
  rw [digitValue, digitValue] at h
  apply Char.toNat_inj.mp
  omega

/-- Digits of one length are told apart by their value. -/
theorem eq_of_value_eq {a b : List Char} (ha : ∀ c ∈ a, c.isDigit = true)
    (hb : ∀ c ∈ b, c.isDigit = true) (hlength : a.length = b.length) (h : value a = value b) :
    a = b := by
  induction a using List.reverseRecOn generalizing b with
  | nil => exact (List.eq_nil_of_length_eq_zero hlength.symm).symm
  | append_singleton a c ih =>
    obtain rfl | ⟨b, d, rfl⟩ := List.eq_nil_or_concat' b
    · simp at hlength
    · rw [List.length_append, List.length_append] at hlength
      rw [value_concat, value_concat] at h
      have hc := ha c (by simp)
      have hd := hb d (by simp)
      have hclt := digitValue_lt hc
      have hdlt := digitValue_lt hd
      have hlast : c = d := digitValue_inj hc hd (by omega)
      have hfront : a = b := by
        apply ih (fun x hx => ha x (List.mem_append_left _ hx))
          (fun x hx => hb x (List.mem_append_left _ hx)) (by simpa using hlength)
        omega
      rw [hlast, hfront]

theorem head?_ofNat {n : Nat} (h : n ≠ 0) : (ofNat n).head? ≠ some '0' := by
  induction n using Nat.strongRecOn with
  | ind n ih =>
    rw [ofNat, Nat.toDigits_eq_if (by omega)]
    split
    next hn =>
      intro hhead
      have hdigit : Nat.digitChar n = '0' := by simpa using hhead
      have hvalue := digitValue_digitChar hn
      rw [hdigit] at hvalue
      exact h hvalue.symm
    next hn =>
      rw [List.head?_append_of_ne_nil _ Nat.toDigits_ne_nil]
      exact ih (n / 10) (by omega) (by omega)

theorem unpadded_ofNat (n : Nat) : Unpadded (ofNat n) := by
  by_cases h : n = 0
  · subst h
    exact unpadded_singleton '0'
  · exact unpadded_of_head?_ne (isNumeral_iff.mp (isNumeral_ofNat n)).1 (head?_ofNat h)

end Digits

section Zeros

open Digits Decimal

variable {whole fraction : List Char}

/-- Zeros behind a trimmed fraction are trimmed again. -/
theorem Trimmed.trimFraction_append (h : Trimmed fraction) (k : Nat) :
    trimFraction (fraction ++ List.replicate k '0') = fraction := by
  obtain ⟨first, rest, rfl, hlast⟩ := h
  have hzeros : ∀ c ∈ List.replicate k '0', (c == '0') = true := by
    intro c hc
    rw [List.eq_of_mem_replicate hc]
    rfl
  have hrest : rest.reverse.dropWhile (· == '0') = rest.reverse := by
    rw [← List.head?_reverse] at hlast
    cases hreverse : rest.reverse with
    | nil => rfl
    | cons c more =>
      rw [hreverse] at hlast
      exact List.dropWhile_cons_of_neg (by simpa using hlast)
  rw [List.cons_append, trimFraction, List.reverse_append, List.reverse_replicate,
    List.dropWhile_append_of_pos hzeros, hrest, List.reverse_reverse]

/-- Zeros in front of an unpadded whole part come off in the same way. -/
theorem Unpadded.trimFraction_reverse (h : Unpadded whole) (k : Nat) :
    (trimFraction (List.replicate k '0' ++ whole).reverse).reverse = whole := by
  rw [List.reverse_append, List.reverse_replicate, Trimmed.trimFraction_append h,
    List.reverse_reverse]

end Zeros

section Spread

open Digits

def spread (before behind : Nat) (whole fraction : List Char) : List Char :=
  (List.replicate before '0' ++ whole) ++ (fraction ++ List.replicate behind '0')

variable (before behind : Nat) {whole fraction : List Char}

theorem value_spread :
    value (spread before behind whole fraction) = value (whole ++ fraction) * 10 ^ behind := by
  rw [spread, List.append_assoc, ← List.append_assoc whole, value_append, value_replicate_zero,
    Nat.zero_mul, Nat.zero_add, value_append _ (List.replicate behind '0'), value_replicate_zero,
    List.length_replicate, Nat.add_zero]

theorem isDigit_of_mem_spread (hwhole : isNumeral whole = true)
    (hfraction : isNumeral fraction = true) :
    ∀ c ∈ spread before behind whole fraction, c.isDigit = true := by
  have hzeros (k : Nat) : ∀ c ∈ List.replicate k '0', c.isDigit = true := by
    intro c hc
    rw [List.eq_of_mem_replicate hc]
    rfl
  intro c hc
  rcases List.mem_append.mp hc with hc | hc
  · exact (List.mem_append.mp hc).elim (hzeros before c) ((isNumeral_iff.mp hwhole).2 c)
  · exact (List.mem_append.mp hc).elim ((isNumeral_iff.mp hfraction).2 c) (hzeros behind c)

/-- The two numerals of a plain text in its one spelling. -/
structure Spelled (whole fraction : List Char) : Prop where
  isNumeral_whole : isNumeral whole = true
  isNumeral_fraction : isNumeral fraction = true
  unpadded : Unpadded whole
  trimmed : Trimmed fraction

/-- Two plain texts of one value are the same text. -/
theorem Spelled.unique {whole' fraction' : List Char} (h : Spelled whole fraction)
    (h' : Spelled whole' fraction') (hvalue : Numeral.mantissaRat (whole ++ '.' :: fraction) =
      Numeral.mantissaRat (whole' ++ '.' :: fraction')) :
    whole = whole' ∧ fraction = fraction' := by
  rw [Numeral.mantissaRat_point h.isNumeral_whole, Numeral.mantissaRat_point h'.isNumeral_whole,
    zpow_neg, zpow_neg, zpow_natCast, zpow_natCast, ← div_eq_mul_inv, ← div_eq_mul_inv,
    div_eq_div_iff (by positivity) (by positivity)] at hvalue
  have hspread : spread whole'.length fraction'.length whole fraction =
      spread whole.length fraction.length whole' fraction' := by
    apply eq_of_value_eq
    · exact isDigit_of_mem_spread _ _ h.isNumeral_whole h.isNumeral_fraction
    · exact isDigit_of_mem_spread _ _ h'.isNumeral_whole h'.isNumeral_fraction
    · simp only [spread, List.length_append, List.length_replicate]
      omega
    · rw [value_spread, value_spread]
      exact_mod_cast hvalue
  have hlength : (List.replicate whole'.length '0' ++ whole).length =
      (List.replicate whole.length '0' ++ whole').length := by
    simp only [List.length_append, List.length_replicate]
    omega
  obtain ⟨hfront, hback⟩ := List.append_inj hspread hlength
  constructor
  · rw [← h.unpadded.trimFraction_reverse whole'.length, hfront,
      h'.unpadded.trimFraction_reverse]
  · rw [← h.trimmed.trimFraction_append fraction'.length, hback, h'.trimmed.trimFraction_append]

end Spread

section Layout

open Digits Decimal

theorem Decimal.Denotes.mantissaRat {text : List Char} {d : Decimal} {whole fraction : List Char}
    {n : Nat} (h : Denotes text d whole fraction n) :
    Numeral.mantissaRat (whole ++ '.' :: fraction) = d.coefficient * 10 ^ d.exponent := by
  have hplaces : ((n - fraction.length : Nat) : ℤ) = -fraction.length + n := by
    have hplaces := h.places
    omega
  have hclears : ((d.exponent + n).toNat : ℤ) = d.exponent + n := Int.toNat_of_nonneg h.clears
  have hvalue : (Digits.value (whole ++ fraction) : ℚ) * 10 ^ ((n - fraction.length : Nat) : ℤ) =
      d.coefficient * 10 ^ ((d.exponent + n).toNat : ℤ) := by
    rw [zpow_natCast, zpow_natCast]
    exact_mod_cast h.value
  rw [hplaces, hclears, zpow_add₀ (by norm_num), zpow_add₀ (by norm_num), ← mul_assoc,
    ← mul_assoc] at hvalue
  rw [Numeral.mantissaRat_point h.isNumeral_whole]
  exact mul_right_cancel₀ (zpow_ne_zero n (by norm_num)) hvalue

/-- The plain layout of a decimal has this spelling. -/
theorem exists_spelled_plain (d : Decimal) : ∃ whole fraction,
    d.plain = whole ++ '.' :: fraction ∧ Spelled whole fraction ∧
      Numeral.mantissaRat (whole ++ '.' :: fraction) = d.coefficient * 10 ^ d.exponent := by
  obtain ⟨c, e⟩ := d
  cases e with
  | ofNat e =>
    have hdenotes := denotes_plain_ofNat c e
    exact ⟨_, _, hdenotes.text_eq, ⟨hdenotes.isNumeral_whole, hdenotes.isNumeral_fraction,
      unpadded_ofNat _, trimmed_singleton '0'⟩, hdenotes.mantissaRat⟩
  | negSucc e =>
    have hdenotes := denotes_plain_negSucc c e
    have hne : padded (e + 1) (c % 10 ^ (e + 1)) ≠ [] :=
      List.append_ne_nil_of_right_ne_nil _ Nat.toDigits_ne_nil
    exact ⟨_, _, hdenotes.text_eq, ⟨hdenotes.isNumeral_whole, hdenotes.isNumeral_fraction,
      unpadded_ofNat _, Expansion.trimmed_trimFraction hne⟩, hdenotes.mantissaRat⟩

end Layout

end LenientJson
