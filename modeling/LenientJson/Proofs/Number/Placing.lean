import LenientJson.Proofs.Number.Trimming

/-!
# Placing the point

The point is moved by the exponent over the digits of a mantissa, and zeros are written where it
leaves them on either side. Each of the three places that it can have denotes the digits times the
same power of ten. No step of the arithmetic fails while the point is a 32-bit integer.
-/
namespace LenientJson.Expansion
open Digits Numeral Pattern

section Cuts

variable {front : List Char} (mark : Char)

theorem splitOnce?_mark (h : ∀ c ∈ front, (c != mark) = true) (behind : List Char) :
    splitOnce? mark (front ++ mark :: behind) = some (front, behind) := by
  rw [splitOnce?, dropWhile_mark mark h (by simp), takeWhile_mark mark h (by simp)]

theorem splitOnce?_of_ne (h : ∀ c ∈ front, (c != mark) = true) : splitOnce? mark front = none := by
  rw [splitOnce?, List.dropWhile_eq_nil_iff.mpr h]

theorem int32?_of_mem {n : Int} (hlow : -2 ^ 31 ≤ n) (hhigh : n ≤ 2 ^ 31 - 1) :
    ∃ value : Int32, value.toInt = n ∧ int32? n = some value :=
  ⟨.ofInt n, Int32.toInt_ofInt_of_le hlow (by omega), if_pos ⟨by omega, by omega⟩⟩

end Cuts

/-- A mantissa whose point stands behind so many digits of a numeral. -/
structure Placed (digits : List Char) (point : Int) (mantissa : List Char) : Prop where
  form : Mantissa mantissa
  value : mantissaRat mantissa = value digits * 10 ^ (point - digits.length)
  unpadded : digits.head? ≠ some '0' → Unpadded (mantissa.takeWhile (· != '.'))

section Places

variable {digits : List Char} {point : Int}

/-- Zeros and digits of a numeral make a numeral. -/
theorem isNumeral_of_mem {cs : List Char} (h : isNumeral digits = true) (hne : cs ≠ [])
    (hmem : ∀ c ∈ cs, c = '0' ∨ c ∈ digits) : isNumeral cs = true := by
  refine isNumeral_iff.mpr ⟨hne, fun c hc => ?_⟩
  rcases hmem c hc with rfl | hdigit
  · rfl
  · exact (isNumeral_iff.mp h).2 c hdigit

/-- Before the digits, the point has zeros behind it. -/
theorem placed_before (h : isNumeral digits = true) (hpoint : point ≤ 0) :
    Placed digits point ('0' :: '.' :: (List.replicate point.natAbs '0' ++ digits)) := by
  have hzero : isNumeral ['0'] = true := rfl
  have hfraction : isNumeral (List.replicate point.natAbs '0' ++ digits) = true := by
    refine isNumeral_of_mem h ?_ fun c hc => ?_
    · exact List.append_ne_nil_of_right_ne_nil _ (isNumeral_iff.mp h).1
    · exact (List.mem_append.mp hc).imp_left List.eq_of_mem_replicate
  constructor
  case form => exact .fraction hzero hfraction
  case value =>
    have hvalue : value (['0'] ++ (List.replicate point.natAbs '0' ++ digits)) = value digits := by
      rw [← List.append_assoc, value_append, ← List.replicate_one, List.replicate_append_replicate,
        value_replicate_zero, Nat.zero_mul, Nat.zero_add]
    have hplaces : -((List.replicate point.natAbs '0' ++ digits).length : ℤ) =
        point - digits.length := by
      rw [List.length_append, List.length_replicate]
      omega
    rw [← hvalue, ← hplaces]
    exact mantissaRat_point hzero
  case unpadded => exact fun _ => unpadded_singleton '0'

/-- Behind the digits, the point has zeros before it. -/
theorem placed_behind (h : isNumeral digits = true) (hpoint : digits.length ≤ point) :
    Placed digits point (digits ++ List.replicate (point.toNat - digits.length) '0') := by
  have hne := (isNumeral_iff.mp h).1
  have hwhole : isNumeral (digits ++ List.replicate (point.toNat - digits.length) '0') = true := by
    refine isNumeral_of_mem h (List.append_ne_nil_of_left_ne_nil hne _) fun c hc => ?_
    exact (List.mem_append.mp hc).symm.imp_left List.eq_of_mem_replicate
  constructor
  case form => exact .whole hwhole
  case value =>
    have hplaces : point - digits.length = (point.toNat - digits.length : Nat) := by omega
    rw [mantissaRat_numeral hwhole, value_append, value_replicate_zero, List.length_replicate,
      hplaces, zpow_natCast, Nat.add_zero]
    push_cast
    rfl
  case unpadded =>
    intro hhead
    rw [List.takeWhile_eq_self_iff.mpr (ne_of_isNumeral hwhole '.' rfl)]
    refine unpadded_of_head?_ne (List.append_ne_nil_of_left_ne_nil hne _) ?_
    rwa [List.head?_append_of_ne_nil _ hne]

/-- Among the digits, the point cuts them. -/
theorem placed_among (h : isNumeral digits = true) (hlow : 0 < point)
    (hhigh : point < digits.length) :
    Placed digits point (digits.take point.toNat ++ '.' :: digits.drop point.toNat) := by
  have hwhole : isNumeral (digits.take point.toNat) = true := by
    refine isNumeral_of_mem h ?_ fun c hc => .inr (List.mem_of_mem_take hc)
    exact List.ne_nil_of_length_pos (by rw [List.length_take]; omega)
  have hfraction : isNumeral (digits.drop point.toNat) = true := by
    refine isNumeral_of_mem h ?_ fun c hc => .inr (List.mem_of_mem_drop hc)
    exact List.ne_nil_of_length_pos (by rw [List.length_drop]; omega)
  constructor
  case form => exact .fraction hwhole hfraction
  case value =>
    have hplaces : -((digits.drop point.toNat).length : ℤ) = point - digits.length := by
      rw [List.length_drop]
      omega
    rw [mantissaRat_point hwhole, List.take_append_drop, hplaces]
  case unpadded =>
    intro hhead
    rw [takeWhile_mark '.' (ne_of_isNumeral hwhole '.' rfl) rfl]
    refine unpadded_of_head?_ne (isNumeral_iff.mp hwhole).1 ?_
    rwa [List.head?_take, if_neg (by omega)]

/-- Every place of the point has its text. -/
theorem exists_place (h : isNumeral digits = true) (point : Int32) :
    ∃ mantissa, place? digits point = some mantissa ∧ Placed digits point.toInt mantissa := by
  have hsign : point ≤ 0 ↔ point.toInt ≤ 0 := Int32.le_iff_toInt_le
  unfold place?
  by_cases hbefore : point.toInt ≤ 0
  · rw [if_pos (hsign.mpr hbefore)]
    exact ⟨_, rfl, placed_before h hbefore⟩
  · rw [if_neg (mt hsign.mp hbefore)]
    by_cases hbehind : digits.length ≤ point.toInt.toNat
    · rw [if_pos hbehind, minus?, if_pos hbehind]
      exact ⟨_, rfl, placed_behind h (by omega)⟩
    · rw [if_neg hbehind, cut?, if_pos (by omega)]
      exact ⟨_, rfl, placed_among h (by omega) (by omega)⟩

end Places

section Sizes

variable {mantissa mark : List Char}

structure Parts (mantissa whole fraction : List Char) : Prop where
  split : (splitOnce? '.' mantissa).getD (mantissa, []) = (whole, fraction)
  isNumeral : isNumeral (whole ++ fraction) = true
  value : mantissaRat mantissa = value (whole ++ fraction) * 10 ^ (-fraction.length : ℤ)
  head : (whole ++ fraction).head? = mantissa.head?
  length : whole.length ≤ mantissa.length

theorem exists_parts (h : Mantissa mantissa) :
    ∃ whole fraction, Parts mantissa whole fraction := by
  cases h with
  | whole h =>
    refine ⟨mantissa, [], ?_, ?_, ?_, ?_, le_rfl⟩
    · rw [splitOnce?_of_ne '.' (ne_of_isNumeral h '.' rfl)]
      rfl
    · rwa [List.append_nil]
    · simp [mantissaRat_numeral h]
    · rw [List.append_nil]
  | @fraction whole fraction h hfraction =>
    have hne := (isNumeral_iff.mp h).1
    refine ⟨whole, fraction, ?_, ?_, mantissaRat_point h, ?_, ?_⟩
    · rw [splitOnce?_mark '.' (ne_of_isNumeral h '.' rfl)]
      rfl
    · refine isNumeral_iff.mpr ⟨List.append_ne_nil_of_left_ne_nil hne _, fun c hc => ?_⟩
      exact (List.mem_append.mp hc).elim ((isNumeral_iff.mp h).2 c)
        ((isNumeral_iff.mp hfraction).2 c)
    · rw [List.head?_append_of_ne_nil _ hne, List.head?_append_of_ne_nil _ hne]
    · rw [List.length_append]
      omega

/-- An exponent of 32 bits is read as it is. -/
theorem toInt_exponent (h : mark ∈ integer.matches') (hlow : -2 ^ 31 ≤ intOf mark)
    (hhigh : intOf mark ≤ 2 ^ 31 - 1) : (exponent mark).toInt = intOf mark := by
  obtain ⟨negative, numeral, hnumeral, rfl⟩ := mem_integer_iff.mp h
  rw [intOf_withSign negative hnumeral] at hlow hhigh ⊢
  obtain ⟨wide, hwide, hread⟩ := int64?_of_mem (n := signed negative (value numeral)) (by omega)
    (by omega)
  obtain ⟨narrow, hnarrow, hint⟩ := int32?_of_mem hlow hhigh
  rw [exponent, narrowInteger?_of_numeral negative hnumeral, hread, Option.bind_some, hwide, hint]
  exact hnarrow

/-- A mantissa that denotes a power of ten times another one. -/
structure Moved (mantissa : List Char) (e : Int) (moved : List Char) : Prop where
  form : Mantissa moved
  value : mantissaRat moved = mantissaRat mantissa * 10 ^ e
  unpadded : mantissa.head? ≠ some '0' → Unpadded (moved.takeWhile (· != '.'))

theorem exists_expandSize (h : Mantissa mantissa) (hmark : mark ∈ integer.matches')
    (hlow : -2 ^ 31 ≤ intOf mark) (hhigh : mantissa.length + intOf mark ≤ 2 ^ 31 - 1)
    (hlength : mantissa.length < 2 ^ 31) :
    ∃ moved, expandSize? mantissa mark = some moved ∧ Moved mantissa (intOf mark) moved := by
  obtain ⟨whole, fraction, hparts⟩ := exists_parts h
  have hshort := hparts.length
  have hwhole : (Int32.ofNat whole.length).toInt = whole.length :=
    Int32.toInt_ofNat_of_lt (by omega)
  have hexponent := toInt_exponent hmark hlow (by omega)
  obtain ⟨point, hpoint, hsum⟩ := int32?_of_mem (n := whole.length + intOf mark) (by omega)
    (by omega)
  obtain ⟨moved, hplace, hplaced⟩ := exists_place hparts.isNumeral point
  refine ⟨moved, ?_, hplaced.form, ?_, ?_⟩
  · simp only [expandSize?, hparts.split, add?, hwhole, hexponent, hsum, Option.bind_eq_bind,
      Option.bind_some, hplace]
  · have hplaces : point.toInt - (whole ++ fraction).length = -fraction.length + intOf mark := by
      rw [hpoint, List.length_append]
      omega
    rw [hplaced.value, hparts.value, hplaces, zpow_add₀ (by norm_num), mul_assoc]
  · intro hhead
    exact hplaced.unpadded (hparts.head ▸ hhead)

/-- A point beyond 32 bits has no place. -/
example : expandSize? ['1'] "2147483647".toList = none := by decide +kernel

end Sizes

end LenientJson.Expansion
