/-!
# Decimal numerals

Naturals and integers as runs of the digits 0 to 9, most significant first, and back. A numeral
is a list of characters; reading one ignores nothing and checks nothing, so callers test
`Char.isDigit` first.
-/
namespace LenientJson.Digits

/-- The numeral of a natural number, without leading zeros. -/
def ofNat (n : Nat) : List Char := Nat.toDigits 10 n

/-- The numeral of an integer: a minus sign in front of the digits of its size. -/
def ofInt : Int → List Char
  | .ofNat n => ofNat n
  | .negSucc n => '-' :: ofNat (n + 1)

/-- The numeral of `n` with zeros in front up to the given width. -/
def padded (width n : Nat) : List Char :=
  let numeral := ofNat n
  List.replicate (width - numeral.length) '0' ++ numeral

def digitValue (c : Char) : Nat := c.toNat - '0'.toNat

/-- The number that a run of digits denotes; the empty run denotes zero. -/
def value (numeral : List Char) : Nat :=
  numeral.foldl (fun n c => 10 * n + digitValue c) 0

/-- A non-empty run of digits and nothing else. -/
def isNumeral (cs : List Char) : Bool := !cs.isEmpty && cs.all Char.isDigit

theorem value_concat (numeral : List Char) (c : Char) :
    value (numeral ++ [c]) = 10 * value numeral + digitValue c := by
  simp [value]

theorem digitValue_digitChar {d : Nat} (h : d < 10) : digitValue (Nat.digitChar d) = d := by
  have h0 : '0'.toNat = 48 := rfl
  rw [digitValue, Nat.toNat_digitChar_of_lt_ten h, h0]
  omega

theorem value_ofNat (n : Nat) : value (ofNat n) = n := by
  induction n using Nat.strongRecOn with
  | ind n ih =>
    rw [ofNat, Nat.toDigits_eq_if (by omega)]
    split
    next h => simp [value, digitValue_digitChar h]
    next h =>
      rw [value_concat, digitValue_digitChar (Nat.mod_lt n (by omega))]
      have hq : value (Nat.toDigits 10 (n / 10)) = n / 10 := ih (n / 10) (by omega)
      omega

theorem isNumeral_ofNat (n : Nat) : isNumeral (ofNat n) = true := by
  have hd : (ofNat n).all Char.isDigit = true :=
    List.all_eq_true.mpr fun c hc => Nat.isDigit_of_mem_toDigits (by omega) (by omega) hc
  have hne : (ofNat n).isEmpty = false := by
    rw [List.isEmpty_eq_false_iff]
    exact Nat.toDigits_ne_nil
  simp [isNumeral, hd, hne]

end LenientJson.Digits
