import LenientJson.Proofs.Offsets.Utf8
import Mathlib.Data.String.Basic

/-!
# The order of bytes

Texts are in the order of their characters if their bytes are in order. A lower character has a
lower first byte, or as many bytes as the higher one, and these are the digits of the code points.
-/
namespace LenientJson.Text

def bytes (s : String) : List UInt8 := encodeUtf8 s.toList

section Characters

theorem ofNat_lt_ofNat_iff {m n : Nat} (hm : m < 256) (hn : n < 256) :
    UInt8.ofNat m < UInt8.ofNat n ↔ m < n := by
  rw [UInt8.lt_iff_toNat_lt, Offsets.toNat_ofNat hm, Offsets.toNat_ofNat hn]

theorem ofNat_eq_ofNat_iff {m n : Nat} (hm : m < 256) (hn : n < 256) :
    UInt8.ofNat m = UInt8.ofNat n ↔ m = n := by
  rw [← UInt8.toNat_inj, Offsets.toNat_ofNat hm, Offsets.toNat_ofNat hn]

theorem toNat_val_lt (c : Char) : c.val.toNat < 0x110000 := by
  have hvalid := c.valid
  simp only [UInt32.isValidChar, Nat.isValidChar] at hvalid
  omega

/-- What follows the bytes of two characters does not matter: these already differ. -/
theorem utf8EncodeChar_append_lt {c d : Char} (h : c < d) (xs ys : List UInt8) :
    String.utf8EncodeChar c ++ xs < String.utf8EncodeChar d ++ ys := by
  have hcode : c.val.toNat < d.val.toNat := h
  have hlast := toNat_val_lt d
  unfold String.utf8EncodeChar
  generalize c.val.toNat = m at *
  generalize d.val.toNat = n at *
  simp only
  split_ifs
  all_goals first
    | omega
    | simp (disch := omega) only [List.cons_append, List.nil_append, List.cons_lt_cons_iff,
        ofNat_lt_ofNat_iff, ofNat_eq_ofNat_iff, Nat.mod_eq_of_lt]
      omega

end Characters

theorem encodeUtf8_lt {as bs : List Char} (h : as < bs) : encodeUtf8 as < encodeUtf8 bs := by
  induction as generalizing bs with
  | nil =>
    cases bs with
    | nil => exact absurd h (List.not_lt_nil _)
    | cons d ds =>
      obtain ⟨lead, rest, hbytes, -⟩ := Offsets.exists_lead d
      rw [encodeUtf8_nil, encodeUtf8_cons, hbytes]
      exact List.nil_lt_cons _ _
  | cons c as ih =>
    cases bs with
    | nil => exact absurd h (List.not_lt_nil _)
    | cons d ds =>
      rw [encodeUtf8_cons, encodeUtf8_cons]
      rcases List.cons_lt_cons_iff.mp h with hlt | ⟨rfl, hrest⟩
      · exact utf8EncodeChar_append_lt hlt _ _
      · exact List.append_left_lt (ih hrest)

theorem encodeUtf8_lt_iff {as bs : List Char} : encodeUtf8 as < encodeUtf8 bs ↔ as < bs := by
  refine ⟨fun h => ?_, encodeUtf8_lt⟩
  rcases lt_trichotomy as bs with hlt | rfl | hgt
  · exact hlt
  · exact absurd h (List.lt_irrefl _)
  · exact absurd h (List.lt_asymm (encodeUtf8_lt hgt))

theorem bytes_lt_iff {a b : String} : bytes a < bytes b ↔ a < b := by
  rw [bytes, bytes, encodeUtf8_lt_iff, String.lt_iff_toList_lt]

theorem bytes_le_iff {a b : String} : bytes a ≤ bytes b ↔ a ≤ b := by
  rw [← not_lt, ← bytes_lt_iff]
  rfl

end LenientJson.Text
