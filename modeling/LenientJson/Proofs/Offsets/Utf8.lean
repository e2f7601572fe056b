import LenientJson.Offsets.Checked
import LenientJson.Proofs.Scan.Escapes
import LenientJson.Text.Blank
import Mathlib.Tactic

/-!
# Bytes of characters

An ASCII character is one byte of its own code, and every other character is bytes of another kind,
of which only the first does not continue a character. So a search for ASCII characters finds in
the bytes what it finds among the characters.
-/
namespace LenientJson

namespace Text

theorem encodeUtf8_nil : encodeUtf8 [] = [] := rfl

theorem encodeUtf8_append (as bs : List Char) :
    encodeUtf8 (as ++ bs) = encodeUtf8 as ++ encodeUtf8 bs := List.flatMap_append

theorem encodeUtf8_cons (c : Char) (cs : List Char) :
    encodeUtf8 (c :: cs) = String.utf8EncodeChar c ++ encodeUtf8 cs := List.flatMap_cons

theorem length_le_byteLength (cs : List Char) : cs.length ≤ byteLength cs := by
  induction cs with
  | nil => exact le_refl _
  | cons c cs ih =>
    have := c.utf8Size_pos
    rw [List.length_cons, byteLength_cons]
    omega

theorem length_encodeUtf8 (cs : List Char) : (encodeUtf8 cs).length = byteLength cs := by
  induction cs with
  | nil => rfl
  | cons c cs ih =>
    rw [encodeUtf8_cons, List.length_append, String.length_utf8EncodeChar, ih, byteLength_cons]

theorem byteLength_eq_zero_iff {cs : List Char} : byteLength cs = 0 ↔ cs = [] := by
  cases cs with
  | nil => simp
  | cons c cs =>
    have := c.utf8Size_pos
    simp
    omega

end Text

namespace Offsets

inductive Encoded (c : Char) : List UInt8 → Prop
  | ascii (code : c.toNat < 0x80) : Encoded c [UInt8.ofNat c.toNat]
  | wide {lead : UInt8} {rest : List UInt8} (code : 0x80 ≤ c.toNat) (leads : 0xC0 ≤ lead.toNat)
      (continues : ∀ byte ∈ rest, isContinuation byte = true) : Encoded c (lead :: rest)

theorem isContinuation_eq (byte : UInt8) :
    isContinuation byte = decide (0x80 ≤ byte.toNat ∧ byte.toNat < 0xC0) := by
  have h : ∀ n < 256, isContinuation (UInt8.ofNat n) =
      decide (0x80 ≤ (UInt8.ofNat n).toNat ∧ (UInt8.ofNat n).toNat < 0xC0) := by decide +kernel
  have hbyte := h byte.toNat byte.toNat_lt
  rwa [UInt8.ofNat_toNat] at hbyte

theorem toNat_ofNat {n : Nat} (h : n < 256) : (UInt8.ofNat n).toNat = n :=
  UInt8.toNat_ofNat_of_lt' h

theorem isContinuation_ofNat (n : Nat) : isContinuation (UInt8.ofNat (n % 64 + 128)) = true := by
  rw [isContinuation_eq, decide_eq_true_iff, toNat_ofNat (by omega)]
  omega

theorem encoded (c : Char) : Encoded c (String.utf8EncodeChar c) := by
  have hcode : c.val.toNat = c.toNat := rfl
  unfold String.utf8EncodeChar
  simp only [hcode]
  split
  next h => exact .ascii (by omega)
  next h1 =>
    have hlead {n : Nat} (hn : 0xC0 ≤ n) (hlt : n < 256) : 0xC0 ≤ (UInt8.ofNat n).toNat := by
      rwa [toNat_ofNat hlt]
    split
    · refine .wide (by omega) (hlead (by omega) (by omega)) fun byte hbyte => ?_
      obtain rfl := List.mem_singleton.mp hbyte
      exact isContinuation_ofNat _
    · split
      · refine .wide (by omega) (hlead (by omega) (by omega)) fun byte hbyte => ?_
        simp only [List.mem_cons, List.not_mem_nil, or_false] at hbyte
        rcases hbyte with rfl | rfl <;> exact isContinuation_ofNat _
      · refine .wide (by omega) (hlead (by omega) (by omega)) fun byte hbyte => ?_
        simp only [List.mem_cons, List.not_mem_nil, or_false] at hbyte
        rcases hbyte with rfl | rfl | rfl <;> exact isContinuation_ofNat _

theorem toNat_asChar (byte : UInt8) : (asChar byte).toNat = byte.toNat := by
  have hvalid : byte.toNat.isValidChar := .inl (byte.toNat_lt.trans (by decide))
  rw [asChar, Char.ofNat, dif_pos hvalid]
  rfl

theorem asChar_ofNat {c : Char} (h : c.toNat < 0x80) : asChar (UInt8.ofNat c.toNat) = c := by
  rw [asChar, toNat_ofNat (h.trans (by decide)), Char.ofNat_toNat]

def AsciiOnly (p : Char → Bool) : Prop := ∀ c, p c = true → c.toNat < 0x80

variable {p : Char → Bool}

theorem AsciiOnly.eq_false (h : AsciiOnly p) {c : Char} (hc : 0x80 ≤ c.toNat) : p c = false :=
  Bool.eq_false_iff.mpr fun hp => absurd (h c hp) (by omega)

theorem AsciiOnly.asChar_eq_false (h : AsciiOnly p) {byte : UInt8} (hbyte : 0x80 ≤ byte.toNat) :
    p (asChar byte) = false := h.eq_false (by rwa [toNat_asChar])

theorem asciiOnly_beq {c : Char} (h : c.toNat < 0x80) : AsciiOnly (· == c) := by
  intro d hd
  rwa [beq_iff_eq.mp hd]

/-- Characters that no property of ASCII characters tells apart are equal to the same ones. -/
theorem eq_iff_of_asciiOnly {c d e : Char} (h : ∀ p, AsciiOnly p → p d = p c)
    (he : e.toNat < 0x80) : d = e ↔ c = e := by
  have heq : (d == e) = (c == e) := h _ (asciiOnly_beq he)
  rw [← beq_iff_eq (a := d), heq, beq_iff_eq]

theorem asciiOnly_isBlank : AsciiOnly Text.isBlank := by
  intro c hc
  simp only [Text.isBlank, Bool.or_eq_true, beq_iff_eq] at hc
  rcases hc with (((rfl | rfl) | rfl) | rfl) | rfl <;> decide

theorem asciiOnly_isSeparator : AsciiOnly Text.isSeparator := by
  intro c hc
  rcases Bool.or_eq_true_iff.mp hc with hblank | hcomma
  · exact asciiOnly_isBlank c hblank
  · rw [beq_iff_eq.mp hcomma]
    decide

theorem asciiOnly_isEscaped : AsciiOnly Text.isEscaped := by
  intro c hc
  simp only [Text.isEscaped, Bool.or_eq_true, beq_iff_eq] at hc
  rcases hc with (((((rfl | rfl) | rfl) | rfl) | rfl) | rfl) | rfl <;> decide

/-- No byte of a character beyond ASCII is that of an ASCII character. -/
theorem Encoded.le_of_wide {c : Char} {bytes : List UInt8} (h : Encoded c bytes)
    (hc : 0x80 ≤ c.toNat) : ∀ byte ∈ bytes, 0x80 ≤ byte.toNat := by
  cases h with
  | ascii code => omega
  | wide code leads continues =>
    intro byte hbyte
    rcases List.mem_cons.mp hbyte with rfl | hbyte
    · omega
    · have := continues byte hbyte
      rw [isContinuation_eq, decide_eq_true_iff] at this
      exact this.1

theorem utf8EncodeChar_of_ascii {c : Char} (h : c.toNat < 0x80) :
    String.utf8EncodeChar c = [UInt8.ofNat c.toNat] := by
  have hencoded := encoded c
  generalize String.utf8EncodeChar c = bytes at hencoded
  cases hencoded with
  | ascii => rfl
  | wide code => omega

theorem utf8Size_of_ascii {c : Char} (h : c.toNat < 0x80) : c.utf8Size = 1 := by
  rw [← String.length_utf8EncodeChar, utf8EncodeChar_of_ascii h, List.length_singleton]

/-- The first byte of a character is not that of another ASCII character. -/
theorem exists_lead (c : Char) : ∃ lead rest, String.utf8EncodeChar c = lead :: rest ∧
    isContinuation lead = false ∧ (∀ byte ∈ rest, isContinuation byte = true) ∧
      ∀ p, AsciiOnly p → p (asChar lead) = p c := by
  have hencoded := encoded c
  generalize String.utf8EncodeChar c = bytes at hencoded
  cases hencoded with
  | ascii code =>
    refine ⟨_, [], rfl, ?_, by simp, fun p _ => by rw [asChar_ofNat code]⟩
    rw [isContinuation_eq, decide_eq_false_iff_not, toNat_ofNat (by omega)]
    omega
  | @wide lead rest code leads continues =>
    refine ⟨lead, rest, rfl, ?_, continues, fun p hp => ?_⟩
    · rw [isContinuation_eq, decide_eq_false_iff_not]
      omega
    · rw [hp.asChar_eq_false (by omega), hp.eq_false code]

/-- Where a character stands in the bytes: its first byte, and the others, which belong to no ASCII
character. -/
theorem exists_bytes (front : List Char) (c : Char) (back : List Char) : ∃ lead rest,
    Text.encodeUtf8 (front ++ c :: back) =
      Text.encodeUtf8 front ++ [lead] ++ rest ++ Text.encodeUtf8 back ∧
    c.utf8Size = rest.length + 1 ∧ (∀ byte ∈ rest, 0x80 ≤ byte.toNat) ∧
      ∀ p, AsciiOnly p → p (asChar lead) = p c := by
  obtain ⟨lead, rest, hbytes, -, hrest, hp⟩ := exists_lead c
  refine ⟨lead, rest, ?_, ?_, fun byte hbyte => ?_, hp⟩
  · simp [Text.encodeUtf8_append, Text.encodeUtf8_cons, hbytes]
  · rw [← String.length_utf8EncodeChar, hbytes, List.length_cons]
  · have hcontinues := hrest byte hbyte
    rw [isContinuation_eq, decide_eq_true_iff] at hcontinues
    exact hcontinues.1

/-- The last byte of a character is not that of another ASCII character. -/
theorem exists_last (c : Char) : ∃ front last, String.utf8EncodeChar c = front ++ [last] ∧
    ∀ p, AsciiOnly p → p (asChar last) = p c := by
  obtain ⟨lead, rest, hbytes, -⟩ := exists_lead c
  obtain ⟨front, last, hlast⟩ := (List.eq_nil_or_concat' (String.utf8EncodeChar c)).resolve_left
    (by rw [hbytes]; exact List.cons_ne_nil _ _)
  refine ⟨front, last, hlast, fun p hp => ?_⟩
  rcases lt_or_ge c.toNat 0x80 with hc | hc
  · rw [utf8EncodeChar_of_ascii hc] at hlast
    obtain ⟨-, hlast⟩ := List.append_inj' (show [] ++ [_] = front ++ [last] from hlast) rfl
    rw [← (List.cons.inj hlast).1, asChar_ofNat hc]
  · rw [hp.eq_false hc]
    exact hp.asChar_eq_false ((encoded c).le_of_wide hc last (by rw [hlast]; simp))

section Search

theorem findIdx?_utf8EncodeChar (hp : AsciiOnly p) (c : Char) :
    (String.utf8EncodeChar c).findIdx? (fun byte => p (asChar byte)) =
      if p c then some 0 else none := by
  have hencoded := encoded c
  rcases lt_or_ge c.toNat 0x80 with hc | hc
  · rw [utf8EncodeChar_of_ascii hc, List.findIdx?_singleton, asChar_ofNat hc]
  · rw [hp.eq_false hc, if_neg Bool.false_ne_true, List.findIdx?_eq_none_iff]
    exact fun byte hbyte => hp.asChar_eq_false (hencoded.le_of_wide hc byte hbyte)

/-- No byte of a character that is not of a kind is the code of one that is. -/
theorem asChar_eq_false_of_mem (hp : AsciiOnly p) {c : Char} (hc : p c = false) {byte : UInt8}
    (hbyte : byte ∈ String.utf8EncodeChar c) : p (asChar byte) = false := by
  have hnone := findIdx?_utf8EncodeChar hp c
  rw [hc, if_neg Bool.false_ne_true, List.findIdx?_eq_none_iff] at hnone
  exact hnone byte hbyte

/-- The first byte of a kind is where the first character of the kind begins. -/
theorem findIdx?_encodeUtf8 (hp : AsciiOnly p) (cs : List Char) :
    (Text.encodeUtf8 cs).findIdx? (fun byte => p (asChar byte)) =
      if cs.any p then some (Text.byteLength (cs.takeWhile (!p ·))) else none := by
  induction cs with
  | nil => rfl
  | cons c cs ih =>
    rw [Text.encodeUtf8_cons, List.findIdx?_append, findIdx?_utf8EncodeChar hp, ih,
      String.length_utf8EncodeChar, List.any_cons]
    cases hc : p c with
    | true => simp [hc]
    | false =>
      cases hcs : cs.any p with
      | true => simp [hc, Nat.add_comm]
      | false => simp

theorem countP_encodeUtf8 (hp : AsciiOnly p) (cs : List Char) :
    (Text.encodeUtf8 cs).countP (fun byte => p (asChar byte)) = cs.countP p := by
  induction cs with
  | nil => rfl
  | cons c cs ih =>
    have hencoded := encoded c
    rw [Text.encodeUtf8_cons, List.countP_append, ih, List.countP_cons, Nat.add_comm]
    congr 1
    rcases lt_or_ge c.toNat 0x80 with hc | hc
    · rw [utf8EncodeChar_of_ascii hc, List.countP_singleton, asChar_ofNat hc]
    · rw [hp.eq_false hc, if_neg Bool.false_ne_true, List.countP_eq_zero]
      intro byte hbyte
      rw [hp.asChar_eq_false (hencoded.le_of_wide hc byte hbyte)]
      exact Bool.false_ne_true

theorem any_encodeUtf8 (hp : AsciiOnly p) (cs : List Char) :
    (Text.encodeUtf8 cs).any (fun byte => p (asChar byte)) = cs.any p := by
  rw [Bool.eq_iff_iff, List.any_eq_true, List.any_eq_true, ← List.countP_pos_iff,
    ← List.countP_pos_iff, countP_encodeUtf8 hp]

/-- As many bytes do not continue a character as there are characters. -/
theorem countP_not_isContinuation (cs : List Char) :
    (Text.encodeUtf8 cs).countP (fun byte => !isContinuation byte) = cs.length := by
  induction cs with
  | nil => rfl
  | cons c cs ih =>
    obtain ⟨lead, rest, hbytes, hlead, hrest, -⟩ := exists_lead c
    have hzero : rest.countP (fun byte => !isContinuation byte) = 0 :=
      List.countP_eq_zero.mpr fun byte hbyte => by simp [hrest byte hbyte]
    rw [Text.encodeUtf8_cons, List.countP_append, ih, hbytes, List.countP_cons, hzero, hlead,
      List.length_cons]
    simp [Nat.add_comm]

/-- A run of backslashes at the end is as long in bytes as in characters. -/
theorem length_takeWhile_backslash (cs : List Char) :
    ((Text.encodeUtf8 cs).reverse.takeWhile (asChar · == '\\')).length =
      Reader.backslashRun cs := by
  induction cs using List.reverseRecOn with
  | nil => rfl
  | append_singleton cs c ih =>
    obtain ⟨front, last, hlast, hp⟩ := exists_last c
    have hbackslash : (asChar last == '\\') = (c == '\\') := hp _ (asciiOnly_beq (by decide))
    rw [Reader.backslashRun_concat, Text.encodeUtf8_append, List.reverse_append,
      Text.encodeUtf8_cons, hlast]
    by_cases hb : c = '\\'
    · have hfront : front = [] := by
        have hsize := String.length_utf8EncodeChar c
        rw [hlast, List.length_append, hb] at hsize
        exact List.length_eq_zero_iff.mp (Nat.succ.inj hsize)
      simp [Text.encodeUtf8_nil, hfront, hbackslash, hb, ih]
    · simp [Text.encodeUtf8_nil, hbackslash, hb]

end Search

end Offsets

end LenientJson
