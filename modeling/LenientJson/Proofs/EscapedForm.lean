import LenientJson.Proofs.Offsets.Escaping

/-!
# The form of escaped text

Escaping has an exact inverse, and the texts that it writes are known by their form: each of the
seven special characters has a backslash in front of it, and each backslash has one of the seven
behind it. On all other texts unescaping forgets something, so that escaping cannot restore them.
-/
namespace LenientJson.Text

/-- The characters that are escaped. -/
def specials : List Char := ['\\', '"', '\'', '[', ']', '\x7b', '\x7d']

/-- Characters that are not special, and pairs of a backslash and a special character, one after
the other. -/
inductive EscapedForm : List Char → Prop where
  | nil : EscapedForm []
  | plain {c : Char} {rest : List Char} (h : c ∉ specials) (tail : EscapedForm rest) :
      EscapedForm (c :: rest)
  | pair {c : Char} {rest : List Char} (h : c ∈ specials) (tail : EscapedForm rest) :
      EscapedForm ('\\' :: c :: rest)

theorem isEscaped_iff {c : Char} : isEscaped c = true ↔ c ∈ specials := by
  simp [isEscaped, specials, or_assoc]

theorem escapeChar_of_mem {c : Char} (h : c ∈ specials) : escapeChar c = ['\\', c] :=
  if_pos (isEscaped_iff.mpr h)

theorem escapeChar_of_notMem {c : Char} (h : c ∉ specials) : escapeChar c = [c] :=
  if_neg fun hc => h (isEscaped_iff.mp hc)

theorem unescape_pair {c : Char} (h : c ∈ specials) (rest : List Char) :
    unescape ('\\' :: c :: rest) = c :: unescape rest := by
  simp [unescape, isEscaped_iff.mpr h]

theorem unescape_cons_of_ne {c : Char} (h : c ≠ '\\') (rest : List Char) :
    unescape (c :: rest) = c :: unescape rest := by
  cases rest with
  | nil => rfl
  | cons d rest => simp [unescape, h]

theorem escapedForm_escape (text : List Char) : EscapedForm (escape text) := by
  induction text with
  | nil => exact .nil
  | cons c text ih =>
    rw [escape_cons]
    by_cases hc : c ∈ specials
    · rw [escapeChar_of_mem hc]
      exact .pair hc ih
    · rw [escapeChar_of_notMem hc]
      exact .plain hc ih

theorem EscapedForm.escape_unescape {text : List Char} (h : EscapedForm text) :
    escape (unescape text) = text := by
  induction h with
  | nil => rfl
  | @plain c rest hc _ ih =>
    have hne : c ≠ '\\' := by
      rintro rfl
      exact hc List.mem_cons_self
    rw [unescape_cons_of_ne hne, escape_cons, escapeChar_of_notMem hc, ih]
    rfl
  | @pair c rest hc _ ih =>
    rw [unescape_pair hc, escape_cons, escapeChar_of_mem hc, ih]
    rfl

theorem escape_unescape_iff {text : List Char} :
    escape (unescape text) = text ↔ EscapedForm text := by
  constructor
  · intro h
    rw [← h]
    exact escapedForm_escape _
  · exact EscapedForm.escape_unescape

theorem exists_escape_iff {text : List Char} : (∃ s, escape s = text) ↔ EscapedForm text := by
  constructor
  · rintro ⟨s, rfl⟩
    exact escapedForm_escape s
  · intro h
    exact ⟨unescape text, h.escape_unescape⟩

theorem escape_injective : Function.Injective escape :=
  Function.LeftInverse.injective unescape_escape

/-- A backslash before a letter and one at the end of a text are kept, and escaping doubles them. -/
example : escape (unescape ['\\', 'n', '\\']) = ['\\', '\\', 'n', '\\', '\\'] := by decide

end LenientJson.Text

namespace LenientJson

open Text in
/-- Unescaping takes back what escaping wrote, in both forms, by characters and by slices of the
bytes. Escaping restores a text exactly if it has the escaped form, and these texts are the ones
that escaping writes. No two texts are escaped alike. -/
theorem escape_exact :
    (∀ s, unescape (escape s) = s) ∧
    (∀ t, escape (unescape t) = t ↔ EscapedForm t) ∧
    (∀ t, (∃ s, escape s = t) ↔ EscapedForm t) ∧
    Function.Injective escape ∧
    ∀ t, Offsets.escape t = .ok (escape t) ∧ Offsets.unescape t = .ok (unescape t) :=
  ⟨unescape_escape, fun _ => escape_unescape_iff, fun _ => exists_escape_iff, escape_injective,
    fun t => ⟨Offsets.escape_eq t, Offsets.unescape_eq t⟩⟩

end LenientJson
