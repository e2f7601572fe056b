import LenientJson.Reader.Scan
import LenientJson.Text.Escape
import Mathlib.Data.List.Induction

/-!
# Escaped characters of a text

Whether a character is escaped is a matter of the run of backslashes before it, which a scan from
the left keeps as one bit. Text in which every quote is escaped, and whose end escapes nothing,
can stand between quotes as it is; escaped text is always of this kind.
-/
namespace LenientJson.Reader

def backslashRun (front : List Char) : Nat := (front.reverse.takeWhile (· == '\\')).length

/-- Whether a character directly behind the text is escaped. -/
def escapedBehind (front : List Char) : Bool := backslashRun front % 2 == 1

def isBracket (c : Char) : Bool := c == '\x7b' || c == '\x7d' || c == '[' || c == ']'

structure Quotable (text : List Char) : Prop where
  quotes : ∀ i (h : i < text.length), text[i] = '"' → escapedBehind (text.take i) = true
  ending : escapedBehind text = false

/-- A text that can stand between quotes without a trace in a scan for brackets. A scan that takes
quotes for characters like others also sees the brackets between them. -/
structure SafeIn (mode : ScanMode) (text : List Char) : Prop extends Quotable text where
  brackets : mode = .legacy →
    ∀ i (h : i < text.length), isBracket text[i] = true → escapedBehind (text.take i) = true

theorem backslashRun_concat (front : List Char) (c : Char) :
    backslashRun (front ++ [c]) = if c = '\\' then backslashRun front + 1 else 0 := by
  unfold backslashRun
  rw [List.reverse_append, List.reverse_singleton, List.singleton_append, List.takeWhile_cons]
  by_cases hc : c = '\\' <;> simp [hc]

theorem escapedBehind_of_not_mem {front : List Char} (h : '\\' ∉ front) :
    escapedBehind front = false := by
  induction front using List.reverseRecOn with
  | nil => rfl
  | append_singleton front c =>
    have hc : c ≠ '\\' := by
      rintro rfl
      exact h List.mem_concat_self
    rw [escapedBehind, backslashRun_concat, if_neg hc]
    rfl

/-- The bit of the scan is the parity of the run of backslashes. -/
theorem foldl_escapesNext (front : List Char) :
    front.foldl escapesNext false = escapedBehind front := by
  induction front using List.reverseRecOn with
  | nil => rfl
  | append_singleton front c ih =>
    rw [List.foldl_append, List.foldl_cons, List.foldl_nil, ih]
    unfold escapedBehind
    rw [backslashRun_concat]
    by_cases hc : c = '\\'
    · rcases Nat.mod_two_eq_zero_or_one (backslashRun front) with h | h
      · simp [escapesNext, hc, h, Nat.add_mod]
      · simp [escapesNext, hc, h, Nat.add_mod]
    · simp [escapesNext, hc]

def AllEscaped (p : Char → Bool) (escaped : Bool) : List Char → Prop
  | [] => True
  | c :: cs => (p c = true → escaped = true) ∧ AllEscaped p (escapesNext escaped c) cs

theorem allEscaped_iff_getElem {p : Char → Bool} {escaped : Bool} {cs : List Char} :
    AllEscaped p escaped cs ↔ ∀ i (h : i < cs.length), p cs[i] = true →
      (cs.take i).foldl escapesNext escaped = true := by
  induction cs generalizing escaped with
  | nil => simp [AllEscaped]
  | cons c cs ih =>
    rw [AllEscaped, ih]
    constructor
    · intro ⟨hhead, htail⟩ i h hp
      cases i with
      | zero => exact hhead hp
      | succ i => exact htail i (Nat.lt_of_succ_lt_succ h) hp
    · intro h
      exact ⟨fun hp => h 0 (Nat.succ_pos _) hp, fun i hi hp => h (i + 1) (Nat.succ_lt_succ hi) hp⟩

theorem AllEscaped.append {p : Char → Bool} {escaped : Bool} {a b : List Char}
    (ha : AllEscaped p escaped a) (hb : AllEscaped p (a.foldl escapesNext escaped) b) :
    AllEscaped p escaped (a ++ b) := by
  induction a generalizing escaped with
  | nil => exact hb
  | cons c a ih => exact ⟨ha.1, ih ha.2 hb⟩

theorem Quotable.allEscaped {text : List Char} (h : Quotable text) :
    AllEscaped (· == '"') false text := by
  rw [allEscaped_iff_getElem]
  intro i hi hc
  rw [foldl_escapesNext]
  exact h.quotes i hi (beq_iff_eq.mp hc)

theorem SafeIn.allEscaped {text : List Char} (h : SafeIn .legacy text) :
    AllEscaped isBracket false text := by
  rw [allEscaped_iff_getElem]
  intro i hi hc
  rw [foldl_escapesNext]
  exact h.brackets rfl i hi hc

theorem splitQuoted_cons_quote (cs : List Char) :
    splitQuoted false ('"' :: cs) = some ([], cs) := rfl

theorem splitQuoted_cons {escaped : Bool} {c : Char} (h : c = '"' → escaped = true)
    (cs : List Char) : splitQuoted escaped (c :: cs) =
      (splitQuoted (escapesNext escaped c) cs).map fun (inside, rest) => (c :: inside, rest) := by
  have hc : (c == '"' && !escaped) = false := by
    cases hquote : c == '"' with
    | false => rfl
    | true => simp [h (beq_iff_eq.mp hquote)]
  simp [splitQuoted, hc]

theorem splitQuoted_append {escaped : Bool} {inside : List Char} (rest : List Char)
    (hquotes : AllEscaped (· == '"') escaped inside)
    (hending : inside.foldl escapesNext escaped = false) :
    splitQuoted escaped (inside ++ '"' :: rest) = some (inside, rest) := by
  induction inside generalizing escaped with
  | nil =>
    obtain rfl : escaped = false := hending
    rfl
  | cons c inside ih =>
    rw [List.cons_append, splitQuoted_cons (fun hc => hquotes.1 (beq_iff_eq.mpr hc)),
      ih hquotes.2 hending]
    rfl

theorem Quotable.splitQuoted {text : List Char} (h : Quotable text) (rest : List Char) :
    splitQuoted false (text ++ '"' :: rest) = some (text, rest) := by
  apply splitQuoted_append rest h.allEscaped
  rw [foldl_escapesNext]
  exact h.ending

theorem allEscaped_of_splitQuoted {escaped : Bool} {cs inside rest : List Char}
    (h : splitQuoted escaped cs = some (inside, rest)) :
    AllEscaped (· == '"') escaped inside ∧ inside.foldl escapesNext escaped = false := by
  induction cs generalizing escaped inside with
  | nil => simp [Reader.splitQuoted] at h
  | cons c cs ih =>
    by_cases hc : c = '"' → escaped = true
    · rw [splitQuoted_cons hc] at h
      obtain ⟨⟨tail, behind⟩, hsplit, hpair⟩ := Option.map_eq_some_iff.mp h
      obtain ⟨rfl, rfl⟩ := Prod.mk.inj hpair
      obtain ⟨hquotes, hending⟩ := ih hsplit
      exact ⟨⟨fun hq => hc (beq_iff_eq.mp hq), hquotes⟩, hending⟩
    · obtain ⟨rfl, he⟩ := Classical.not_imp.mp hc
      rw [Bool.not_eq_true] at he
      subst he
      rw [splitQuoted_cons_quote] at h
      obtain ⟨rfl, rfl⟩ := Prod.mk.inj (Option.some.inj h)
      exact ⟨trivial, rfl⟩

/-- What is taken from between quotes can stand between quotes again. -/
theorem quotable_of_splitQuoted {cs inside rest : List Char}
    (h : splitQuoted false cs = some (inside, rest)) : Quotable inside := by
  obtain ⟨hquotes, hending⟩ := allEscaped_of_splitQuoted h
  rw [allEscaped_iff_getElem] at hquotes
  rw [foldl_escapesNext] at hending
  refine ⟨fun i hi hc => ?_, hending⟩
  rw [← foldl_escapesNext]
  exact hquotes i hi (beq_iff_eq.mpr hc)

section Escape

variable {p : Char → Bool}

theorem foldl_escapeChar (c : Char) : (Text.escapeChar c).foldl escapesNext false = false := by
  unfold Text.escapeChar
  split
  · simp [escapesNext]
  next h =>
    have hc : c ≠ '\\' := by
      rintro rfl
      exact h rfl
    simp [escapesNext, hc]

@[simp] theorem foldl_escape (text : List Char) :
    (Text.escape text).foldl escapesNext false = false := by
  induction text with
  | nil => rfl
  | cons c text ih => rw [Text.escape_cons, List.foldl_append, foldl_escapeChar, ih]

/-- Escaping leaves none of the seven characters bare, apart from the backslashes it writes. -/
theorem allEscaped_escape (hp : ∀ c, p c = true → Text.isEscaped c = true) (hb : p '\\' = false)
    (text : List Char) : AllEscaped p false (Text.escape text) := by
  induction text with
  | nil => trivial
  | cons c text ih =>
    rw [Text.escape_cons]
    apply AllEscaped.append
    · unfold Text.escapeChar
      split
      · simp [AllEscaped, hb, escapesNext]
      next h =>
        have hc : p c = false := Bool.eq_false_iff.mpr fun hpc => h (hp c hpc)
        simp [AllEscaped, hc]
    · rw [foldl_escapeChar]
      exact ih

theorem splitQuoted_escape (text rest : List Char) :
    splitQuoted false (Text.escape text ++ '"' :: rest) = some (Text.escape text, rest) :=
  splitQuoted_append rest
    (allEscaped_escape (fun c hc => by rw [beq_iff_eq.mp hc]; rfl) rfl text) (foldl_escape text)

theorem isEscaped_of_isBracket {c : Char} (h : isBracket c = true) : Text.isEscaped c = true := by
  simp only [isBracket, Bool.or_eq_true, beq_iff_eq] at h
  rcases h with ((rfl | rfl) | rfl) | rfl <;> rfl

end Escape

end LenientJson.Reader
