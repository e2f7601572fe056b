import LenientJson.Proofs.Scan.Escapes
import Mathlib.Tactic

/-!
# Brackets outside quotes

A scan that takes quotes for characters like others and one that skips strings see the same
brackets in a text whose bare brackets all stand outside quotes, provided that both begin where
the quotes seen so far are paired.
-/
namespace LenientJson.Reader

def bareQuotes (text : List Char) : Nat :=
  (List.range text.length).countP fun i => text[i]? == some '"' && !escapedBehind (text.take i)

/-- What is known behind a text: whether the next character is escaped, and whether a quote that
is not escaped is still open. -/
structure QuoteState where
  escaped : Bool := false
  quoted : Bool := false

namespace QuoteState

def step (st : QuoteState) (c : Char) : QuoteState where
  escaped := escapesNext st.escaped c
  quoted := st.quoted ^^ (c == '"' && !st.escaped)

/-- Behind any character but a backslash nothing is escaped. -/
theorem step_escaped (st : QuoteState) {c : Char} (hc : c ≠ '\\') :
    (st.step c).escaped = false := by
  simp [step, escapesNext, hc]

end QuoteState

theorem bareQuotes_concat (front : List Char) (c : Char) : bareQuotes (front ++ [c]) =
    bareQuotes front + if c = '"' ∧ escapedBehind front = false then 1 else 0 := by
  unfold bareQuotes
  rw [List.length_append, List.length_singleton, List.range_succ, List.countP_append]
  congr 1
  · apply List.countP_congr
    intro i hi
    have hlt : i < front.length := List.mem_range.mp hi
    rw [List.getElem?_append_left hlt, List.take_append_of_le_length hlt.le]
  · simp only [List.countP_singleton, List.getElem?_concat_length, List.take_left]
    simp

/-- The two bits are the parity of the run of backslashes and that of the bare quotes. -/
theorem foldl_step (front : List Char) :
    front.foldl QuoteState.step {} = ⟨escapedBehind front, bareQuotes front % 2 == 1⟩ := by
  induction front using List.reverseRecOn with
  | nil => rfl
  | append_singleton front c ih =>
    have hescaped := foldl_escapesNext (front ++ [c])
    rw [List.foldl_append, foldl_escapesNext] at hescaped
    rw [List.foldl_append, ih, List.foldl_cons, List.foldl_nil, QuoteState.step]
    congr 1
    rw [bareQuotes_concat]
    split
    next h =>
      rcases Nat.mod_two_eq_zero_or_one (bareQuotes front) with hpar | hpar
      · simp [h, hpar, Nat.add_mod]
      · simp [h, hpar, Nat.add_mod]
    next h =>
      have hc : (c == '"' && !escapedBehind front) = false := by
        simpa using h
      simp [hc]

/-- From the given state on, no bare bracket stands inside quotes. -/
def BracketsOutside (st : QuoteState) : List Char → Prop
  | [] => True
  | c :: cs => (isBracket c = true → st.escaped = false → st.quoted = false) ∧
      BracketsOutside (st.step c) cs

theorem bracketsOutside_iff_getElem {st : QuoteState} {cs : List Char} :
    BracketsOutside st cs ↔ ∀ i (h : i < cs.length), isBracket cs[i] = true →
      ((cs.take i).foldl QuoteState.step st).escaped = false →
        ((cs.take i).foldl QuoteState.step st).quoted = false := by
  induction cs generalizing st with
  | nil => simp [BracketsOutside]
  | cons c cs ih =>
    rw [BracketsOutside, ih]
    constructor
    · intro ⟨hhead, htail⟩ i h hb
      cases i with
      | zero => exact hhead hb
      | succ i => exact htail i (Nat.lt_of_succ_lt_succ h) hb
    · intro h
      exact ⟨fun hb => h 0 (Nat.succ_pos _) hb, fun i hi hb => h (i + 1) (Nat.succ_lt_succ hi) hb⟩

theorem bracketsOutside_append {st : QuoteState} {a b : List Char} :
    BracketsOutside st (a ++ b) ↔
      BracketsOutside st a ∧ BracketsOutside (a.foldl QuoteState.step st) b := by
  induction a generalizing st with
  | nil => simp [BracketsOutside]
  | cons c a ih => rw [List.cons_append, BracketsOutside, BracketsOutside, ih, and_assoc]; rfl

theorem bracketsOutside_of_text {text : List Char}
    (h : ∀ i (hi : i < text.length), isBracket text[i] = true →
      escapedBehind (text.take i) = false → bareQuotes (text.take i) % 2 = 0) :
    BracketsOutside {} text := by
  rw [bracketsOutside_iff_getElem]
  intro i hi hb
  rw [foldl_step]
  intro hescaped
  simp [h i hi hb hescaped]

variable {bracket : Bracket} {st : QuoteState}

/-- A scan that skips strings differs from one that does not in nothing but its knowledge of
quotes. -/
theorem step_modes (bracket : Bracket) {c : Char}
    (h : isBracket c = true → st.escaped = false → st.quoted = false) (depth : Nat) :
    (Scan.step .stringAware bracket ⟨st.escaped, st.quoted, depth⟩ c = none ∧
        Scan.step .legacy bracket ⟨st.escaped, false, depth⟩ c = none) ∨
      ∃ depth', Scan.step .stringAware bracket ⟨st.escaped, st.quoted, depth⟩ c =
          some ⟨(st.step c).escaped, (st.step c).quoted, depth'⟩ ∧
        Scan.step .legacy bracket ⟨st.escaped, false, depth⟩ c =
          some ⟨(st.step c).escaped, false, depth'⟩ := by
  obtain ⟨escaped, quoted⟩ := st
  cases escaped with
  | true => exact .inr ⟨depth, by simp [Scan.step, QuoteState.step]⟩
  | false =>
    by_cases hquote : c = '"'
    · subst hquote
      refine .inr ⟨depth, ?_⟩
      cases quoted <;> cases bracket <;>
        simp [Scan.step, QuoteState.step, Bracket.opener, Bracket.closer]
    · cases hb : isBracket c with
      | true =>
        obtain rfl : quoted = false := h hb rfl
        by_cases hopener : c = bracket.opener
        · exact .inr ⟨depth + 1, by simp [Scan.step, QuoteState.step, hquote, ← hopener]⟩
        · by_cases hcloser : c = bracket.closer
          · cases depth with
            | zero => exact .inl (by simp [Scan.step, hquote, hopener, ← hcloser])
            | succ depth =>
              refine .inr ⟨depth, ?_⟩
              simp [Scan.step, QuoteState.step, hquote, hopener, ← hcloser]
          · refine .inr ⟨depth, ?_⟩
            simp [Scan.step, QuoteState.step, hquote, hopener, hcloser]
      | false =>
        have hopener : c ≠ bracket.opener := by
          rintro rfl
          cases bracket <;> cases hb
        have hcloser : c ≠ bracket.closer := by
          rintro rfl
          cases bracket <;> cases hb
        refine .inr ⟨depth, ?_⟩
        cases quoted <;> simp [Scan.step, QuoteState.step, hquote, hopener, hcloser]

theorem splitEnclosed_modes {cs : List Char} (h : BracketsOutside st cs) (depth : Nat) :
    splitEnclosed .stringAware bracket ⟨st.escaped, st.quoted, depth⟩ cs =
      splitEnclosed .legacy bracket ⟨st.escaped, false, depth⟩ cs := by
  induction cs generalizing st depth with
  | nil => rfl
  | cons c cs ih =>
    rw [splitEnclosed, splitEnclosed]
    rcases step_modes bracket h.1 depth with ⟨haware, hlegacy⟩ | ⟨depth', haware, hlegacy⟩
    · rw [haware, hlegacy]
    · rw [haware, hlegacy]
      simp only [ih h.2 depth']

end LenientJson.Reader
