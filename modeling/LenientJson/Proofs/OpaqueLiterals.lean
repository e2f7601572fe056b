import LenientJson.Proofs.Offsets.BalancePoints
import LenientJson.Proofs.Scan.Quotes

/-!
# Escaped literals

An escaped text between quotes is passed as a whole by every scan. The search for its end finds its
own quote, and a scan for a bracket that comes to it outside a string leaves it as it came,
whatever stands around it.
-/
namespace LenientJson

namespace Reader

variable {mode : ScanMode} {bracket : Bracket} {s last : Scan} {c : Char} {cs : List Char}

/-- A scan that finds no closer comes to the end. -/
theorem exists_run_of_splitEnclosed (h : splitEnclosed mode bracket s cs = none) :
    ∃ last, s.run mode bracket cs = some last := by
  induction cs generalizing s with
  | nil => exact ⟨s, rfl⟩
  | cons c cs ih =>
    rw [splitEnclosed] at h
    cases hstep : s.step mode bracket c with
    | none => simp [hstep] at h
    | some next =>
      simp only [hstep, Option.map_eq_none_iff] at h
      obtain ⟨last, hrun⟩ := ih h
      exact ⟨last, by rw [Scan.run, hstep, Option.bind_some, hrun]⟩

/-- Only a scan that skips strings takes note of quotes. -/
theorem quoted_of_step (h : s.step mode bracket c = some last) :
    last.quoted = (s.quoted ^^ (mode == .stringAware && c == '"' && !s.escaped)) := by
  unfold Scan.step at h
  simp only at h
  split at h
  next hescaped =>
    cases h
    simp [hescaped]
  next hescaped =>
    split at h
    next hquote =>
      cases h
      simp [hescaped, hquote]
    next hquote =>
      have hpassed : (mode == .stringAware && c == '"') = false := by
        simpa using hquote
      rw [hpassed, Bool.false_and, Bool.xor_false]
      repeat' split at h
      all_goals cases h
      all_goals rfl

theorem quoted_of_run_legacy (h : s.run .legacy bracket cs = some last) :
    last.quoted = s.quoted := by
  induction cs generalizing s with
  | nil =>
    obtain rfl : s = last := Option.some.inj h
    rfl
  | cons c cs ih =>
    obtain ⟨next, hstep, hrun⟩ := Option.bind_eq_some_iff.mp h
    rw [ih hrun, quoted_of_step hstep]
    exact Bool.xor_false _

theorem quoteState_of_run (h : s.run .stringAware bracket cs = some last) :
    cs.foldl QuoteState.step ⟨s.escaped, s.quoted⟩ = ⟨last.escaped, last.quoted⟩ := by
  induction cs generalizing s with
  | nil =>
    obtain rfl : s = last := Option.some.inj h
    rfl
  | cons c cs ih =>
    obtain ⟨next, hstep, hrun⟩ := Option.bind_eq_some_iff.mp h
    have hnext : QuoteState.step ⟨s.escaped, s.quoted⟩ c = ⟨next.escaped, next.quoted⟩ := by
      rw [Offsets.escaped_of_step hstep, quoted_of_step hstep]
      rfl
    rw [List.foldl_cons, hnext, ih hrun]

/-- Behind paired quotes a scan is outside strings. -/
theorem quoted_of_run (h : Scan.run mode bracket {} cs = some last)
    (hquotes : mode = .stringAware → bareQuotes cs % 2 = 0) : last.quoted = false := by
  cases mode with
  | legacy => exact quoted_of_run_legacy h
  | stringAware =>
    have hstate := quoteState_of_run h
    rw [foldl_step, hquotes rfl] at hstate
    exact (congrArg QuoteState.quoted hstate).symm

end Reader

open Reader Offsets

section Rounds

variable {mode : ScanMode} {opener closer : Char} {bytes : List UInt8}

/-- What a scan finds is not in front of a state to which it comes. -/
theorem le_of_rounds {start stop i : Nat} {b : ByteScan}
    (hrounds : ByteScan.Rounds mode opener closer bytes ⟨start + 1, 1, false⟩ b)
    (h : findMatching mode opener closer bytes start stop = .ok (some i)) : b.position ≤ i := by
  have hfound := findMatching_stable (Nat.lt_succ_of_le (Nat.le_max_left i b.position)) h
  rw [findMatching, expectOpener, if_pos (opener_of_findMatching h)] at hfound
  have hrest := matchFrom_of_rounds hrounds
    ((Nat.le_max_right i b.position).trans (Nat.le_succ _))
  exact (found_of_matchFrom (hrest.symm.trans hfound)).1

end Rounds

section Passed

variable (mode : ScanMode) (bracket : Bracket) (bytes : List UInt8) (start first last : Nat)

/-- What a scan for the closer of the bracket at `start` makes of a stretch of the text. -/
structure Passed : Prop where
  /-- It does not stop within the stretch. -/
  outside : ∀ stop i,
    findMatching mode bracket.opener bracket.closer bytes start stop = .ok (some i) →
      i < first ∨ last ≤ i
  /-- It stops before, or comes to the stretch outside a string and leaves it with as many open
  brackets, outside a string. -/
  traceless : (∃ i < first, ∀ stop, i < stop →
      findMatching mode bracket.opener bracket.closer bytes start stop = .ok (some i)) ∨
    ∃ depth,
      ByteScan.Rounds mode bracket.opener bracket.closer bytes
        ⟨start + 1, 1, false⟩ ⟨first, depth, false⟩ ∧
      ByteScan.Rounds mode bracket.opener bracket.closer bytes
        ⟨first, depth, false⟩ ⟨last, depth, false⟩

end Passed

section Neutral

/-- A scan for the closer of a bracket ends before a text behind it, or is there in a state of its
own. -/
theorem ends_or_rounds (mode : ScanMode) (bracket : Bracket) (front inner behind : List Char) :
    (∃ i < Text.byteLength (front ++ bracket.opener :: inner), ∀ stop, i < stop →
      findMatching mode bracket.opener bracket.closer
        (Text.encodeUtf8 (front ++ bracket.opener :: inner ++ behind)) (Text.byteLength front)
        stop = .ok (some i)) ∨
    ∃ last, Scan.run mode bracket {} inner = some last ∧
      ByteScan.Rounds mode bracket.opener bracket.closer
        (Text.encodeUtf8 (front ++ bracket.opener :: inner ++ behind))
        ⟨Text.byteLength front + 1, 1, false⟩
        ⟨Text.byteLength (front ++ bracket.opener :: inner), last.depth + 1, last.quoted⟩ := by
  have hwithin : Span.Within (front ++ bracket.opener :: inner ++ behind)
      ⟨Text.byteLength front, bracket.opener :: inner⟩ := ⟨front, behind, rfl, rfl⟩
  cases hsplit : splitEnclosed mode bracket {} inner with
  | some parts =>
    obtain ⟨inside, rest⟩ := parts
    have hmatch : findMatching mode bracket.opener bracket.closer
        (Text.encodeUtf8 (front ++ bracket.opener :: inner ++ behind)) (Text.byteLength front)
        (Text.byteLength front + Text.byteLength (bracket.opener :: inner)) =
          .ok (some (Text.byteLength front + 1 + Text.byteLength inside)) := by
      rw [findMatching_within hwithin rfl, hsplit]
      rfl
    refine Or.inl ⟨_, ?_, fun stop hstop => findMatching_stable hstop hmatch⟩
    have hfirst := isFirst_of_findMatching hmatch
    rw [Text.byteLength_append]
    exact hfirst.1.2.1
  | none =>
    obtain ⟨last, hrun⟩ := exists_run_of_splitEnclosed hsplit
    have hopener : escapedBehind (front ++ [bracket.opener]) = false :=
      escapedBehind_concat front (by cases bracket <;> decide)
    have hsize : bracket.opener.utf8Size = 1 := utf8Size_of_ascii (toNat_opener_lt bracket)
    have hrounds := rounds_run (front ++ [bracket.opener]) inner behind hopener.symm hrun
    rw [Text.byteLength_append, Text.byteLength_cons, hsize, List.append_assoc front,
      List.singleton_append] at hrounds
    exact Or.inr ⟨last, hrun, hrounds⟩

/-- A text that a scan passes without a trace is passed behind any bracket, unless it is escaped or
in a string. -/
theorem passed_of_neutral {mode : ScanMode} {bracket : Bracket} {front inner mid : List Char}
    (behind : List Char) (hmid : Neutral mode bracket mid)
    (hescaped : escapedBehind (front ++ bracket.opener :: inner) = false)
    (hquotes : mode = .stringAware → bareQuotes inner % 2 = 0) :
    Passed mode bracket (Text.encodeUtf8 (front ++ bracket.opener :: inner ++ mid ++ behind))
      (Text.byteLength front) (Text.byteLength (front ++ bracket.opener :: inner))
      (Text.byteLength (front ++ bracket.opener :: inner ++ mid)) := by
  have hcases := ends_or_rounds mode bracket front inner (mid ++ behind)
  rw [← List.append_assoc] at hcases
  rcases hcases with ⟨i, hi, hfound⟩ | ⟨last, hrun, hbefore⟩
  · constructor
    · intro stop j hj
      rw [← findMatching_unique (hfound (i + 1) (Nat.lt_succ_self i)) hj]
      exact Or.inl hi
    · exact Or.inl ⟨i, hi, hfound⟩
  · rw [quoted_of_run hrun hquotes] at hbefore
    have hpast := rounds_run _ mid behind hescaped.symm (hmid last.depth)
    constructor
    · intro stop j hj
      exact Or.inr (le_of_rounds (hbefore.trans hpast) hj)
    · exact Or.inr ⟨last.depth + 1, hbefore, hpast⟩

end Neutral

section Literal

variable (before text behind : List Char)

def withLiteral : List Char := before ++ ('"' :: Text.escape text ++ ['"']) ++ behind

def lastQuote : Nat := Text.byteLength before + 1 + Text.byteLength (Text.escape text)

structure OpaqueLiteral : Prop where
  /-- The search for the end of the literal finds its last quote, wherever in the text it would
  end. -/
  closes : ∀ stop, lastQuote before text < stop →
    stop ≤ (Text.encodeUtf8 (withLiteral before text behind)).length →
      findClosingQuote (Text.encodeUtf8 (withLiteral before text behind))
        (Text.byteLength before + 1) stop = .ok (some (lastQuote before text))
  /-- A scan for the closer of any bracket before the literal passes it, unless the literal is
  escaped or in a string. -/
  passed : ∀ (mode : ScanMode) (bracket : Bracket) (front inner : List Char),
    before = front ++ bracket.opener :: inner → escapedBehind before = false →
      (mode = .stringAware → bareQuotes inner % 2 = 0) →
        Passed mode bracket (Text.encodeUtf8 (withLiteral before text behind))
          (Text.byteLength front) (Text.byteLength before) (lastQuote before text + 1)

theorem byteLength_literal :
    Text.byteLength (before ++ ('"' :: Text.escape text ++ ['"'])) = lastQuote before text + 1 := by
  simp [lastQuote, show ('"' : Char).utf8Size = 1 from rfl]
  omega

/-- The search that ends directly behind the literal. -/
theorem findClosingQuote_literal :
    findClosingQuote (Text.encodeUtf8 (withLiteral before text behind)) (Text.byteLength before + 1)
      (lastQuote before text + 1) = .ok (some (lastQuote before text)) := by
  have hwithin : Span.Within (withLiteral before text behind)
      ⟨Text.byteLength before, '"' :: (Text.escape text ++ ['"'])⟩ := ⟨before, behind, rfl, rfl⟩
  have hfind := findClosingQuote_within hwithin rfl
  rw [splitQuoted_escape] at hfind
  rw [← byteLength_literal, Text.byteLength_append]
  exact hfind

/-- An escaped literal is taken as a whole, whatever it holds and whatever stands around it. -/
theorem opaqueLiteral : OpaqueLiteral before text behind where
  closes stop hquote hstop := by
    have hliteral := findClosingQuote_literal before text behind
    have hbehind := (Nat.succ_le_of_lt hquote).trans hstop
    obtain ⟨near, hnear, hfirst⟩ := findClosingQuote_isFirst hbehind
    obtain ⟨found, hfound, hlater⟩ := findClosingQuote_isFirst hstop
    rw [hliteral] at hnear
    cases hnear
    rw [hfound, hfirst.eq_some hquote hlater]
  passed mode bracket front inner hbefore hescaped hquotes := by
    subst hbefore
    rw [← byteLength_literal]
    exact passed_of_neutral behind (neutral_quote_escape text) hescaped hquotes

/-- The literal of a quote, a brace and a backslash, behind two backslashes in an object. -/
theorem opaqueLiteral_backslashes :
    findClosingQuote (Text.encodeUtf8
        (withLiteral "\x7b\\\\".toList "\"\x7d\\".toList "\x7d".toList)) 4 12 = .ok (some 10) ∧
      Passed .stringAware .curly (Text.encodeUtf8
        (withLiteral "\x7b\\\\".toList "\"\x7d\\".toList "\x7d".toList)) 0 3 11 := by
  have h := opaqueLiteral "\x7b\\\\".toList "\"\x7d\\".toList "\x7d".toList
  constructor
  · exact h.closes 12 (by decide) (by decide)
  · exact h.passed .stringAware .curly [] ['\\', '\\'] (by decide) (by decide) (by decide)

end Literal

end LenientJson
