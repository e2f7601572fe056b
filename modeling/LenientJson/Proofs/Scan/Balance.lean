import LenientJson.Proofs.Scan.Escapes
import Mathlib.Tactic

/-!
# Balanced text

A bracketed part ends where the scan that begins behind its opener comes back to its first state
and meets the closer. Text that leaves every scan as it was is neutral; neutral texts make neutral
ones side by side and between brackets, and strings without bare quotes or brackets are neutral.
-/
namespace LenientJson.Reader

/-- The scan behind a text, or nothing where the closer sought stands in it. -/
def Scan.run (mode : ScanMode) (bracket : Bracket) (s : Scan) : List Char → Option Scan
  | [] => some s
  | c :: cs => (s.step mode bracket c).bind fun next => next.run mode bracket cs

theorem Scan.run_append (mode : ScanMode) (bracket : Bracket) (s : Scan) (a b : List Char) :
    s.run mode bracket (a ++ b) =
      (s.run mode bracket a).bind fun next => next.run mode bracket b := by
  induction a generalizing s with
  | nil => rfl
  | cons c a ih =>
    rw [List.cons_append, run, run, Option.bind_assoc]
    simp only [ih]

variable {mode : ScanMode} {bracket : Bracket}

theorem Scan.step_closer_eq_none_iff {s : Scan} :
    s.step mode bracket bracket.closer = none ↔ s = {} := by
  obtain ⟨escaped, quoted, depth⟩ := s
  cases escaped <;> cases quoted <;> cases depth <;> cases bracket <;> cases mode <;>
    simp [step, Bracket.closer, Bracket.opener]

theorem splitEnclosed_append {s : Scan} {inside : List Char} (rest : List Char)
    (h : s.run mode bracket inside = some {}) :
    splitEnclosed mode bracket s (inside ++ bracket.closer :: rest) = some (inside, rest) := by
  induction inside generalizing s with
  | nil =>
    obtain rfl := Option.some.inj h
    rw [List.nil_append, splitEnclosed, Scan.step_closer_eq_none_iff.mpr rfl]
  | cons c inside ih =>
    obtain ⟨next, hstep, hrun⟩ := Option.bind_eq_some_iff.mp h
    rw [List.cons_append, splitEnclosed, hstep]
    simp [ih hrun]

theorem run_of_splitEnclosed {s : Scan} {cs inside rest : List Char}
    (h : splitEnclosed mode bracket s cs = some (inside, rest)) :
    s.run mode bracket inside = some {} := by
  induction cs generalizing s inside with
  | nil => simp [splitEnclosed] at h
  | cons c cs ih =>
    rw [splitEnclosed] at h
    cases hstep : s.step mode bracket c with
    | none =>
      have hs : s = {} := by
        rw [Scan.eq_closer_of_step hstep] at hstep
        exact Scan.step_closer_eq_none_iff.mp hstep
      simp only [hstep, Option.some.injEq, Prod.mk.injEq] at h
      rw [← h.1, hs, Scan.run]
    | some next =>
      simp only [hstep] at h
      obtain ⟨⟨tail, behind⟩, hsplit, hpair⟩ := Option.map_eq_some_iff.mp h
      obtain ⟨rfl, rfl⟩ := Prod.mk.inj hpair
      rw [Scan.run, hstep, Option.bind_some]
      exact ih hsplit

/-- A text that every scan passes without a trace. -/
def Neutral (mode : ScanMode) (bracket : Bracket) (cs : List Char) : Prop :=
  ∀ depth, Scan.run mode bracket ⟨false, false, depth⟩ cs = some ⟨false, false, depth⟩

/-- A text between brackets of one kind that a scan for their end leaves at its own closer. -/
def Balanced (mode : ScanMode) (bracket : Bracket) (inside : List Char) : Prop :=
  Scan.run mode bracket {} inside = some {}

/-- A part ends at its own closer exactly if the text between its brackets is balanced. -/
theorem splitEnclosed_eq_some_iff {cs inside rest : List Char} :
    splitEnclosed mode bracket {} cs = some (inside, rest) ↔
      cs = inside ++ bracket.closer :: rest ∧ Balanced mode bracket inside := by
  constructor
  · intro h
    exact ⟨splitEnclosed_eq_some h, run_of_splitEnclosed h⟩
  · rintro ⟨rfl, h⟩
    exact splitEnclosed_append rest h

def Scan.deeper (n : Nat) (s : Scan) : Scan := { s with depth := s.depth + n }

theorem Scan.step_deeper {s next : Scan} {c : Char} (n : Nat)
    (h : s.step mode bracket c = some next) :
    (s.deeper n).step mode bracket c = some (next.deeper n) := by
  unfold step at h
  simp only at h
  split at h
  next he => simp [step, deeper, he, ← Option.some.inj h]
  next he =>
    split at h
    next hquote => simp [step, deeper, he, hquote, ← Option.some.inj h]
    next hquote =>
      split at h
      next hquoted => simp [step, deeper, he, hquote, hquoted, ← Option.some.inj h]
      next hquoted =>
        split at h
        next ho =>
          subst ho
          simp [step, deeper, he, hquote, hquoted, ← Option.some.inj h, Nat.add_right_comm]
        next ho =>
          split at h
          next hc =>
            subst hc
            cases hdepth : s.depth with
            | zero => rw [hdepth] at h; cases h
            | succ depth =>
              rw [hdepth] at h
              simp [step, deeper, he, hquote, hquoted, ho, hdepth, ← Option.some.inj h,
                Nat.add_right_comm depth 1 n]
          next hc => simp [step, deeper, he, hquote, hquoted, ho, hc, ← Option.some.inj h]

theorem Scan.run_deeper {s last : Scan} {cs : List Char} (n : Nat)
    (h : s.run mode bracket cs = some last) :
    (s.deeper n).run mode bracket cs = some (last.deeper n) := by
  induction cs generalizing s with
  | nil => rw [← Option.some.inj h, run]
  | cons c cs ih =>
    obtain ⟨next, hstep, hrun⟩ := Option.bind_eq_some_iff.mp h
    rw [run, step_deeper n hstep, Option.bind_some, ih hrun]

theorem Neutral.balanced {cs : List Char} (h : Neutral mode bracket cs) :
    Balanced mode bracket cs := h 0

/-- What is balanced on its own is passed at every depth. -/
theorem Balanced.neutral {cs : List Char} (h : Balanced mode bracket cs) :
    Neutral mode bracket cs := by
  intro depth
  have hrun := Scan.run_deeper depth h
  simp only [Scan.deeper, Nat.zero_add] at hrun
  exact hrun

/-- A part has one end: what stands behind its closer does not matter. -/
theorem Balanced.append_inj {inside inside' rest rest' : List Char}
    (h : Balanced mode bracket inside) (h' : Balanced mode bracket inside')
    (heq : inside ++ bracket.closer :: rest = inside' ++ bracket.closer :: rest') :
    inside = inside' ∧ rest = rest' := by
  have hsplit := splitEnclosed_append rest h
  rw [heq, splitEnclosed_append rest' h'] at hsplit
  obtain ⟨hinside, hrest⟩ := Prod.mk.inj (Option.some.inj hsplit)
  exact ⟨hinside.symm, hrest.symm⟩

theorem neutral_nil : Neutral mode bracket [] := fun _ => rfl

theorem Neutral.append {a b : List Char} (ha : Neutral mode bracket a)
    (hb : Neutral mode bracket b) : Neutral mode bracket (a ++ b) := by
  intro depth
  rw [Scan.run_append, ha depth]
  exact hb depth

def isInert (c : Char) : Bool := !(c == '\\' || c == '"' || isBracket c)

theorem step_of_isInert {c : Char} (h : isInert c = true) (depth : Nat) :
    Scan.step mode bracket ⟨false, false, depth⟩ c = some ⟨false, false, depth⟩ := by
  simp only [isInert, isBracket, Bool.not_eq_true', Bool.or_eq_false_iff, beq_eq_false_iff_ne] at h
  obtain ⟨⟨hb, hq⟩, ⟨⟨h1, h2⟩, h3⟩, h4⟩ := h
  cases bracket <;>
    simp [Scan.step, escapesNext, Bracket.opener, Bracket.closer, hb, hq, h1, h2, h3, h4]

theorem neutral_of_isInert {cs : List Char} (h : ∀ c ∈ cs, isInert c = true) :
    Neutral mode bracket cs := by
  intro depth
  induction cs with
  | nil => rfl
  | cons c cs ih =>
    rw [Scan.run, step_of_isInert (h c List.mem_cons_self)]
    exact ih fun d hd => h d (List.mem_cons_of_mem c hd)

/-- Between brackets of one kind a scan for the other kind sees nothing, and a scan for the same
kind is one level deeper. -/
theorem Neutral.enclose {inside : List Char} (other : Bracket)
    (h : Neutral mode bracket inside) :
    Neutral mode bracket (other.opener :: inside ++ [other.closer]) := by
  intro depth
  rw [List.cons_append, Scan.run]
  by_cases hb : other = bracket
  · subst hb
    have hopen : Scan.step mode other ⟨false, false, depth⟩ other.opener =
        some ⟨false, false, depth + 1⟩ := by
      cases other <;> simp [Scan.step, escapesNext, Bracket.opener]
    have hclose : Scan.step mode other ⟨false, false, depth + 1⟩ other.closer =
        some ⟨false, false, depth⟩ := by
      cases other <;> simp [Scan.step, escapesNext, Bracket.opener, Bracket.closer]
    rw [hopen, Option.bind_some, Scan.run_append, h (depth + 1)]
    simp [Scan.run, hclose]
  · have hopen : Scan.step mode bracket ⟨false, false, depth⟩ other.opener =
        some ⟨false, false, depth⟩ := by
      cases other <;> cases bracket <;>
        simp [Scan.step, escapesNext, Bracket.opener, Bracket.closer] at hb ⊢
    have hclose : Scan.step mode bracket ⟨false, false, depth⟩ other.closer =
        some ⟨false, false, depth⟩ := by
      cases other <;> cases bracket <;>
        simp [Scan.step, escapesNext, Bracket.opener, Bracket.closer] at hb ⊢
    rw [hopen, Option.bind_some, Scan.run_append, h depth]
    simp [Scan.run, hclose]

/-- Inside quotes only escapes are followed: a scan that skips strings is told by its bit, and to
one that does not no bracket there is bare. -/
theorem run_inside_quotes {text : List Char} {escaped : Bool} (depth : Nat)
    (hquotes : AllEscaped (· == '"') escaped text)
    (hbrackets : mode = .legacy → AllEscaped isBracket escaped text) :
    Scan.run mode bracket ⟨escaped, mode == .stringAware, depth⟩ text =
      some ⟨text.foldl escapesNext escaped, mode == .stringAware, depth⟩ := by
  induction text generalizing escaped with
  | nil => rfl
  | cons c text ih =>
    have hstep : Scan.step mode bracket ⟨escaped, mode == .stringAware, depth⟩ c =
        some ⟨escapesNext escaped c, mode == .stringAware, depth⟩ := by
      cases escaped with
      | true => simp [Scan.step]
      | false =>
        have hc : c ≠ '"' := fun hc => Bool.noConfusion (hquotes.1 (beq_iff_eq.mpr hc))
        cases mode with
        | stringAware => simp [Scan.step, hc]
        | legacy =>
          have hb : isBracket c = false :=
            Bool.eq_false_iff.mpr fun hb => Bool.noConfusion ((hbrackets rfl).1 hb)
          simp only [isBracket, Bool.or_eq_false_iff, beq_eq_false_iff_ne] at hb
          obtain ⟨⟨⟨h1, h2⟩, h3⟩, h4⟩ := hb
          cases bracket <;> simp [Scan.step, Bracket.opener, Bracket.closer, h1, h2, h3, h4]
    rw [Scan.run, hstep, Option.bind_some, ih hquotes.2 fun hm => (hbrackets hm).2]
    rfl

theorem step_quote (quoted : Bool) (depth : Nat) :
    Scan.step mode bracket ⟨false, quoted && mode == .stringAware, depth⟩ '"' =
      some ⟨false, !quoted && mode == .stringAware, depth⟩ := by
  cases mode <;> cases quoted <;> cases bracket <;>
    simp [Scan.step, escapesNext, Bracket.opener, Bracket.closer]

theorem neutral_quote {text : List Char} (hquotes : AllEscaped (· == '"') false text)
    (hending : text.foldl escapesNext false = false)
    (hbrackets : mode = .legacy → AllEscaped isBracket false text) :
    Neutral mode bracket ('"' :: text ++ ['"']) := by
  intro depth
  have hopen : Scan.step mode bracket ⟨false, false, depth⟩ '"' =
      some ⟨false, mode == .stringAware, depth⟩ := by
    simpa using step_quote false depth
  have hclose : Scan.step mode bracket ⟨false, mode == .stringAware, depth⟩ '"' =
      some ⟨false, false, depth⟩ := by
    simpa using step_quote true depth
  rw [List.cons_append, Scan.run, hopen, Option.bind_some, Scan.run_append,
    run_inside_quotes depth hquotes hbrackets, hending]
  simp [Scan.run, hclose]

theorem neutral_quote_escape (text : List Char) :
    Neutral mode bracket ('"' :: Text.escape text ++ ['"']) :=
  neutral_quote (allEscaped_escape (fun c hc => by rw [beq_iff_eq.mp hc]; rfl) rfl text)
    (foldl_escape text) fun _ => allEscaped_escape (fun _ => isEscaped_of_isBracket) rfl text

theorem SafeIn.neutral_quote {text : List Char} (h : SafeIn mode text) :
    Neutral mode bracket ('"' :: text ++ ['"']) := by
  refine Reader.neutral_quote h.toQuotable.allEscaped ?_ ?_
  · rw [foldl_escapesNext]
    exact h.ending
  · rintro rfl
    exact h.allEscaped

end LenientJson.Reader
