import LenientJson.Options
import LenientJson.Reader.Fault

/-!
# Finding where a part ends

A quoted text ends at the first quote that is not escaped, and a bracketed part at the first
closer that balances its opener. Only one kind of bracket is counted at a time. A character is
escaped when an odd run of backslashes stands directly before it, which a scan from left to right
knows from the character before.
-/
namespace LenientJson.Reader

/-- Whether the character behind `c` is escaped. -/
def escapesNext (escaped : Bool) (c : Char) : Bool := c == '\\' && !escaped

/-- Splits at the first quote that is not escaped, into what stands before and behind it. -/
def splitQuoted (escaped : Bool) : List Char → Option (List Char × List Char)
  | [] => none
  | c :: cs =>
    if c == '"' && !escaped then some ([], cs)
    else (splitQuoted (escapesNext escaped c) cs).map fun (inside, rest) => (c :: inside, rest)

theorem splitQuoted_eq_some {escaped : Bool} {cs inside rest : List Char}
    (h : splitQuoted escaped cs = some (inside, rest)) : cs = inside ++ '"' :: rest := by
  induction cs generalizing escaped inside with
  | nil => simp [splitQuoted] at h
  | cons c cs ih =>
    simp only [splitQuoted] at h
    split at h
    next hq =>
      simp only [Bool.and_eq_true, beq_iff_eq] at hq
      simp only [Option.some.injEq, Prod.mk.injEq] at h
      simp [← h.1, ← h.2, hq.1]
    next =>
      obtain ⟨⟨tail, behind⟩, hsplit, hpair⟩ := Option.map_eq_some_iff.mp h
      simp only [Prod.mk.injEq] at hpair
      obtain ⟨rfl, rfl⟩ := hpair
      rw [ih hsplit, List.cons_append]

/-- What a scan for a closer knows behind a character: whether the next one is escaped, whether
it stands in a string, and how many brackets are open beside the one to be closed. -/
structure Scan where
  escaped : Bool := false
  quoted : Bool := false
  depth : Nat := 0
  deriving DecidableEq, Repr

/-- The scan behind one more character, or nothing where that character is the closer sought. -/
def Scan.step (mode : ScanMode) (bracket : Bracket) (s : Scan) (c : Char) : Option Scan :=
  let next := { s with escaped := escapesNext s.escaped c }
  if s.escaped then some next
  else if mode = .stringAware ∧ c = '"' then some { next with quoted := !s.quoted }
  else if s.quoted then some next
  else if c = bracket.opener then some { next with depth := s.depth + 1 }
  else if c = bracket.closer then
    match s.depth with
    | 0 => none
    | depth + 1 => some { next with depth := depth }
  else some next

/-- Splits at the closer sought, into what stands before and behind it. -/
def splitEnclosed (mode : ScanMode) (bracket : Bracket) (s : Scan) :
    List Char → Option (List Char × List Char)
  | [] => none
  | c :: cs =>
    match s.step mode bracket c with
    | none => some ([], cs)
    | some next =>
      (splitEnclosed mode bracket next cs).map fun (inside, rest) => (c :: inside, rest)

theorem Scan.eq_closer_of_step {mode : ScanMode} {bracket : Bracket} {s : Scan} {c : Char}
    (h : s.step mode bracket c = none) : c = bracket.closer := by
  unfold Scan.step at h
  simp only at h
  repeat' split at h
  all_goals simp_all

theorem splitEnclosed_eq_some {mode : ScanMode} {bracket : Bracket} {s : Scan}
    {cs inside rest : List Char} (h : splitEnclosed mode bracket s cs = some (inside, rest)) :
    cs = inside ++ bracket.closer :: rest := by
  induction cs generalizing s inside with
  | nil => simp [splitEnclosed] at h
  | cons c cs ih =>
    simp only [splitEnclosed] at h
    split at h
    next hstep =>
      simp only [Option.some.injEq, Prod.mk.injEq] at h
      simp [← h.1, ← h.2, Scan.eq_closer_of_step hstep]
    next =>
      obtain ⟨⟨tail, behind⟩, hsplit, hpair⟩ := Option.map_eq_some_iff.mp h
      simp only [Prod.mk.injEq] at hpair
      obtain ⟨rfl, rfl⟩ := hpair
      rw [ih hsplit, List.cons_append]

end LenientJson.Reader
