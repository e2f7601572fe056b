import LenientJson.Proofs.Reading.Framed
import LenientJson.Proofs.Reading.Places

/-!
# Accepted objects in other texts

A text in braces that is accepted on its own can be a part of another text. There it ends at the
same brace, and it is read as the same object if there is one level more.
-/
namespace LenientJson.Reader

variable {mode : ScanMode} {limit : Option Nat} {text : List Char}

/-- The inside of braces that is read as the object wherever it stands, on the levels that the limit
gives or more. Without a limit it needs no more levels than it has characters, and one. -/
structure Braced (mode : ScanMode) (limit : Option Nat) (inside : List Char) (o : Object) :
    Prop where
  balanced : Balanced mode .curly inside
  reads : ∀ opener limit' depth, limit.getD (inside.length + 1) ≤ depth →
    ((Level.ofDepth mode limit' depth).object ⟨opener, inside⟩).result = .ok o

def BracedPart (mode : ScanMode) (limit : Option Nat) (o : Object) (part : Enclosed) : Prop :=
  Braced mode limit part.inside o

theorem braced_of_parse {o : Object} (opens : text.head? = some Bracket.curly.opener)
    (h : Object.parse text ⟨mode, limit⟩ = .ok o) :
    ∃ inside blanks, text = (Bracket.curly.opener :: inside ++ [Bracket.curly.closer]) ++ blanks ∧
      (∀ c ∈ blanks, Text.isBlank c = true) ∧ Braced mode limit inside o := by
  have hread := mapError_eq_ok_iff.mp h
  cases framedRead_object ⟨mode, limit⟩ opens with
  | refused offset hzero eq => rw [eq] at hread; cases hread
  | malformed fault form eq => rw [eq] at hread; cases hread
  | part inside blanks chars blank balanced hzero eq =>
    rw [eq] at hread
    refine ⟨inside, blanks, by simp [chars], blank, balanced, fun opener limit' depth hdepth => ?_⟩
    cases limit with
    | some m => exact (Level.covers_ofDepth hdepth).object _ _ _ _ hread
    | none =>
      have hlength : ((Level.ofDepth mode 0 (inside.length + 1)).object ⟨0, inside⟩).result =
          .ok o := Level.object_ofDepth_of_length hread (Nat.lt_succ_self inside.length)
      exact (Level.covers_ofDepth hdepth).object _ _ _ _ hlength

/-- With one level more than the limit gives, the levels below the first are enough for what the
limit allows within the text. -/
theorem exists_levels_map_succ (mode : ScanMode) (limit : Option Nat) (text : List Char) :
    ∃ below, levels ⟨mode, limit.map (· + 1)⟩ text = below + 1 ∧
      ∀ n, n < text.length → limit.getD (n + 1) ≤ below := by
  cases limit with
  | some m => exact ⟨m, rfl, fun _ _ => le_rfl⟩
  | none => exact ⟨text.length, rfl, fun _ hn => hn⟩

end LenientJson.Reader
