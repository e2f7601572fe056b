import LenientJson.Proofs.Scan.Balance
import LenientJson.Reader.Outline
import Mathlib.Data.List.TakeWhile

/-!
# What is taken from a span

One rule for each way in which a piece, a key or a member can stand at the front of a span. Each
relation holds of exactly what the corresponding reader returns, so that later arguments are case
distinctions on its rules.
-/
namespace LenientJson.Reader

/-- A piece at the front of a span and the span behind it. -/
inductive Taken (mode : ScanMode) (s : Span) : Piece → Span → Prop
  | quoted {text tail : List Char} (chars : s.chars = '"' :: (text ++ '"' :: tail))
      (quotable : Quotable text) : Taken mode s (.quoted text) (s.past '"' text '"' tail)
  | enclosed {bracket : Bracket} {inside tail : List Char}
      (chars : s.chars = bracket.opener :: (inside ++ bracket.closer :: tail))
      (balanced : Balanced mode bracket inside) :
      Taken mode s (.enclosed bracket ⟨s.offset, inside⟩)
        (s.past bracket.opener inside bracket.closer tail)
  | word {taken tail : List Char} (chars : s.chars = taken ++ tail)
      (first : ∀ c, s.chars.head? = some c → c ≠ '"' ∧ c ≠ '\x7b' ∧ c ≠ '[')
      (inside : ∀ c ∈ taken, c ≠ ',') (behind : ∀ c, tail.head? = some c → c = ',')
      (nonempty : Text.trim Text.isWhiteSpace taken ≠ []) :
      Taken mode s (.word (Text.trim Text.isWhiteSpace taken)) (s.advance taken tail)

theorem takeQuoted_eq_ok_iff {s rest : Span} {cs text : List Char} :
    takeQuoted s cs = .ok (text, rest) ↔
      ∃ tail, cs = text ++ '"' :: tail ∧ Quotable text ∧ rest = s.past '"' text '"' tail := by
  unfold takeQuoted
  constructor
  · intro h
    split at h
    · simp at h
    next inside behind hsplit =>
      simp only [Except.ok.injEq, Prod.mk.injEq] at h
      obtain ⟨rfl, rfl⟩ := h
      exact ⟨behind, splitQuoted_eq_some hsplit, quotable_of_splitQuoted hsplit, rfl⟩
  · rintro ⟨tail, rfl, hquotable, rfl⟩
    rw [hquotable.splitQuoted]

theorem takeEnclosed_eq_ok_iff {mode : ScanMode} {bracket : Bracket} {s rest : Span}
    {cs : List Char} {part : Enclosed} :
    takeEnclosed mode bracket s cs = .ok (part, rest) ↔
      ∃ inside tail, cs = inside ++ bracket.closer :: tail ∧ Balanced mode bracket inside ∧
        part = ⟨s.offset, inside⟩ ∧ rest = s.past bracket.opener inside bracket.closer tail := by
  unfold takeEnclosed
  constructor
  · intro h
    split at h
    · simp at h
    next inside behind hsplit =>
      simp only [Except.ok.injEq, Prod.mk.injEq] at h
      obtain ⟨rfl, rfl⟩ := h
      obtain ⟨hcs, hbalanced⟩ := splitEnclosed_eq_some_iff.mp hsplit
      exact ⟨inside, behind, hcs, hbalanced, rfl, rfl⟩
  · rintro ⟨inside, tail, rfl, hbalanced, rfl, rfl⟩
    rw [splitEnclosed_eq_some_iff.mpr ⟨rfl, hbalanced⟩]

/-- A list is cut before its first character of some kind in one way only. -/
theorem takeWhile_dropWhile_iff {p : Char → Bool} {cs taken tail : List Char} :
    cs.takeWhile p = taken ∧ cs.dropWhile p = tail ↔
      cs = taken ++ tail ∧ (∀ c ∈ taken, p c = true) ∧ ∀ c, tail.head? = some c → p c = false := by
  constructor
  · rintro ⟨rfl, rfl⟩
    refine ⟨List.takeWhile_append_dropWhile.symm, fun c hc => List.mem_takeWhile_imp hc,
      fun c hc => ?_⟩
    have hhead := List.head?_dropWhile_not p cs
    rw [hc] at hhead
    exact hhead
  · rintro ⟨rfl, htaken, htail⟩
    have htail' : tail.takeWhile p = [] ∧ tail.dropWhile p = tail := by
      cases tail with
      | nil => exact ⟨rfl, rfl⟩
      | cons c tail => simp [htail c rfl]
    rw [List.takeWhile_append_of_pos htaken, List.dropWhile_append_of_pos htaken, htail'.1,
      htail'.2, List.append_nil]
    exact ⟨rfl, rfl⟩

theorem takeWhile_ne_append_cons {c : Char} {front : List Char} (back : List Char)
    (h : c ∉ front) : (front ++ c :: back).takeWhile (· != c) = front := by
  have hne : ∀ d ∈ front, (d != c) = true := by
    intro d hd
    rw [bne_iff_ne]
    rintro rfl
    exact h hd
  exact (takeWhile_dropWhile_iff.mpr ⟨rfl, hne, fun d hd => by simp [← Option.some.inj hd]⟩).1

theorem takeWord_eq_ok_iff {s rest : Span} {word : List Char} :
    takeWord s = .ok (word, rest) ↔ ∃ taken tail, s.chars = taken ++ tail ∧
      (∀ c ∈ taken, c ≠ ',') ∧ (∀ c, tail.head? = some c → c = ',') ∧
      word = Text.trim Text.isWhiteSpace taken ∧ word ≠ [] ∧ rest = s.advance taken tail := by
  unfold takeWord
  simp only
  constructor
  · intro h
    split at h
    · simp at h
    next hword =>
      simp only [Except.ok.injEq, Prod.mk.injEq] at h
      obtain ⟨rfl, rfl⟩ := h
      obtain ⟨hchars, hinside, hbehind⟩ := takeWhile_dropWhile_iff.mp
        ⟨(rfl : s.chars.takeWhile (· != ',') = _), (rfl : s.chars.dropWhile (· != ',') = _)⟩
      refine ⟨_, _, hchars, fun c hc => by simpa using hinside c hc,
        fun c hc => by simpa using hbehind c hc, rfl, ?_, rfl⟩
      simpa using hword
  · rintro ⟨taken, tail, hchars, hinside, hbehind, rfl, hne, rfl⟩
    obtain ⟨htaken, htail⟩ := takeWhile_dropWhile_iff.mpr ⟨hchars,
      (fun c hc => by simpa using hinside c hc : ∀ c ∈ taken, (c != ',') = true),
      fun c hc => by simpa using hbehind c hc⟩
    rw [htaken, htail]
    simp [hne]

section Piece

variable {mode : ScanMode} {s : Span} {cs : List Char}

theorem takePiece_quote (hs : s.chars = '"' :: cs) : takePiece mode s =
    (takeQuoted s cs).map fun (text, rest) => (.quoted text, rest) := by
  unfold takePiece
  rw [hs]
  rfl

theorem takePiece_opener {bracket : Bracket} (hs : s.chars = bracket.opener :: cs) :
    takePiece mode s = (takeEnclosed mode bracket s cs).map fun (part, rest) =>
      (.enclosed bracket part, rest) := by
  unfold takePiece
  rw [hs]
  cases bracket <;> rfl

theorem takePiece_bare (hs : ∀ c, s.chars.head? = some c → c ≠ '"' ∧ c ≠ '\x7b' ∧ c ≠ '[') :
    takePiece mode s = (takeWord s).map fun (word, rest) => (.word word, rest) := by
  unfold takePiece
  split
  next cs hquote => exact absurd rfl (hs '"' (by rw [hquote]; rfl)).1
  next cs hcurly => exact absurd rfl (hs '\x7b' (by rw [hcurly]; rfl)).2.1
  next cs hsquare => exact absurd rfl (hs '[' (by rw [hsquare]; rfl)).2.2
  next => rfl

end Piece

/-- The first character tells which kind of piece stands here. -/
theorem takePiece_eq_ok_iff {mode : ScanMode} {s rest : Span} {piece : Piece} :
    takePiece mode s = .ok (piece, rest) ↔ Taken mode s piece rest := by
  constructor
  · intro h
    unfold takePiece at h
    split at h
    next cs hs =>
      obtain ⟨⟨text, behind⟩, htake, hpair⟩ := exists_of_map_eq_ok h
      obtain ⟨tail, rfl, hquotable, rfl⟩ := takeQuoted_eq_ok_iff.mp htake
      obtain ⟨rfl, rfl⟩ := Prod.mk.inj hpair
      exact .quoted hs hquotable
    next cs hs =>
      obtain ⟨⟨part, behind⟩, htake, hpair⟩ := exists_of_map_eq_ok h
      obtain ⟨inside, tail, rfl, hbalanced, rfl, rfl⟩ := takeEnclosed_eq_ok_iff.mp htake
      obtain ⟨rfl, rfl⟩ := Prod.mk.inj hpair
      exact .enclosed (by exact hs) hbalanced
    next cs hs =>
      obtain ⟨⟨part, behind⟩, htake, hpair⟩ := exists_of_map_eq_ok h
      obtain ⟨inside, tail, rfl, hbalanced, rfl, rfl⟩ := takeEnclosed_eq_ok_iff.mp htake
      obtain ⟨rfl, rfl⟩ := Prod.mk.inj hpair
      exact .enclosed (by exact hs) hbalanced
    next hquote hcurly hsquare =>
      obtain ⟨⟨word, behind⟩, htake, hpair⟩ := exists_of_map_eq_ok h
      obtain ⟨taken, tail, hchars, hinside, hbehind, rfl, hne, rfl⟩ :=
        takeWord_eq_ok_iff.mp htake
      obtain ⟨rfl, rfl⟩ := Prod.mk.inj hpair
      refine .word hchars (fun c hc => ?_) hinside hbehind hne
      obtain ⟨more, hmore⟩ : ∃ more, s.chars = c :: more := List.head?_eq_some_iff.mp hc
      refine ⟨?_, ?_, ?_⟩
      · rintro rfl
        exact hquote more hmore
      · rintro rfl
        exact hcurly more hmore
      · rintro rfl
        exact hsquare more hmore
  · intro h
    cases h with
    | quoted hchars hquotable =>
      rw [takePiece_quote hchars, takeQuoted_eq_ok_iff.mpr ⟨_, rfl, hquotable, rfl⟩]
      rfl
    | enclosed hchars hbalanced =>
      rw [takePiece_opener hchars, takeEnclosed_eq_ok_iff.mpr ⟨_, _, rfl, hbalanced, rfl, rfl⟩]
      rfl
    | word hchars hfirst hinside hbehind hne =>
      rw [takePiece_bare hfirst,
        takeWord_eq_ok_iff.mpr ⟨_, _, hchars, hinside, hbehind, rfl, hne, rfl⟩]
      rfl

inductive KeyTaken (s : Span) : List Char → Span → Prop
  | quoted {text tail : List Char} (chars : s.chars = '"' :: (text ++ '"' :: tail))
      (quotable : Quotable text) :
      KeyTaken s (Text.unescape text) (s.past '"' text '"' tail)
  | bare {taken tail : List Char} (chars : s.chars = taken ++ ':' :: tail)
      (first : s.chars.head? ≠ some '"') (inside : ∀ c ∈ taken, c ≠ ':') :
      KeyTaken s (Text.trimEnd Text.isWhiteSpace taken) (s.advance taken (':' :: tail))

theorem takeKey_quote {s : Span} {cs : List Char} (hs : s.chars = '"' :: cs) :
    takeKey s = (takeQuoted s cs).map fun (text, rest) => (Text.unescape text, rest) := by
  unfold takeKey
  rw [hs]
  rfl

theorem takeKey_of_not_mem {s : Span} (first : s.chars.head? ≠ some '"') (h : ':' ∉ s.chars) :
    takeKey s = .error (.malformed .missingKey s.offset) := by
  have hnil : s.chars.dropWhile (· != ':') = [] := by
    rw [List.dropWhile_eq_nil_iff]
    intro c hc
    rw [bne_iff_ne]
    rintro rfl
    exact h hc
  unfold takeKey
  split
  next cs hs => exact absurd (by rw [hs]; rfl) first
  next => simp only [hnil]

theorem takeKey_eq_ok_iff {s rest : Span} {key : List Char} :
    takeKey s = .ok (key, rest) ↔ KeyTaken s key rest := by
  constructor
  · intro h
    unfold takeKey at h
    split at h
    next cs hs =>
      obtain ⟨⟨text, behind⟩, htake, hpair⟩ := exists_of_map_eq_ok h
      obtain ⟨tail, rfl, hquotable, rfl⟩ := takeQuoted_eq_ok_iff.mp htake
      obtain ⟨rfl, rfl⟩ := Prod.mk.inj hpair
      exact .quoted hs hquotable
    next hquote =>
      simp only at h
      split at h
      · simp at h
      next rest' hne =>
        obtain ⟨rfl, rfl⟩ := Prod.mk.inj (Except.ok.inj h)
        obtain ⟨hchars, hinside, hbehind⟩ := takeWhile_dropWhile_iff.mp
          ⟨(rfl : s.chars.takeWhile (· != ':') = _), (rfl : s.chars.dropWhile (· != ':') = _)⟩
        obtain ⟨c, tail, htail⟩ := List.exists_cons_of_ne_nil hne
        obtain rfl : c = ':' := by simpa using hbehind c (by rw [htail]; rfl)
        rw [htail]
        refine .bare (by rw [htail] at hchars; exact hchars) (fun hhead => ?_)
          fun d hd => by simpa using hinside d hd
        obtain ⟨more, hmore⟩ := List.head?_eq_some_iff.mp hhead
        exact hquote more hmore
  · intro h
    cases h with
    | quoted hchars hquotable =>
      rw [takeKey_quote hchars, takeQuoted_eq_ok_iff.mpr ⟨_, rfl, hquotable, rfl⟩]
      rfl
    | @bare taken tail hchars hfirst hinside =>
      unfold takeKey
      obtain ⟨htaken, htail⟩ := takeWhile_dropWhile_iff.mpr ⟨hchars,
        (fun c hc => by simpa using hinside c hc : ∀ c ∈ taken, (c != ':') = true),
        fun c hc => by simp [← Option.some.inj hc]⟩
      split
      next cs hs => exact absurd (by rw [hs]; rfl) hfirst
      next => simp only [htaken, htail]

theorem takeColon_eq_ok_iff {s rest : Span} :
    takeColon s = .ok rest ↔ ∃ tail, s.chars = ':' :: tail ∧ rest = s.advance [':'] tail := by
  unfold takeColon
  constructor
  · intro h
    split at h
    next tail hs => exact ⟨tail, hs, (Except.ok.inj h).symm⟩
    · simp at h
  · rintro ⟨tail, hs, rfl⟩
    simp only [hs]

theorem takeColon_of_ne {s : Span} (h : s.chars.head? ≠ some ':') :
    takeColon s = .error (.malformed .missingColon s.offset) := by
  unfold takeColon
  split
  next tail hs => exact absurd (by rw [hs]; rfl) h
  next => rfl

/-- A member is a key, a colon and a piece with blanks around the colon. -/
theorem takeMember_eq_ok_iff {mode : ScanMode} {s rest : Span} {name : String} {piece : Piece} :
    takeMember mode s = .ok ((name, piece), rest) ↔
      ∃ key behindKey behindColon, KeyTaken s key behindKey ∧ name = .ofList key ∧
        takeColon (behindKey.skipWhile Text.isBlank) = .ok behindColon ∧
        Taken mode (behindColon.skipWhile Text.isBlank) piece rest := by
  unfold takeMember
  constructor
  · intro h
    cases hkey : takeKey s with
    | error fault => simp [hkey, bind, Except.bind] at h
    | ok keyed =>
      cases hcolon : takeColon (keyed.2.skipWhile Text.isBlank) with
      | error fault => simp [hkey, hcolon, bind, Except.bind] at h
      | ok behindColon =>
        cases hpiece : takePiece mode (behindColon.skipWhile Text.isBlank) with
        | error fault => simp [hkey, hcolon, hpiece, bind, Except.bind] at h
        | ok taken =>
          simp only [hkey, hcolon, hpiece, bind, Except.bind, pure, Except.pure, Except.ok.injEq,
            Prod.mk.injEq] at h
          obtain ⟨⟨rfl, rfl⟩, rfl⟩ := h
          exact ⟨keyed.1, keyed.2, behindColon, takeKey_eq_ok_iff.mp hkey, rfl, hcolon,
            takePiece_eq_ok_iff.mp hpiece⟩
  · rintro ⟨key, behindKey, behindColon, hkey, rfl, hcolon, hpiece⟩
    simp only [takeKey_eq_ok_iff.mpr hkey, hcolon, takePiece_eq_ok_iff.mpr hpiece, bind,
      Except.bind, pure, Except.pure]

theorem takeStreamed_eq_ok_iff {mode : ScanMode} {s rest : Span} {part : Enclosed} :
    takeStreamed mode s = .ok (part, rest) ↔ Taken mode s (.enclosed .curly part) rest := by
  constructor
  · intro h
    unfold takeStreamed at h
    split at h
    next cs hs =>
      obtain ⟨inside, tail, rfl, hbalanced, rfl, rfl⟩ := takeEnclosed_eq_ok_iff.mp h
      exact .enclosed (by exact hs) hbalanced
    · simp at h
  · rintro (_ | ⟨hchars, hbalanced⟩ | _)
    unfold takeStreamed
    rw [hchars]
    exact takeEnclosed_eq_ok_iff.mpr ⟨_, _, rfl, hbalanced, rfl, rfl⟩

def Piece.PartIn (S : Enclosed → Prop) : Piece → Prop
  | .enclosed _ part => S part
  | _ => True

theorem Piece.partIn_true (piece : Piece) : piece.PartIn fun _ => True := by
  cases piece <;> trivial

theorem Piece.PartIn.mono {S S' : Enclosed → Prop} {piece : Piece} (h : piece.PartIn S)
    (hS : ∀ part, S part → S' part) : piece.PartIn S' := by
  cases piece with
  | enclosed bracket part => exact hS part h
  | _ => trivial

section Errors

variable {mode : ScanMode} {s : Span} {fault : Fault}

def IsMalformed (fault : Fault) : Prop := ∃ malformation, fault.cause = .malformed malformation

theorem isMalformed_takeQuoted {cs : List Char} (h : takeQuoted s cs = .error fault) :
    IsMalformed fault := by
  unfold takeQuoted at h
  split at h
  · exact ⟨_, by rw [← Except.error.inj h]; rfl⟩
  · simp at h

theorem isMalformed_takeEnclosed {bracket : Bracket} {cs : List Char}
    (h : takeEnclosed mode bracket s cs = .error fault) : IsMalformed fault := by
  unfold takeEnclosed at h
  split at h
  · exact ⟨_, by rw [← Except.error.inj h]; rfl⟩
  · simp at h

theorem error_of_map {α β : Type} {f : α → β} {x : Except Fault α}
    (h : x.map f = .error fault) : x = .error fault := by
  cases x with
  | ok a => simp [Except.map] at h
  | error other => exact congrArg Except.error (Except.error.inj h)

theorem isMalformed_takePiece (h : takePiece mode s = .error fault) : IsMalformed fault := by
  unfold takePiece at h
  split at h
  · exact isMalformed_takeQuoted (error_of_map h)
  · exact isMalformed_takeEnclosed (error_of_map h)
  · exact isMalformed_takeEnclosed (error_of_map h)
  · have hword := error_of_map h
    unfold takeWord at hword
    simp only at hword
    split at hword
    · exact ⟨_, by rw [← Except.error.inj hword]; rfl⟩
    · simp at hword

theorem isMalformed_takeKey (h : takeKey s = .error fault) : IsMalformed fault := by
  unfold takeKey at h
  split at h
  · exact isMalformed_takeQuoted (error_of_map h)
  · simp only at h
    split at h
    · exact ⟨_, by rw [← Except.error.inj h]; rfl⟩
    · simp at h

theorem isMalformed_takeColon (h : takeColon s = .error fault) : IsMalformed fault := by
  unfold takeColon at h
  split at h
  · simp at h
  · exact ⟨_, by rw [← Except.error.inj h]; rfl⟩

theorem isMalformed_takeMember (h : takeMember mode s = .error fault) : IsMalformed fault := by
  unfold takeMember at h
  cases hkey : takeKey s with
  | error first =>
    simp only [hkey, bind, Except.bind, Except.error.injEq] at h
    rw [← h]
    exact isMalformed_takeKey hkey
  | ok keyed =>
    cases hcolon : takeColon (keyed.2.skipWhile Text.isBlank) with
    | error second =>
      simp only [hkey, hcolon, bind, Except.bind, Except.error.injEq] at h
      rw [← h]
      exact isMalformed_takeColon hcolon
    | ok behindColon =>
      cases hpiece : takePiece mode (behindColon.skipWhile Text.isBlank) with
      | error third =>
        simp only [hkey, hcolon, hpiece, bind, Except.bind, Except.error.injEq] at h
        rw [← h]
        exact isMalformed_takePiece hpiece
      | ok taken => simp [hkey, hcolon, hpiece, bind, Except.bind, pure, Except.pure] at h

theorem isMalformed_takeStreamed (h : takeStreamed mode s = .error fault) :
    IsMalformed fault := by
  unfold takeStreamed at h
  split at h
  · exact isMalformed_takeEnclosed h
  · exact ⟨_, by rw [← Except.error.inj h]; rfl⟩

end Errors

end LenientJson.Reader
