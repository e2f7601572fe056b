import LenientJson.Reader.Scan
import LenientJson.Text.Escape
import LenientJson.Text.Span

/-!
# Outlines

The outline of a bracketed part is the list of its members or elements, each cut out but not yet
read: a quoted text, a word, or a bracketed part in its turn. A fault ends an outline; the items
before it stay, since a fault inside one of them comes first. Items are separated by commas, and
any number of blanks and commas may stand before the first, between two and behind the last.
-/
namespace LenientJson.Reader

/-- A bracketed part: the offset of its opener and the characters up to its closer. -/
structure Enclosed where
  opener : Nat
  inside : List Char
  deriving DecidableEq, Repr

/-- The span between the brackets; an opener is one byte long. -/
def Enclosed.body (e : Enclosed) : Span := ⟨e.opener + 1, e.inside⟩

inductive Piece where
  | quoted (text : List Char)
  | word (text : List Char)
  | enclosed (bracket : Bracket) (part : Enclosed)
  deriving DecidableEq, Repr

/-- Takes a quoted text whose opening quote stands before `cs`. -/
def takeQuoted (s : Span) (cs : List Char) : Except Fault (List Char × Span) :=
  match splitQuoted false cs with
  | none => .error (.malformed .unterminatedString s.offset)
  | some (inside, rest) => .ok (inside, s.past '"' inside '"' rest)

/-- Takes a bracketed part whose opener stands before `cs`. -/
def takeEnclosed (mode : ScanMode) (bracket : Bracket) (s : Span) (cs : List Char) :
    Except Fault (Enclosed × Span) :=
  match splitEnclosed mode bracket {} cs with
  | none => .error (.malformed (.unmatched bracket) s.offset)
  | some (inside, rest) =>
    .ok (⟨s.offset, inside⟩, s.past bracket.opener inside bracket.closer rest)

/-- Takes the characters up to a comma and drops white space around them. -/
def takeWord (s : Span) : Except Fault (List Char × Span) :=
  let taken := s.chars.takeWhile (· != ',')
  let word := Text.trim Text.isWhiteSpace taken
  if word.isEmpty then .error (.malformed .missingValue s.offset)
  else .ok (word, s.advance taken (s.chars.dropWhile (· != ',')))

def takePiece (mode : ScanMode) (s : Span) : Except Fault (Piece × Span) :=
  match s.chars with
  | '"' :: cs => (takeQuoted s cs).map fun (text, rest) => (.quoted text, rest)
  | '\x7b' :: cs => (takeEnclosed mode .curly s cs).map fun (part, rest) =>
      (.enclosed .curly part, rest)
  | '[' :: cs => (takeEnclosed mode .square s cs).map fun (part, rest) =>
      (.enclosed .square part, rest)
  | _ => (takeWord s).map fun (word, rest) => (.word word, rest)

/-- Takes a key, quoted or bare; a bare one ends before a colon and loses white space there. -/
def takeKey (s : Span) : Except Fault (List Char × Span) :=
  match s.chars with
  | '"' :: cs => (takeQuoted s cs).map fun (text, rest) => (Text.unescape text, rest)
  | cs =>
    let taken := cs.takeWhile (· != ':')
    match cs.dropWhile (· != ':') with
    | [] => .error (.malformed .missingKey s.offset)
    | rest => .ok (Text.trimEnd Text.isWhiteSpace taken, s.advance taken rest)

def takeColon (s : Span) : Except Fault Span :=
  match s.chars with
  | ':' :: rest => .ok (s.advance [':'] rest)
  | _ => .error (.malformed .missingColon s.offset)

def takeMember (mode : ScanMode) (s : Span) : Except Fault ((String × Piece) × Span) := do
  let (key, behindKey) ← takeKey s
  let behindColon ← takeColon (behindKey.skipWhile Text.isBlank)
  let (piece, rest) ← takePiece mode (behindColon.skipWhile Text.isBlank)
  return ((.ofList key, piece), rest)

/-- Takes an object of a stream, where nothing but objects may stand. -/
def takeStreamed (mode : ScanMode) (s : Span) : Except Fault (Enclosed × Span) :=
  match s.chars with
  | '\x7b' :: cs => takeEnclosed mode .curly s cs
  | _ => .error (.malformed .foreignInStream s.offset)

/-- Whatever is taken is at least one character. -/
def Consumes {α : Type} (take : Span → Except Fault (α × Span)) : Prop :=
  ∀ s item rest, take s = .ok (item, rest) → rest.chars.length < s.chars.length

theorem exists_of_map_eq_ok {ε α β : Type} {f : α → β} {x : Except ε α} {b : β}
    (h : x.map f = .ok b) : ∃ a, x = .ok a ∧ f a = b := by
  cases x with
  | error fault => simp [Except.map] at h
  | ok a => exact ⟨a, rfl, by simpa [Except.map] using h⟩

theorem length_of_takeQuoted {s rest : Span} {cs text : List Char}
    (h : takeQuoted s cs = .ok (text, rest)) : rest.chars.length < cs.length := by
  unfold takeQuoted at h
  split at h
  · simp at h
  next inside behind hsplit =>
    simp only [Except.ok.injEq, Prod.mk.injEq] at h
    rw [← h.2, splitQuoted_eq_some hsplit]
    simp only [Span.past, List.length_append, List.length_cons]
    omega

theorem length_of_takeEnclosed {mode : ScanMode} {bracket : Bracket} {s rest : Span}
    {cs : List Char} {part : Enclosed} (h : takeEnclosed mode bracket s cs = .ok (part, rest)) :
    rest.chars.length < cs.length := by
  unfold takeEnclosed at h
  split at h
  · simp at h
  next inside behind hsplit =>
    simp only [Except.ok.injEq, Prod.mk.injEq] at h
    rw [← h.2, splitEnclosed_eq_some hsplit]
    simp only [Span.past, List.length_append, List.length_cons]
    omega

theorem consumes_takeWord : Consumes takeWord := by
  intro s word rest h
  unfold takeWord at h
  simp only at h
  split at h
  · simp at h
  next hword =>
    simp only [Except.ok.injEq, Prod.mk.injEq] at h
    rw [← h.2]
    have hsplit := congrArg List.length
      (List.takeWhile_append_dropWhile (p := (· != ',')) (l := s.chars))
    rw [List.length_append] at hsplit
    have htaken : 0 < (s.chars.takeWhile (· != ',')).length := by
      refine List.length_pos_iff.mpr fun hnil => ?_
      simp [hnil, Text.trim, Text.trimStart, Text.trimEnd] at hword
    simp only [Span.advance]
    omega

theorem consumes_takePiece (mode : ScanMode) : Consumes (takePiece mode) := by
  intro s piece rest h
  unfold takePiece at h
  split at h
  next cs hs =>
    obtain ⟨⟨text, behind⟩, htake, hpair⟩ := exists_of_map_eq_ok h
    have := length_of_takeQuoted htake
    simp_all; omega
  next cs hs =>
    obtain ⟨⟨text, behind⟩, htake, hpair⟩ := exists_of_map_eq_ok h
    have := length_of_takeEnclosed htake
    simp_all; omega
  next cs hs =>
    obtain ⟨⟨text, behind⟩, htake, hpair⟩ := exists_of_map_eq_ok h
    have := length_of_takeEnclosed htake
    simp_all; omega
  next =>
    obtain ⟨⟨text, behind⟩, htake, hpair⟩ := exists_of_map_eq_ok h
    have := consumes_takeWord s text behind htake
    simp_all

theorem length_of_takeKey {s rest : Span} {key : List Char} (h : takeKey s = .ok (key, rest)) :
    rest.chars.length ≤ s.chars.length := by
  unfold takeKey at h
  split at h
  next cs hs =>
    obtain ⟨⟨text, behind⟩, htake, hpair⟩ := exists_of_map_eq_ok h
    have := length_of_takeQuoted htake
    simp_all; omega
  next =>
    simp only at h
    split at h
    · simp at h
    next hrest _ =>
      simp only [Except.ok.injEq, Prod.mk.injEq] at h
      rw [← h.2]
      exact (List.dropWhile_suffix _).length_le

theorem length_of_takeColon {s rest : Span} (h : takeColon s = .ok rest) :
    rest.chars.length < s.chars.length := by
  unfold takeColon at h
  split at h
  next behind hs =>
    simp only [Except.ok.injEq] at h
    simp [← h, hs, Span.advance]
  · simp at h

theorem consumes_takeMember (mode : ScanMode) : Consumes (takeMember mode) := by
  intro s member rest h
  unfold takeMember at h
  cases hkey : takeKey s with
  | error fault => simp [hkey, bind, Except.bind] at h
  | ok keyed =>
    cases hcolon : takeColon (keyed.2.skipWhile Text.isBlank) with
    | error fault => simp [hkey, hcolon, bind, Except.bind] at h
    | ok behindColon =>
      cases hpiece : takePiece mode (behindColon.skipWhile Text.isBlank) with
      | error fault => simp [hkey, hcolon, hpiece, bind, Except.bind] at h
      | ok taken =>
        simp only [hkey, hcolon, hpiece, bind, Except.bind, pure, Except.pure, Except.ok.injEq,
          Prod.mk.injEq] at h
        have hk := length_of_takeKey hkey
        have hc := length_of_takeColon hcolon
        have hp := consumes_takePiece mode _ _ _ hpiece
        have hb := Span.length_skipWhile_le Text.isBlank keyed.2
        have hv := Span.length_skipWhile_le Text.isBlank behindColon
        rw [← h.2]
        omega

theorem consumes_takeStreamed (mode : ScanMode) : Consumes (takeStreamed mode) := by
  intro s part rest h
  unfold takeStreamed at h
  split at h
  next cs hs =>
    have := length_of_takeEnclosed h
    simp_all; omega
  · simp at h

structure Outline (α : Type) where
  items : List α
  fault : Option Fault

/-- An item in front of what follows it. -/
def Outline.cons {α : Type} (item : α) (rest : Outline α) : Outline α :=
  ⟨item :: rest.items, rest.fault⟩

/-- Whether a separator or the end stands here. -/
def atBoundary (s : Span) : Bool :=
  match s.chars with
  | [] => true
  | c :: _ => c == ','

/-- Takes items until the end of the span or a fault. -/
def outline {α : Type} (siblings : Sibling) (take : Span → Except Fault (α × Span))
    (consumes : Consumes take) (s : Span) : Outline α :=
  let start := s.skipWhile Text.isSeparator
  if start.chars.isEmpty then ⟨[], none⟩
  else
    match _taken : take start with
    | .error fault => ⟨[], some fault⟩
    | .ok (item, rest) =>
      let stop := rest.skipWhile Text.isBlank
      if atBoundary stop then .cons item (outline siblings take consumes stop)
      else ⟨[item], some (.malformed (.unseparated siblings) stop.offset)⟩
termination_by s.chars.length
decreasing_by
  have h1 : start.chars.length ≤ s.chars.length := Span.length_skipWhile_le Text.isSeparator s
  have h2 := consumes _ _ _ _taken
  have h3 := Span.length_skipWhile_le Text.isBlank rest
  omega

def outlineMembers (mode : ScanMode) (s : Span) : Outline (String × Piece) :=
  outline .members (takeMember mode) (consumes_takeMember mode) s

def outlineElements (mode : ScanMode) (s : Span) : Outline Piece :=
  outline .elements (takePiece mode) (consumes_takePiece mode) s

def outlineStream (mode : ScanMode) (s : Span) : Outline Enclosed :=
  outline .objects (takeStreamed mode) (consumes_takeStreamed mode) s

end LenientJson.Reader
