import LenientJson.Proofs.Reading.Documents
import LenientJson.Proofs.Reading.Outlines
import LenientJson.Proofs.Scan.Quotes

/-!
# The two ways of scanning agree

Every item begins behind a character that escapes nothing, and every opener of a part stands where
the quotes are paired. So the scan that begins afresh behind an opener knows the same as one that
has followed the whole text, and the two modes read a text alike if its bare brackets all stand
outside quotes.
-/
namespace LenientJson.Reader

/-- A span whose bare brackets stand outside quotes, and whose first character is not escaped. -/
def Clear (s : Span) : Prop := ∃ st : QuoteState, st.escaped = false ∧ BracketsOutside st s.chars

/-- The span behind an item: its first character may be escaped, but then it is a comma. -/
def ClearBehind (s : Span) : Prop :=
  ∃ st : QuoteState, (st.escaped = true → AtEnd s.chars) ∧ BracketsOutside st s.chars

theorem Clear.clearBehind {s : Span} (h : Clear s) : ClearBehind s := by
  obtain ⟨st, hescaped, houtside⟩ := h
  refine ⟨st, fun he => ?_, houtside⟩
  rw [hescaped] at he
  cases he

theorem clear_behind {s : Span} {st : QuoteState} {front : List Char} {c : Char} (hc : c ≠ '\\')
    (h : BracketsOutside st (front ++ c :: s.chars)) : Clear s :=
  ⟨_, QuoteState.step_escaped _ hc, (bracketsOutside_append.mp h).2.2⟩

theorem clear_of_taken {s : Span} {st : QuoteState} {taken : List Char} (hne : taken ≠ [])
    (hplain : ∀ c ∈ taken, c ≠ '\\') (h : BracketsOutside st (taken ++ s.chars)) : Clear s := by
  rw [← List.dropLast_concat_getLast hne, List.append_assoc] at h
  exact clear_behind (hplain _ (List.getLast_mem hne)) h

section Skip

variable {p : Char → Bool} {s : Span}

theorem Clear.skipWhile (hp : ∀ c, p c = true → c ≠ '\\') (h : Clear s) :
    Clear (s.skipWhile p) := by
  obtain ⟨st, hescaped, houtside⟩ := h
  have hsplit : s.chars = s.chars.takeWhile p ++ (s.skipWhile p).chars :=
    List.takeWhile_append_dropWhile.symm
  rw [hsplit] at houtside
  by_cases hne : s.chars.takeWhile p = []
  · rw [hne] at houtside
    exact ⟨st, hescaped, houtside⟩
  · exact clear_of_taken hne (fun c hc => hp c (List.mem_takeWhile_imp hc)) houtside

theorem ClearBehind.skipWhile (hp : ∀ c, p c = true → c ≠ '\\') (hcomma : p ',' = false)
    (h : ClearBehind s) : ClearBehind (s.skipWhile p) := by
  obtain ⟨st, hend, houtside⟩ := h
  cases hescaped : st.escaped with
  | false => exact (Clear.skipWhile hp ⟨st, hescaped, houtside⟩).clearBehind
  | true =>
    have hchars : (s.skipWhile p).chars = s.chars :=
      skipWhile_of_head? fun c hc => by rw [hend hescaped c hc, hcomma]
    exact ⟨st, by rw [hchars]; exact hend, by rw [hchars]; exact houtside⟩

/-- Behind separators an item begins: an escaped comma is itself skipped. -/
theorem ClearBehind.skipSeparators (h : ClearBehind s)
    (hne : (s.skipWhile Text.isSeparator).chars ≠ []) : Clear (s.skipWhile Text.isSeparator) := by
  have hp (c : Char) (hc : Text.isSeparator c = true) : c ≠ '\\' := by
    rintro rfl
    cases hc
  obtain ⟨st, hend, houtside⟩ := h
  cases hescaped : st.escaped with
  | false => exact Clear.skipWhile hp ⟨st, hescaped, houtside⟩
  | true =>
    have hsplit : s.chars = s.chars.takeWhile Text.isSeparator ++
        (s.skipWhile Text.isSeparator).chars := List.takeWhile_append_dropWhile.symm
    have htaken : s.chars.takeWhile Text.isSeparator ≠ [] := by
      intro hnil
      cases hs : s.chars with
      | nil => exact hne (by simp [Span.skipWhile, Span.advance, hs])
      | cons c cs =>
        have hc : c = ',' := hend hescaped c (by rw [hs]; rfl)
        subst hc
        rw [hs, List.takeWhile_cons_of_pos rfl] at hnil
        cases hnil
    rw [hsplit] at houtside
    exact clear_of_taken htaken (fun c hc => hp c (List.mem_takeWhile_imp hc)) houtside

theorem ne_backslash_of_isBlank (c : Char) (hc : Text.isBlank c = true) : c ≠ '\\' := by
  rintro rfl
  cases hc

end Skip

section Take

variable {mode : ScanMode} {s rest : Span}

/-- Behind an opener where nothing is escaped the scan of the whole text is as one that begins
there. -/
theorem BracketsOutside.behind_opener {st : QuoteState} {cs : List Char} (bracket : Bracket)
    (h : BracketsOutside st (bracket.opener :: cs)) (hescaped : st.escaped = false) :
    BracketsOutside {} cs := by
  obtain ⟨escaped, quoted⟩ := st
  obtain rfl : escaped = false := hescaped
  have hquoted : quoted = false := h.1 (by cases bracket <;> rfl) rfl
  subst hquoted
  cases bracket
  · exact h.2
  · exact h.2

theorem takeEnclosed_modes {bracket : Bracket} {cs : List Char} (h : BracketsOutside {} cs) :
    takeEnclosed .stringAware bracket s cs = takeEnclosed .legacy bracket s cs := by
  unfold takeEnclosed
  rw [splitEnclosed_modes h 0]

theorem takePiece_modes (h : Clear s) : takePiece .stringAware s = takePiece .legacy s := by
  obtain ⟨st, hescaped, houtside⟩ := h
  unfold takePiece
  split
  next => rfl
  next cs hs =>
    rw [hs] at houtside
    rw [takeEnclosed_modes (houtside.behind_opener .curly hescaped)]
  next cs hs =>
    rw [hs] at houtside
    rw [takeEnclosed_modes (houtside.behind_opener .square hescaped)]
  next => rfl

theorem Taken.clear {piece : Piece} (h : Taken mode s piece rest) (hs : Clear s) :
    piece.PartIn fun part => Clear part.body := by
  obtain ⟨st, hescaped, houtside⟩ := hs
  cases h with
  | quoted chars quotable => trivial
  | word chars first inside behind nonempty => trivial
  | enclosed chars balanced =>
    rw [chars] at houtside
    exact ⟨{}, rfl, (bracketsOutside_append.mp (houtside.behind_opener _ hescaped)).1⟩

theorem Taken.clearBehind {piece : Piece} (h : Taken mode s piece rest) (hs : Clear s) :
    ClearBehind rest := by
  obtain ⟨st, hescaped, houtside⟩ := hs
  cases h with
  | @quoted text tail chars quotable =>
    rw [chars, ← List.cons_append] at houtside
    exact (clear_behind (by decide) houtside).clearBehind
  | @enclosed bracket inside tail chars balanced =>
    rw [chars, ← List.cons_append] at houtside
    exact (clear_behind (by cases bracket <;> decide) houtside).clearBehind
  | word chars first inside behind nonempty =>
    rw [chars] at houtside
    exact ⟨_, fun _ => behind, (bracketsOutside_append.mp houtside).2⟩

theorem invariant_clear_takePiece :
    Invariant (takePiece mode) ClearBehind Clear (Piece.PartIn fun part => Clear part.body) where
  skip _ := ClearBehind.skipSeparators
  item _ _ _ hs htake := (takePiece_eq_ok_iff.mp htake).clear hs
  step _ _ _ hs htake _ :=
    ((takePiece_eq_ok_iff.mp htake).clearBehind hs).skipWhile ne_backslash_of_isBlank rfl

/-- A bare key may end in a backslash, but only a colon follows it. -/
theorem KeyTaken.outside {key : List Char} (h : KeyTaken s key rest) (hs : Clear s) :
    ∃ st, BracketsOutside st rest.chars := by
  obtain ⟨st, -, houtside⟩ := hs
  cases h with
  | quoted chars quotable =>
    rw [chars, ← List.cons_append] at houtside
    exact ⟨_, (bracketsOutside_append.mp houtside).2.2⟩
  | bare chars first inside =>
    rw [chars] at houtside
    exact ⟨_, (bracketsOutside_append.mp houtside).2⟩

theorem clear_of_takeColon {key : List Char} {behindKey : Span} (hkey : KeyTaken s key behindKey)
    (h : takeColon (behindKey.skipWhile Text.isBlank) = .ok rest) (hs : Clear s) :
    Clear (rest.skipWhile Text.isBlank) := by
  obtain ⟨st, houtside⟩ := hkey.outside hs
  obtain ⟨tail, htail, rfl⟩ := takeColon_eq_ok_iff.mp h
  have hsplit : behindKey.chars = behindKey.chars.takeWhile Text.isBlank ++
      (behindKey.skipWhile Text.isBlank).chars := List.takeWhile_append_dropWhile.symm
  rw [hsplit, htail] at houtside
  exact (clear_behind (s := .advance _ _ tail) (by decide) houtside).skipWhile
    ne_backslash_of_isBlank

theorem takeMember_modes (h : Clear s) : takeMember .stringAware s = takeMember .legacy s := by
  unfold takeMember
  cases hkey : takeKey s with
  | error fault => rfl
  | ok keyed =>
    obtain ⟨key, behindKey⟩ := keyed
    cases hcolon : takeColon (behindKey.skipWhile Text.isBlank) with
    | error fault => simp [hcolon, bind, Except.bind]
    | ok behindColon =>
      have hclear := clear_of_takeColon (takeKey_eq_ok_iff.mp hkey) hcolon h
      simp only [hcolon, bind, Except.bind, takePiece_modes hclear]

theorem invariant_clear_takeMember :
    Invariant (takeMember mode) ClearBehind Clear 
      (fun member => member.2.PartIn fun part => Clear part.body) where
  skip _ := ClearBehind.skipSeparators
  item _ _ _ hs htake := by
    obtain ⟨key, behindKey, behindColon, hkey, -, hcolon, hpiece⟩ := takeMember_eq_ok_iff.mp htake
    exact hpiece.clear (clear_of_takeColon hkey hcolon hs)
  step _ _ _ hs htake _ := by
    obtain ⟨key, behindKey, behindColon, hkey, -, hcolon, hpiece⟩ := takeMember_eq_ok_iff.mp htake
    exact (hpiece.clearBehind (clear_of_takeColon hkey hcolon hs)).skipWhile
      ne_backslash_of_isBlank rfl

theorem takeStreamed_modes (h : Clear s) :
    takeStreamed .stringAware s = takeStreamed .legacy s := by
  obtain ⟨st, hescaped, houtside⟩ := h
  unfold takeStreamed
  split
  next cs hs =>
    rw [hs] at houtside
    exact takeEnclosed_modes (houtside.behind_opener .curly hescaped)
  next => rfl

theorem invariant_clear_takeStreamed :
    Invariant (takeStreamed mode) ClearBehind Clear (fun part => Clear part.body) where
  skip _ := ClearBehind.skipSeparators
  item _ _ _ hs htake := (takeStreamed_eq_ok_iff.mp htake).clear hs
  step _ _ _ hs htake _ :=
    ((takeStreamed_eq_ok_iff.mp htake).clearBehind hs).skipWhile ne_backslash_of_isBlank rfl

end Take

namespace Level

variable {aware legacy : Level}

structure Agree (aware legacy : Level) : Prop where
  object : ∀ part, Clear part.body → aware.object part = legacy.object part
  array : ∀ part, Clear part.body → aware.array part = legacy.array part

theorem Agree.member (h : Agree aware legacy) {piece : Piece}
    (hpiece : piece.PartIn fun part => Clear part.body) :
    aware.member piece = legacy.member piece := by
  cases piece with
  | quoted text => rfl
  | word text => rfl
  | enclosed bracket part =>
    cases bracket with
    | curly => simp only [Level.member, h.object part hpiece]
    | square => simp only [Level.member, h.array part hpiece]

theorem Agree.element (h : Agree aware legacy) {piece : Piece}
    (hpiece : piece.PartIn fun part => Clear part.body) :
    aware.element piece = legacy.element piece := by
  cases piece with
  | quoted text => rfl
  | word text => rfl
  | enclosed bracket part =>
    cases bracket with
    | curly => exact h.object part hpiece
    | square => simp only [Level.element, h.array part hpiece]

theorem agree_ofDepth (limit depth : Nat) :
    Agree (ofDepth .stringAware limit depth) (ofDepth .legacy limit depth) := by
  induction depth with
  | zero => exact ⟨fun _ _ => rfl, fun _ _ => rfl⟩
  | succ depth ih =>
    rw [ofDepth_succ, ofDepth_succ]
    constructor
    · intro part hpart
      have houtline : outlineMembers .stringAware part.body = outlineMembers .legacy part.body :=
        invariant_clear_takeMember.outline_congr (fun _ => takeMember_modes) hpart.clearBehind
      have hmembers : ∀ member ∈ (outlineMembers .legacy part.body).items,
          member.2.PartIn fun part => Clear part.body :=
        invariant_clear_takeMember.items hpart.clearBehind
      simp only [above, houtline]
      rw [Reading.items_congr fun member hmember => ?_]
      obtain ⟨name, piece⟩ := member
      simp only [namedMember, ih.member (hmembers _ hmember)]
    · intro part hpart
      have houtline : outlineElements .stringAware part.body =
          outlineElements .legacy part.body :=
        invariant_clear_takePiece.outline_congr (fun _ => takePiece_modes) hpart.clearBehind
      rw [above_array, above_array, houtline]
      exact Reading.items_congr fun piece hpiece =>
        ih.element (invariant_clear_takePiece.items hpart.clearBehind piece hpiece)

end Level

section Document

variable {text : List Char}

theorem clear_trim (h : BracketsOutside {} text) : Clear (Span.ofText text).trim := by
  have hstart : Clear ((Span.ofText text).skipWhile Text.isBlank) :=
    Clear.skipWhile ne_backslash_of_isBlank ⟨{}, rfl, h⟩
  obtain ⟨st, hescaped, houtside⟩ := hstart
  rw [← Text.trimEnd_append Text.isBlank
    ((Span.ofText text).skipWhile Text.isBlank).chars] at houtside
  exact ⟨st, hescaped, (bracketsOutside_append.mp houtside).1⟩

/-- The part that is the whole of a clear span is found in both ways, and is clear inside. -/
theorem wholePart_modes {s : Span} {cs : List Char} (bracket : Bracket)
    (hs : s.chars = bracket.opener :: cs) (h : Clear s) :
    wholePart .stringAware bracket s cs = wholePart .legacy bracket s cs ∧
      ∀ part, wholePart .legacy bracket s cs = .ok part → Clear part.body := by
  obtain ⟨st, hescaped, houtside⟩ := h
  rw [hs] at houtside
  have hinside := houtside.behind_opener bracket hescaped
  constructor
  · unfold wholePart
    rw [takeEnclosed_modes hinside]
  · intro part hpart
    obtain ⟨inside, rfl, -, rfl⟩ := wholePart_eq_ok_iff.mp hpart
    exact ⟨{}, rfl, (bracketsOutside_append.mp hinside).1⟩

theorem ofExcept_bind_congr {α β : Type} {x y : Except Fault α} {f g : α → Reading β}
    (hxy : x = y) (hfg : ∀ a, y = .ok a → f a = g a) :
    (Reading.ofExcept x >>= f) = (Reading.ofExcept y >>= g) := by
  subst hxy
  cases x with
  | error fault => rfl
  | ok a =>
    change Reading.bind _ _ = Reading.bind _ _
    simp only [Reading.bind, Reading.ofExcept, hfg a rfl]

theorem readObject_modes (h : BracketsOutside {} text) (limit : Option Nat) :
    readObject ⟨.stringAware, limit⟩ text = readObject ⟨.legacy, limit⟩ text := by
  have hclear := clear_trim h
  have hlevels : levels ⟨.stringAware, limit⟩ text = levels ⟨.legacy, limit⟩ text := rfl
  unfold readObject
  simp only [hlevels]
  split
  next => rfl
  next => rfl
  next c cs below hs hl =>
    split
    · rfl
    · split
      next hcurly =>
        obtain ⟨rfl, -⟩ := hcurly
        obtain ⟨hwhole, hpart⟩ := wholePart_modes .curly hs hclear
        exact ofExcept_bind_congr hwhole fun part htake =>
          (Level.agree_ofDepth _ _).object part (hpart part htake)
      · rfl

theorem readArray_modes (h : BracketsOutside {} text) (limit : Option Nat) :
    readArray ⟨.stringAware, limit⟩ text = readArray ⟨.legacy, limit⟩ text := by
  have hclear := clear_trim h
  have hlevels : levels ⟨.stringAware, limit⟩ text = levels ⟨.legacy, limit⟩ text := rfl
  unfold readArray
  simp only [hlevels]
  split
  next => rfl
  next => rfl
  next c cs below hs hl =>
    split
    next hsquare =>
      subst hsquare
      obtain ⟨hwhole, hpart⟩ := wholePart_modes .square hs hclear
      exact ofExcept_bind_congr hwhole fun part htake =>
        (Level.agree_ofDepth _ _).array part (hpart part htake)
    · split
      · have houtline : outlineStream .stringAware (Span.ofText text).trim =
            outlineStream .legacy (Span.ofText text).trim :=
          invariant_clear_takeStreamed.outline_congr (fun _ => takeStreamed_modes)
            hclear.clearBehind
        rw [houtline]
        exact Reading.items_congr fun part hpart => (Level.agree_ofDepth _ _).object part
          (invariant_clear_takeStreamed.items hclear.clearBehind part hpart)
      · rfl

end Document

end LenientJson.Reader

namespace LenientJson

/-- Objects and arrays are read alike in both modes, with the same value or the same error, from a
text in which an even number of bare quotes stands before every bare bracket. -/
theorem parse_stringAware_eq_legacy (text : List Char) (limit : Option Nat)
    (outside : ∀ i (h : i < text.length), Reader.isBracket text[i] = true →
      Reader.escapedBehind (text.take i) = false → Reader.bareQuotes (text.take i) % 2 = 0) :
    Object.parse text ⟨.stringAware, limit⟩ = Object.parse text ⟨.legacy, limit⟩ ∧
      Items.parse text ⟨.stringAware, limit⟩ = Items.parse text ⟨.legacy, limit⟩ := by
  have h := Reader.bracketsOutside_of_text outside
  unfold Object.parse Items.parse
  rw [Reader.readObject_modes h limit, Reader.readArray_modes h limit]
  exact ⟨rfl, rfl⟩

def escapedBrackets : List Char :=
  ['\x7b', 'a', ':', '[', '\\', '\x7b', 'x', ',', '"', '\\', ']', '"', ']', ',', 'b', ':', '1',
    '\x7d']

theorem parse_escapedBrackets_modes :
    (∀ i (h : i < escapedBrackets.length), Reader.isBracket escapedBrackets[i] = true →
      Reader.escapedBehind (escapedBrackets.take i) = false →
        Reader.bareQuotes (escapedBrackets.take i) % 2 = 0) ∧
      Object.parse escapedBrackets ⟨.stringAware, some 2⟩ =
        Object.parse escapedBrackets ⟨.legacy, some 2⟩ ∧
      Items.parse escapedBrackets ⟨.stringAware, some 2⟩ =
        Items.parse escapedBrackets ⟨.legacy, some 2⟩ :=
  ⟨by decide, parse_stringAware_eq_legacy escapedBrackets (some 2) (by decide)⟩

end LenientJson
