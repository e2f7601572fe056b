import LenientJson.Offsets.Cursor
import LenientJson.Proofs.Offsets.Access

/-!
# Cursors of spans

A span of the text has one cursor. Each step of it is that of the span, and none is a breach.
-/
namespace LenientJson.Offsets

def cursorOf (s : Span) : Cursor := ⟨s.offset, s.offset + Text.byteLength s.chars⟩

variable {text taken rest : List Char} {s : Span} {c : Char} {p : Char → Bool}

/-- What is left of a span ends where the span does. -/
theorem stop_cursorOf_of_behind {rest : Span} (h : s.Behind rest) :
    (cursorOf rest).stop = (cursorOf s).stop := by
  obtain ⟨taken, hs, hoffset⟩ := h
  simp only [cursorOf, hs, hoffset, Text.byteLength_append, Nat.add_assoc]

/-- Where less is left, the cursor stands further on. -/
theorem offset_lt_of_behind {rest : Span} (h : s.Behind rest)
    (hlength : rest.chars.length < s.chars.length) : s.offset < rest.offset := by
  obtain ⟨taken, hs, hoffset⟩ := h
  have htaken : Text.byteLength taken ≠ 0 := by
    intro hzero
    rw [hs, Text.byteLength_eq_zero_iff.mp hzero] at hlength
    exact lt_irrefl _ hlength
  omega

theorem stop_cursorOf_advance (hs : s.chars = taken ++ rest) :
    (cursorOf (s.advance taken rest)).stop = (cursorOf s).stop :=
  stop_cursorOf_of_behind (Span.behind_advance hs)

theorem isAtEnd_cursorOf : (cursorOf s).isAtEnd = s.chars.isEmpty := by
  rw [Bool.eq_iff_iff, List.isEmpty_iff, ← Text.byteLength_eq_zero_iff, Cursor.isAtEnd,
    decide_eq_true_iff]
  simp only [cursorOf]
  omega

section Within

variable (h : s.Within text)
include h

theorem le_byteLength_of_within :
    s.offset + Text.byteLength s.chars ≤ (Text.encodeUtf8 text).length := by
  obtain ⟨front, back, rfl, hoffset⟩ := h
  rw [Text.length_encodeUtf8, Text.byteLength_append, Text.byteLength_append, hoffset]
  omega

theorem make_cursorOf :
    Cursor.make (Text.encodeUtf8 text) (cursorOf s).position (cursorOf s).stop =
      .ok (cursorOf s) := by
  rw [Cursor.make, if_pos ⟨Nat.le_add_right _ _, le_byteLength_of_within h⟩]

theorem slice_within {behind : List Char} (hs : s.chars = taken ++ behind) :
    slice text s.offset (s.offset + Text.byteLength taken) = .ok taken := by
  obtain ⟨front, back, rfl, hoffset⟩ := h
  have hslice := slice_append front taken (behind ++ back)
  rw [hoffset, hs, ← List.append_assoc, List.append_assoc (front ++ taken)]
  exact hslice

theorem make_advance (hs : s.chars = taken ++ rest) :
    Cursor.make (Text.encodeUtf8 text) (s.offset + Text.byteLength taken) (cursorOf s).stop =
      .ok (cursorOf (s.advance taken rest)) := by
  rw [← stop_cursorOf_advance hs]
  exact make_cursorOf (h.advance hs)

theorem advanceTo_cursorOf (hs : s.chars = taken ++ rest) :
    (cursorOf s).advanceTo (Text.encodeUtf8 text) (s.offset + Text.byteLength taken) =
      .ok (cursorOf (s.advance taken rest)) := by
  have hle : s.offset + Text.byteLength taken ≤ (cursorOf s).stop := by
    rw [cursorOf, hs, Text.byteLength_append]
    simp only
    omega
  rw [Cursor.advanceTo, Nat.min_eq_left hle]
  exact make_advance h hs

section Between

variable {opener closer : Char} {inside tail : List Char}

theorem slice_inside (hopener : opener.toNat < 0x80)
    (hs : s.chars = opener :: (inside ++ closer :: tail)) :
    slice text (s.offset + 1) (s.offset + 1 + Text.byteLength inside) = .ok inside := by
  have hwithin := h.advance (show s.chars = [opener] ++ (inside ++ closer :: tail) from hs)
  have hslice := slice_within hwithin (rfl : _ = inside ++ closer :: tail)
  simp only [Span.advance, Text.byteLength_cons, Text.byteLength_nil, utf8Size_of_ascii hopener,
    Nat.add_zero] at hslice
  exact hslice

/-- Behind the closer of a part the cursor is that of the span behind the part. -/
theorem advanceTo_past (hopener : opener.toNat < 0x80) (hcloser : closer.toNat < 0x80)
    (hs : s.chars = opener :: (inside ++ closer :: tail)) :
    (cursorOf s).advanceTo (Text.encodeUtf8 text) (s.offset + 1 + Text.byteLength inside + 1) =
      .ok (cursorOf (s.past opener inside closer tail)) := by
  have hadvance := advanceTo_cursorOf h
    (show s.chars = (opener :: inside ++ [closer]) ++ tail by simp [hs])
  rw [← Span.past_eq_advance] at hadvance
  simp only [Text.byteLength_append, Text.byteLength_cons, Text.byteLength_nil,
    utf8Size_of_ascii hopener, utf8Size_of_ascii hcloser, Nat.add_zero, ← Nat.add_assoc]
    at hadvance
  exact hadvance

end Between

/-- What is seen at a cursor tells apart ASCII characters as the next character does. -/
theorem peek_cursorOf_cons (hs : s.chars = c :: rest) :
    ∃ d, (cursorOf s).peek (Text.encodeUtf8 text) = some d ∧ ∀ p, AsciiOnly p → p d = p c := by
  have hend : (cursorOf s).isAtEnd = false := by rw [isAtEnd_cursorOf, hs]; rfl
  obtain ⟨front, back, rfl, hoffset⟩ := h
  obtain ⟨lead, hget, -, hlead⟩ := getElem?_encodeUtf8 front (rest ++ back) c
  refine ⟨asChar lead, ?_, hlead⟩
  rw [Cursor.peek, hend, if_neg Bool.false_ne_true, cursorOf, hoffset, hs, List.append_assoc,
    List.cons_append, hget]
  rfl

theorem peek_cursorOf_eq_some_iff (hc : c.toNat < 0x80) :
    (cursorOf s).peek (Text.encodeUtf8 text) = some c ↔ s.chars.head? = some c := by
  cases hs : s.chars with
  | nil =>
    have hend : (cursorOf s).isAtEnd = true := by rw [isAtEnd_cursorOf, hs]; rfl
    simp [Cursor.peek, hend]
  | cons d rest =>
    obtain ⟨seen, hpeek, hp⟩ := peek_cursorOf_cons h hs
    have hseen := hp _ (asciiOnly_beq hc)
    rw [hpeek, List.head?_cons, Option.some_inj, Option.some_inj, ← beq_iff_eq, hseen, beq_iff_eq]

theorem exists_of_peek (hc : c.toNat < 0x80)
    (hpeek : (cursorOf s).peek (Text.encodeUtf8 text) = some c) : ∃ cs, s.chars = c :: cs :=
  List.head?_eq_some_iff.mp ((peek_cursorOf_eq_some_iff h hc).mp hpeek)

theorem head?_ne_of_peek (hc : c.toNat < 0x80)
    (hpeek : (cursorOf s).peek (Text.encodeUtf8 text) ≠ some c) : s.chars.head? ≠ some c :=
  fun hhead => hpeek ((peek_cursorOf_eq_some_iff h hc).mpr hhead)

theorem any_peek_cursorOf (hp : AsciiOnly p) :
    ((cursorOf s).peek (Text.encodeUtf8 text)).any p = s.chars.head?.any p := by
  cases hs : s.chars with
  | nil =>
    have hend : (cursorOf s).isAtEnd = true := by rw [isAtEnd_cursorOf, hs]; rfl
    simp [Cursor.peek, hend]
  | cons d rest =>
    obtain ⟨seen, hpeek, hseen⟩ := peek_cursorOf_cons h hs
    rw [hpeek, Option.any_some, List.head?_cons, Option.any_some, hseen p hp]

theorem skip_cursorOf_step (hp : AsciiOnly p) : (cursorOf s).skip (Text.encodeUtf8 text) p =
    if s.chars.head?.any p = true then
      Cursor.skipFrom (Text.encodeUtf8 text) p (s.offset + 1) (cursorOf s).stop
    else .ok (cursorOf s) := by
  rw [Cursor.skip, Cursor.skipFrom, make_cursorOf h]
  simp only [bind, Except.bind, any_peek_cursorOf h hp]
  split
  next hnext => rw [if_pos hnext.2]; rfl
  next hstay =>
    rw [if_neg fun hany => hstay ⟨?_, hany⟩]
    · rfl
    · cases hs : s.chars with
      | nil => rw [hs] at hany; cases hany
      | cons c rest =>
        have := c.utf8Size_pos
        simp only [cursorOf, hs, Text.byteLength_cons]
        omega

theorem skip_cursorOf (hp : AsciiOnly p) :
    (cursorOf s).skip (Text.encodeUtf8 text) p = .ok (cursorOf (s.skipWhile p)) := by
  obtain ⟨offset, chars⟩ := s
  induction chars generalizing offset with
  | nil =>
    rw [skip_cursorOf_step h hp, if_neg (by simp)]
    rfl
  | cons c cs ih =>
    rw [skip_cursorOf_step h hp, List.head?_cons, Option.any_some]
    cases hc : p c with
    | false => simp [Span.skipWhile, Span.advance, hc]
    | true =>
      have hsize := utf8Size_of_ascii (hp c hc)
      have hs : (⟨offset, c :: cs⟩ : Span).chars = [c] ++ cs := rfl
      have hnext : Span.advance ⟨offset, c :: cs⟩ [c] cs = ⟨offset + 1, cs⟩ := by
        simp [Span.advance, hsize]
      have hwithin := h.advance hs
      have hstop := stop_cursorOf_advance hs
      rw [hnext] at hwithin hstop
      rw [if_pos rfl, ← hstop]
      refine (ih (offset + 1) hwithin).trans ?_
      simp [Span.skipWhile, Span.advance, hc, hsize, Nat.add_assoc]

theorem eat?_cursorOf_cons (hc : c.toNat < 0x80) (hs : s.chars = c :: rest) :
    (cursorOf s).eat? (Text.encodeUtf8 text) c = .ok (some (cursorOf (s.advance [c] rest))) := by
  have hmake := make_advance h (show s.chars = [c] ++ rest from hs)
  rw [Text.byteLength_cons, Text.byteLength_nil, utf8Size_of_ascii hc] at hmake
  rw [Cursor.eat?, if_pos ((peek_cursorOf_eq_some_iff h hc).mpr (by rw [hs]; rfl))]
  simp only [cursorOf] at hmake ⊢
  rw [hmake]
  rfl

theorem eat?_cursorOf_of_ne (hc : c.toNat < 0x80) (hs : s.chars.head? ≠ some c) :
    (cursorOf s).eat? (Text.encodeUtf8 text) c = .ok none := by
  rw [Cursor.eat?, if_neg fun hpeek => hs ((peek_cursorOf_eq_some_iff h hc).mp hpeek)]
  rfl

theorem window_cursorOf : window (Text.encodeUtf8 text) (cursorOf s).position (cursorOf s).stop =
    .ok (Text.encodeUtf8 s.chars) := by
  obtain ⟨front, back, rfl, hoffset⟩ := h
  have hwindow := window_encodeUtf8 front s.chars back
  rw [← hoffset] at hwindow
  exact hwindow

theorem find?_cursorOf (hc : c.toNat < 0x80) :
    (cursorOf s).find? (Text.encodeUtf8 text) c = .ok (if c ∈ s.chars then
      some (s.offset + Text.byteLength (s.chars.takeWhile (· != c))) else none) := by
  have hany : s.chars.any (· == c) = decide (c ∈ s.chars) := by
    rw [Bool.eq_iff_iff, List.any_eq_true, decide_eq_true_iff]
    exact ⟨fun ⟨d, hd, heq⟩ => beq_iff_eq.mp heq ▸ hd, fun hmem => ⟨c, hmem, beq_self_eq_true c⟩⟩
  have hfind : (Text.encodeUtf8 s.chars).findIdx? (asChar · == c) = if s.chars.any (· == c) then
      some (Text.byteLength (s.chars.takeWhile (· != c))) else none :=
    findIdx?_encodeUtf8 (asciiOnly_beq hc) s.chars
  rw [Cursor.find?, window_cursorOf h]
  simp only [bind, Except.bind, hfind, hany, decide_eq_true_eq, pure, Except.pure]
  split <;> rfl

end Within

end LenientJson.Offsets
