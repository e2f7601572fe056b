import LenientJson.Proofs.Offsets.Takes
import LenientJson.Proofs.Reading.Outcome

/-!
# Items by offsets

An item is taken and, if it is a bracketed part, read at once. The parts of an outline are read
only when it is complete or has met a fault, which comes to the same: the first fault is the one
that is reported.
-/
namespace LenientJson.Offsets

open Reader

variable {α β : Type} {text : List Char} {options : Options} {mode : ScanMode}
  {bracket : Bracket} {s : Span} {cs : List Char}

def whole (bracket : Bracket) (part : Enclosed) : Span :=
  ⟨part.opener, bracket.opener :: (part.inside ++ [bracket.closer])⟩

structure Stands (text : List Char) (mode : ScanMode) (bracket : Bracket) (part : Enclosed) :
    Prop where
  within : (whole bracket part).Within text
  balanced : Balanced mode bracket part.inside

/-- Calls that read parts, as far as these are shorter than the bound, as a level does. -/
structure Agrees (text : List Char) (mode : ScanMode) (calls : Calls) (depth : Nat)
    (level : Level) (bound : Nat) : Prop where
  object : ∀ part, Stands text mode .curly part → part.inside.length < bound →
    calls.object part.opener (close part + 1) depth = tracked text (level.object part).result
  array : ∀ part, Stands text mode .square part → part.inside.length < bound →
    calls.array part.opener (close part + 1) depth = tracked text (level.array part).result

theorem Agrees.mono {calls : Calls} {depth bound bound' : Nat} {level : Level}
    (h : Agrees text mode calls depth level bound) (hle : bound' ≤ bound) :
    Agrees text mode calls depth level bound' where
  object part hpart hlength := h.object part hpart (hlength.trans_le hle)
  array part hpart hlength := h.array part hpart (hlength.trans_le hle)

def reading (take : Span → Except Fault (α × Span)) (read : α → Reading β) (s : Span) :
    Except Fault (β × Cursor) :=
  take s >>= fun (item, rest) => (read item).result.map fun value => (value, cursorOf rest)

theorem nested_eq {call : (start stop depth : Nat) → Run α} (read : Enclosed → Reading α)
    {depth : Nat} (h : s.Within text) (hs : s.chars = bracket.opener :: cs)
    (hcall : ∀ part, Stands text options.mode bracket part →
      part.inside.length < s.chars.length →
        call part.opener (close part + 1) (depth + 1) = tracked text (read part).result) :
    nested text options bracket call depth (cursorOf s) =
      tracked text (takeEnclosed options.mode bracket s cs >>= fun (part, rest) =>
        (read part).result.map fun value => (value, cursorOf rest)) := by
  rw [nested, cursorOf, matching_eq h hs]
  cases htake : takeEnclosed options.mode bracket s cs with
  | error fault => rfl
  | ok taken =>
    obtain ⟨part, rest⟩ := taken
    obtain ⟨inside, tail, rfl, hbalanced, rfl, rfl⟩ := takeEnclosed_eq_ok_iff.mp htake
    have hsplit : s.chars = (bracket.opener :: (inside ++ [bracket.closer])) ++ tail := by
      simp [hs]
    have hstands : Stands text options.mode bracket ⟨s.offset, inside⟩ :=
      ⟨h.front hsplit, hbalanced⟩
    have hlength : inside.length < s.chars.length := by
      rw [hs, List.length_cons, List.length_append]
      omega
    have hadvance : (cursorOf s).advanceTo (Text.encodeUtf8 text)
        (close ⟨s.offset, inside⟩ + 1) = .ok _ :=
      advanceTo_past h (toNat_opener_lt bracket) (toNat_closer_lt bracket) hs
    change (liftM ((cursorOf s).advanceTo _ (close ⟨s.offset, inside⟩ + 1)) : Run Cursor) >>= _ = _
    rw [lift_bind hadvance]
    change call s.offset (close ⟨s.offset, inside⟩ + 1) (depth + 1) >>= _ = _
    rw [hcall _ hstands hlength]
    exact tracked_map _ _

/-- A bracketed part is read as the piece that it is. -/
theorem nested_eq_reading {call : (start stop depth : Nat) → Run α} {below : Enclosed → Reading α}
    {read : Piece → Reading β} {f : α → β} {depth : Nat} (h : s.Within text)
    (hs : s.chars = bracket.opener :: cs)
    (hcall : ∀ part, Stands text options.mode bracket part →
      part.inside.length < s.chars.length →
        call part.opener (close part + 1) (depth + 1) = tracked text (below part).result)
    (hread : ∀ part, (read (.enclosed bracket part)).result =
      (below part).result >>= fun value => .ok (f value)) :
    (nested text options bracket call depth (cursorOf s) >>= fun (value, next) =>
        pure (f value, next)) =
      tracked text (reading (takePiece options.mode) read s) := by
  rw [nested_eq below h hs hcall, tracked_map, reading, takePiece_opener hs]
  congr 1
  cases takeEnclosed options.mode bracket s cs with
  | error fault => rfl
  | ok taken =>
    change Except.map _ ((below taken.1).result.map _) =
      (read (.enclosed bracket taken.1)).result.map _
    rw [hread]
    cases (below taken.1).result <;> rfl

theorem bare_of_peek (h : s.Within text)
    (hquote : (cursorOf s).peek (Text.encodeUtf8 text) ≠ some '"')
    (hcurly : (cursorOf s).peek (Text.encodeUtf8 text) ≠ some '\x7b')
    (hsquare : (cursorOf s).peek (Text.encodeUtf8 text) ≠ some '[') :
    ∀ c, s.chars.head? = some c → c ≠ '"' ∧ c ≠ '\x7b' ∧ c ≠ '[' := by
  intro c hc
  refine ⟨?_, ?_, ?_⟩
  · rintro rfl
    exact head?_ne_of_peek h (by decide) hquote hc
  · rintro rfl
    exact head?_ne_of_peek h (by decide) hcurly hc
  · rintro rfl
    exact head?_ne_of_peek h (by decide) hsquare hc

section Calls

variable {calls : Calls} {depth : Nat} {below : Level} (h : s.Within text)
  (agrees : Agrees text options.mode calls (depth + 1) below s.chars.length)
include h agrees

theorem parseMemberValue_eq : parseMemberValue text options calls depth (cursorOf s) =
    tracked text (reading (takePiece options.mode) below.member s) := by
  unfold parseMemberValue
  split
  next hquote =>
    obtain ⟨cs, hs⟩ := exists_of_peek h (by decide) hquote
    rw [quoted_eq h hs, reading, takePiece_quote hs]
    cases takeQuoted s cs with
    | error fault => rfl
    | ok taken =>
      change (liftM (unescape taken.1) : Run (List Char)) >>= _ = _
      rw [lift_bind (unescape_eq taken.1)]
      rfl
  next hcurly =>
    obtain ⟨cs, hs⟩ := exists_of_peek h (by decide) hcurly
    exact nested_eq_reading h (show _ = Bracket.curly.opener :: cs from hs) agrees.object
      (Level.result_member_curly below)
  next hsquare =>
    obtain ⟨cs, hs⟩ := exists_of_peek h (by decide) hsquare
    exact nested_eq_reading h (show _ = Bracket.square.opener :: cs from hs) agrees.array
      (Level.result_member_square below)
  next hquote hcurly hsquare =>
    rw [primitive_eq h, reading, takePiece_bare (bare_of_peek h hquote hcurly hsquare)]
    cases takeWord s <;> rfl

theorem parseElement_eq : parseElement text options calls depth (cursorOf s) =
    tracked text (reading (takePiece options.mode) below.element s) := by
  unfold parseElement
  split
  next hquote =>
    obtain ⟨cs, hs⟩ := exists_of_peek h (by decide) hquote
    rw [quoted_eq h hs, reading, takePiece_quote hs]
    cases takeQuoted s cs <;> rfl
  next hcurly =>
    obtain ⟨cs, hs⟩ := exists_of_peek h (by decide) hcurly
    rw [nested_eq below.object h (show _ = Bracket.curly.opener :: cs from hs) agrees.object,
      reading, takePiece_opener (show _ = Bracket.curly.opener :: cs from hs)]
    cases takeEnclosed options.mode .curly s cs <;> rfl
  next hsquare =>
    obtain ⟨cs, hs⟩ := exists_of_peek h (by decide) hsquare
    exact nested_eq_reading h (show _ = Bracket.square.opener :: cs from hs) agrees.array
      (Level.result_element_square below)
  next hquote hcurly hsquare =>
    rw [primitive_eq h, reading, takePiece_bare (bare_of_peek h hquote hcurly hsquare)]
    cases takeWord s <;> rfl

theorem parseStreamed_eq : parseStreamed text options calls depth (cursorOf s) =
    tracked text (reading (takeStreamed options.mode) below.object s) := by
  unfold parseStreamed reading takeStreamed
  split
  next hcurly =>
    obtain ⟨cs, hs⟩ := exists_of_peek h (by decide) hcurly
    rw [nested_eq below.object h (show _ = Bracket.curly.opener :: cs from hs) agrees.object, hs]
    rfl
  next hcurly =>
    replace hcurly := head?_ne_of_peek h (by decide) hcurly
    rw [cursorOf, malformed_eq h.isBoundary]
    split
    next cs hs => exact absurd (by rw [hs]; rfl) hcurly
    next => rfl

theorem parseMember_eq : parseMember text options calls depth (cursorOf s) =
    tracked text (reading (takeMember options.mode) below.namedMember s) := by
  unfold parseMember reading takeMember
  rw [parseKey_eq h]
  cases hkey : takeKey s with
  | error fault => rfl
  | ok keyed =>
    obtain ⟨key, behindKey⟩ := keyed
    have hbehindKey := (takeKey_eq_ok_iff.mp hkey).behind.within h
    have hlength : (behindKey.skipWhile Text.isBlank).chars.length ≤ s.chars.length :=
      (Span.length_skipWhile_le Text.isBlank behindKey).trans (length_of_takeKey hkey)
    have hatColon := hbehindKey.skipWhile Text.isBlank
    change (liftM ((cursorOf behindKey).skip _ _) : Run Cursor) >>= _ = tracked text
      ((takeColon (behindKey.skipWhile Text.isBlank) >>= _) >>= _)
    rw [lift_bind (skip_cursorOf hbehindKey asciiOnly_isBlank)]
    generalize behindKey.skipWhile Text.isBlank = atColon at *
    by_cases hcolon : atColon.chars.head? = some ':'
    · obtain ⟨tail, hs⟩ := List.head?_eq_some_iff.mp hcolon
      have htake := takeColon_eq_ok_iff.mpr ⟨tail, hs, rfl⟩
      have hbehindColon := (behind_of_takeColon htake).within hatColon
      have hvalueLength := (Span.length_skipWhile_le Text.isBlank _).trans
        ((length_of_takeColon htake).le.trans hlength)
      rw [lift_bind (eat?_cursorOf_cons hatColon (by decide) hs), htake]
      change (liftM ((cursorOf (atColon.advance [':'] tail)).skip _ _) : Run Cursor) >>= _ =
        tracked text ((takePiece options.mode _ >>= _) >>= _)
      rw [lift_bind (skip_cursorOf hbehindColon asciiOnly_isBlank),
        parseMemberValue_eq (hbehindColon.skipWhile _) (agrees.mono hvalueLength), reading]
      cases takePiece options.mode ((atColon.advance [':'] tail).skipWhile Text.isBlank) with
      | error fault => rfl
      | ok taken =>
        change _ = tracked text ((below.namedMember (.ofList key, taken.1)).result.map _)
        rw [Level.result_namedMember]
        change tracked text ((below.member taken.1).result.map _) >>= _ = _
        cases (below.member taken.1).result <;> rfl
    · rw [lift_bind (eat?_cursorOf_of_ne hatColon (by decide) hcolon), takeColon_of_ne hcolon]
      exact malformed_eq hatColon.isBoundary _

end Calls

section Rounds

variable {siblings : Sibling} {take : Span → Except Fault (α × Span)} {consumes : Consumes take}
  {read : α → Reading β} {item : Cursor → Run (β × Cursor)} {bound : Nat}

theorem atBoundary_iff {s : Span} :
    atBoundary s = true ↔ s.chars = [] ∨ s.chars.head? = some ',' := by
  unfold atBoundary
  cases s.chars <;> simp

/-- A round ends in front of a comma or at the end. -/
theorem expectSeparator_eq {rest : Span} (h : rest.Within text) :
    expectSeparator text siblings (cursorOf rest) =
      tracked text (if atBoundary (rest.skipWhile Text.isBlank) then
          .ok (cursorOf (rest.skipWhile Text.isBlank))
        else .error (.malformed (.unseparated siblings) (rest.skipWhile Text.isBlank).offset)) := by
  have hnext := h.skipWhile Text.isBlank
  have hiff : ((cursorOf (rest.skipWhile Text.isBlank)).isAtEnd = true ∨
      (cursorOf (rest.skipWhile Text.isBlank)).peek (Text.encodeUtf8 text) = some ',') ↔
        atBoundary (rest.skipWhile Text.isBlank) = true := by
    rw [isAtEnd_cursorOf, List.isEmpty_iff, peek_cursorOf_eq_some_iff hnext (by decide),
      atBoundary_iff]
  rw [expectSeparator, lift_bind (skip_cursorOf h asciiOnly_isBlank), if_congr hiff rfl rfl]
  split
  · rfl
  · exact malformed_eq hnext.isBoundary _

/-- A round reads an item and goes on behind its separator. -/
theorem parseItems_round {rest : Span} {value : α} (leaves : Leaves take)
    (consumes : Consumes take) (h : s.Within text)
    (hitem : item (cursorOf (s.skipWhile Text.isSeparator)) =
      tracked text (reading take read (s.skipWhile Text.isSeparator)))
    (hne : (s.skipWhile Text.isSeparator).chars ≠ [])
    (htake : take (s.skipWhile Text.isSeparator) = .ok (value, rest)) :
    parseItems text siblings item (cursorOf s) =
      (tracked text (read value).result >>= fun first =>
        if atBoundary (rest.skipWhile Text.isBlank) then do
          return first :: (← parseItems text siblings item
            (cursorOf (rest.skipWhile Text.isBlank)))
        else tracked text (.error (.malformed (.unseparated siblings)
          (rest.skipWhile Text.isBlank).offset))) := by
  have hstart := Span.behind_skipWhile Text.isSeparator s
  have hbehind := (leaves _ _ _ htake).trans (Span.behind_skipWhile Text.isBlank rest)
  have hlength := (Span.length_skipWhile_le Text.isBlank rest).trans_lt (consumes _ _ _ htake)
  have hposition := offset_lt_of_behind (hstart.trans hbehind)
    (hlength.trans_le (Span.length_skipWhile_le _ _))
  have hprogress : (cursorOf s).position < (cursorOf (rest.skipWhile Text.isBlank)).position ∧
      (cursorOf (rest.skipWhile Text.isBlank)).position ≤
        (cursorOf (rest.skipWhile Text.isBlank)).stop ∧
      (cursorOf (rest.skipWhile Text.isBlank)).stop = (cursorOf s).stop :=
    ⟨hposition, Nat.le_add_right _ _, stop_cursorOf_of_behind (hstart.trans hbehind)⟩
  rw [parseItems, lift_bind (skip_cursorOf h asciiOnly_isSeparator), isAtEnd_cursorOf,
    if_neg (by simpa using hne), hitem, reading, htake]
  change tracked text ((read value).result.map _) >>= _ = _
  cases (read value).result with
  | error fault => rfl
  | ok first =>
    change expectSeparator text siblings (cursorOf rest) >>= _ = ite _ _ _
    rw [expectSeparator_eq (((hstart.trans (leaves _ _ _ htake))).within h)]
    split
    · exact if_pos hprogress
    · rfl

theorem result_items_cons (value : α) (o : Outline α) (read : α → Reading β) :
    (Reading.items (.cons value o) read).result =
      (read value).result >>= fun first =>
        (Reading.items o read).result.map fun values => first :: values := by
  rw [Reading.result_items, Reading.result_items]
  change ((value :: o.items).mapM fun x => (read x).result) >>= Reading.unlessFault o.fault = _
  rw [List.mapM_cons]
  cases (read value).result with
  | error fault => rfl
  | ok first =>
    change ((o.items.mapM fun x => (read x).result) >>= fun values => .ok (first :: values)) >>=
      Reading.unlessFault o.fault = _
    cases (o.items.mapM fun x => (read x).result) with
    | error fault => rfl
    | ok values => cases o.fault <;> rfl

theorem parseItems_eq (leaves : Leaves take)
    (hitem : ∀ s, s.Within text → s.chars.length ≤ bound →
      item (cursorOf s) = tracked text (reading take read s))
    (h : s.Within text) (hbound : s.chars.length ≤ bound) :
    parseItems text siblings item (cursorOf s) =
      tracked text (Reading.items (outline siblings take consumes s) read).result := by
  have hitem' (s : Span) (h : s.Within text) (hbound : s.chars.length ≤ bound) :=
    hitem _ (h.skipWhile Text.isSeparator) ((Span.length_skipWhile_le _ _).trans hbound)
  fun_induction outline siblings take consumes s with
  | case1 s start hempty =>
    rw [parseItems, lift_bind (skip_cursorOf h asciiOnly_isSeparator), isAtEnd_cursorOf,
      if_pos hempty]
    rfl
  | case2 s start hne fault htake =>
    rw [parseItems, lift_bind (skip_cursorOf h asciiOnly_isSeparator), isAtEnd_cursorOf,
      if_neg hne, hitem' s h hbound, reading, htake]
    rfl
  | case3 s start hne value rest htake stop hstop ih =>
    have hstop' : atBoundary (rest.skipWhile Text.isBlank) = true := hstop
    have hrest := ((Span.behind_skipWhile _ s).trans (leaves _ _ _ htake)).trans
      (Span.behind_skipWhile Text.isBlank rest)
    have hlength := (Span.length_skipWhile_le Text.isBlank rest).trans
      (consumes _ _ _ htake).le
    have hlater := ih (hrest.within h)
      (hlength.trans ((Span.length_skipWhile_le _ _).trans hbound))
    rw [parseItems_round leaves consumes h (hitem' s h hbound) (by simpa using hne) htake]
    simp only [hstop', if_true]
    change (tracked text (read value).result >>= fun first => do
      return first :: (← parseItems text siblings item (cursorOf stop))) = _
    rw [hlater, result_items_cons]
    cases (read value).result with
    | error fault => rfl
    | ok first => exact tracked_map _ _
  | case4 s start hne value rest htake stop hstop =>
    have hstop' : atBoundary (rest.skipWhile Text.isBlank) = false :=
      Bool.eq_false_iff.mpr hstop
    rw [parseItems_round leaves consumes h (hitem' s h hbound) (by simpa using hne) htake,
      Reading.result_items]
    simp only [hstop', Bool.false_eq_true, if_false]
    change _ = tracked text (([value].mapM fun x => (read x).result) >>= _)
    rw [List.mapM_cons]
    cases (read value).result <;> rfl

end Rounds

end LenientJson.Offsets
