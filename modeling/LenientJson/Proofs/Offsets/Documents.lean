import LenientJson.Proofs.Offsets.Items
import LenientJson.Proofs.Reading.Documents

/-!
# Parts and documents by offsets

A call for a part trims it, finds its end once more and reads what stands between its brackets.
The part is balanced, so the end is the one that was found before. A document is read by the same
calls, at the depth one.
-/
namespace LenientJson.Offsets

open Reader

variable {text : List Char} {options : Options} {mode : ScanMode} {bracket : Bracket}
  {calls : Calls} {depth bound : Nat} {below : Level} {s : Span} {c : Char} {cs : List Char}

section Inside

variable {part : Enclosed} (hbody : part.body.Within text)
  (agrees : Agrees text options.mode calls (depth + 1) below part.inside.length)
include hbody agrees

theorem parseMembers_eq :
    parseMembers text options calls (part.opener + 1) (close part) depth =
      tracked text ((Level.above options.mode below).object part).result := by
  have hmake : Cursor.make (Text.encodeUtf8 text) (part.opener + 1) (close part) =
      .ok (cursorOf part.body) := make_cursorOf hbody
  have hitems : parseItems text .members (parseMember text options calls depth)
      (cursorOf part.body) = tracked text (Reading.items (outlineMembers options.mode part.body)
        below.namedMember).result :=
    parseItems_eq leaves_takeMember (fun s hs hlength => parseMember_eq hs (agrees.mono hlength))
      hbody (le_refl _)
  rw [parseMembers, lift_bind hmake, hitems, Level.result_above_object, tracked_map]
  cases (Reading.items (outlineMembers options.mode part.body) below.namedMember).result <;> rfl

theorem parseElements_eq :
    parseElements text options calls (part.opener + 1) (close part) depth =
      tracked text ((Level.above options.mode below).array part).result := by
  have hmake : Cursor.make (Text.encodeUtf8 text) (part.opener + 1) (close part) =
      .ok (cursorOf part.body) := make_cursorOf hbody
  rw [parseElements, lift_bind hmake]
  exact parseItems_eq leaves_takePiece
    (fun s hs hlength => parseElement_eq hs (agrees.mono hlength)) hbody (le_refl _)

end Inside

section Checks

theorem checkDepth_of_lt {m offset : Nat} (hm : options.maxDepth = some m) (hlt : m < depth)
    (h : Text.IsBoundary text offset) :
    checkDepth text options depth offset = tracked text (.error ⟨.tooDeep m, offset⟩) := by
  unfold checkDepth
  rw [hm]
  simp only [if_pos hlt]
  rw [lift_bind (locate_eq h)]
  rfl

theorem checkDepth_of_le (h : ∀ m, options.maxDepth = some m → depth ≤ m) (offset : Nat) :
    checkDepth text options depth offset = pure () := by
  unfold checkDepth
  cases hm : options.maxDepth with
  | none => rfl
  | some m => exact if_neg (Nat.not_lt.mpr (h m hm))

end Checks

theorem minus_of_le {a b : Nat} (h : b ≤ a) : minus a b = .ok (a - b) := if_pos h

theorem one_le_stop (hs : s.chars ≠ []) : 1 ≤ s.offset + Text.byteLength s.chars := by
  have hne : Text.byteLength s.chars ≠ 0 := fun hzero => hs (Text.byteLength_eq_zero_iff.mp hzero)
  omega

theorem start_ne_stop (hs : s.chars ≠ []) : s.offset ≠ s.offset + Text.byteLength s.chars := by
  have hne : Text.byteLength s.chars ≠ 0 := fun hzero => hs (Text.byteLength_eq_zero_iff.mp hzero)
  omega

section Within

variable (h : s.Within text)
include h

theorem parseStream_eq (agrees : Agrees text options.mode calls (depth + 1) below s.chars.length) :
    parseStream text options calls s.offset (s.offset + Text.byteLength s.chars) depth =
      tracked text (Reading.items (outlineStream options.mode s) below.object).result := by
  have hmake : Cursor.make (Text.encodeUtf8 text) s.offset
      (s.offset + Text.byteLength s.chars) = .ok (cursorOf s) := make_cursorOf h
  rw [parseStream, lift_bind hmake]
  exact parseItems_eq leaves_takeStreamed
    (fun s hs hlength => parseStreamed_eq hs (agrees.mono hlength)) h (le_refl _)

/-- The part is all of the span if its closer is the last byte. -/
theorem wholeSpan_eq (hs : s.chars = bracket.opener :: cs) :
    wholeSpan text options bracket s.offset (s.offset + Text.byteLength s.chars) =
      tracked text ((wholePart options.mode bracket s cs).map fun part =>
        (part.opener + 1, close part)) := by
  have hbracket := utf8Size_of_ascii (toNat_opener_lt bracket)
  have hpos := one_le_stop (show s.chars ≠ [] by rw [hs]; exact List.cons_ne_nil _ _)
  unfold wholePart
  rw [wholeSpan, matching_eq h hs]
  cases htake : takeEnclosed options.mode bracket s cs with
  | error fault => rfl
  | ok taken =>
    obtain ⟨part, rest⟩ := taken
    obtain ⟨inside, tail, rfl, -, rfl, rfl⟩ := takeEnclosed_eq_ok_iff.mp htake
    have hiff : close ⟨s.offset, inside⟩ = s.offset + Text.byteLength s.chars - 1 ↔ tail = [] := by
      rw [← Text.byteLength_eq_zero_iff, close, hs]
      simp only [Text.byteLength_append, Text.byteLength_cons, hbracket,
        utf8Size_of_ascii (toNat_closer_lt bracket)]
      omega
    change (liftM (minus _ 1) : Run Nat) >>= _ = tracked text (Except.map _ (ite _ _ _))
    rw [lift_bind (minus_of_le hpos)]
    change (if close ⟨s.offset, inside⟩ = s.offset + Text.byteLength s.chars - 1 then _ else _) = _
    by_cases htail : tail = []
    · have hempty : (s.past bracket.opener inside bracket.closer tail).chars.isEmpty = true :=
        List.isEmpty_iff.mpr htail
      rw [if_pos (hiff.mpr htail), if_pos hempty]
      rfl
    · have hempty : ¬(s.past bracket.opener inside bracket.closer tail).chars.isEmpty = true :=
        fun hempty => htail (List.isEmpty_iff.mp hempty)
      rw [if_neg fun heq => htail (hiff.mp heq), if_neg hempty]
      have hoffset : close ⟨s.offset, inside⟩ + 1 =
          (s.past bracket.opener inside bracket.closer tail).offset := by
        simp only [close, Span.past, hbracket, utf8Size_of_ascii (toNat_closer_lt bracket)]
      change malformed text _ (close ⟨s.offset, inside⟩ + 1) = _
      rw [hoffset]
      exact malformed_eq (h.past hs).isBoundary _

theorem within_of_whole {part : Enclosed} (hs : s.chars = bracket.opener :: cs)
    (hpart : wholePart mode bracket s cs = .ok part) :
    part.body.Within text ∧ part.inside.length + 1 = cs.length := by
  obtain ⟨inside, rfl, -, rfl⟩ := wholePart_eq_ok_iff.mp hpart
  exact ⟨(within_part h hs).body, by rw [List.length_append, List.length_singleton]⟩

theorem exists_firstByte (hs : s.chars = c :: cs) :
    ∃ byte, byteAt (Text.encodeUtf8 text) s.offset = .ok byte ∧
      ∀ d : Char, d.toNat < 0x80 → (asChar byte = d ↔ c = d) := by
  obtain ⟨byte, hbyte, hp⟩ := byteAt_first h hs
  exact ⟨byte, hbyte, fun d hd => eq_iff_of_asciiOnly hp hd⟩

theorem exists_lastByte (hs : s.chars ≠ []) :
    ∃ byte, byteAt (Text.encodeUtf8 text) (s.offset + Text.byteLength s.chars - 1) = .ok byte ∧
      ∀ d : Char, d.toNat < 0x80 → (asChar byte = d ↔ s.chars.getLast? = some d) := by
  obtain ⟨front, last, hlast⟩ := (List.eq_nil_or_concat' s.chars).resolve_left hs
  obtain ⟨byte, hbyte, hp⟩ := byteAt_last h hlast
  refine ⟨byte, hbyte, fun d hd => ?_⟩
  rw [eq_iff_of_asciiOnly hp hd, hlast, List.getLast?_concat, Option.some_inj]

theorem isBraced_eq (hs : s.chars = c :: cs) :
    isBraced (Text.encodeUtf8 text) s.offset (s.offset + Text.byteLength s.chars) =
      .ok (c = '\x7b' ∧ (c :: cs).getLast? = some '\x7d') := by
  have hne : s.chars ≠ [] := by rw [hs]; exact List.cons_ne_nil _ _
  obtain ⟨first, hfirst, hcurly⟩ := exists_firstByte h hs
  obtain ⟨last, hlast, hcloser⟩ := exists_lastByte h hne
  rw [isBraced, minus_of_le (one_le_stop hne), ← hs]
  simp only [bind, Except.bind, hfirst, hlast, hcurly '\x7b' (by decide),
    hcloser '\x7d' (by decide)]
  by_cases hc : c = '\x7b'
  · simp [hc, pure, Except.pure]
  · simp [hc, pure, Except.pure]

theorem endsInQuote_eq (hs : s.chars = '"' :: cs) :
    endsInQuote (Text.encodeUtf8 text) s.offset (s.offset + Text.byteLength s.chars) =
      .ok (cs.getLast? = some '"') := by
  have hne : s.chars ≠ [] := by rw [hs]; exact List.cons_ne_nil _ _
  have hsize : ('"' : Char).utf8Size = 1 := rfl
  obtain ⟨last, hlast, hquote⟩ := exists_lastByte h hne
  rw [endsInQuote, minus_of_le (Nat.le_add_right _ _), Nat.add_sub_cancel_left,
    minus_of_le (one_le_stop hne)]
  simp only [bind, Except.bind, hlast, hquote '"' (by decide)]
  rw [hs, Text.byteLength_cons, hsize]
  cases cs with
  | nil => simp [pure, Except.pure]
  | cons d cs =>
    have hd := d.utf8Size_pos
    rw [if_pos (by rw [Text.byteLength_cons]; omega), List.getLast?_cons_cons]
    rfl

theorem loneString_eq (hs : s.chars = '"' :: cs) :
    loneString text s.offset (s.offset + Text.byteLength s.chars) =
      tracked text (.ok (.scalar none (.string (.ofList (Reader.loneString cs))))) := by
  have hsize : ('"' : Char).utf8Size = 1 := rfl
  rw [loneString, lift_bind (endsInQuote_eq h hs), Reader.loneString]
  by_cases hquote : cs.getLast? = some '"'
  · have hstop := one_le_stop (show s.chars ≠ [] by rw [hs]; exact List.cons_ne_nil _ _)
    obtain ⟨inside, hinside⟩ := List.getLast?_eq_some_iff.mp hquote
    have hdrop : cs.dropLast = inside := by rw [hinside, List.dropLast_concat]
    have hend : s.offset + Text.byteLength s.chars - 1 =
        s.offset + 1 + Text.byteLength inside := by
      rw [hs, hinside]
      simp [hsize]
      omega
    have hslice : slice text (s.offset + 1) (s.offset + Text.byteLength s.chars - 1) =
        .ok inside := by
      rw [hend]
      exact slice_inside h (show '"'.toNat < 0x80 by decide) (hs.trans (by rw [hinside]))
    simp only [hquote, decide_true, if_true, hdrop]
    rw [lift_bind (minus_of_le hstop), lift_bind hslice]
    rfl
  · have hwithin := h.advance (show s.chars = ['"'] ++ cs from hs)
    have hslice : slice text (s.offset + 1) (s.offset + Text.byteLength s.chars) = .ok cs := by
      have hall := slice_within hwithin (List.append_nil cs).symm
      rw [hs, Text.byteLength_cons, hsize, ← Nat.add_assoc]
      exact hall
    simp only [hquote, decide_false, Bool.false_eq_true, if_false]
    change (liftM (slice text (s.offset + 1) _) : Run (List Char)) >>= _ = _
    rw [lift_bind hslice]
    rfl

theorem parseObject_blank (hs : s.trim.chars = []) :
    parseObject text options calls s.offset (s.offset + Text.byteLength s.chars) depth =
      tracked text (.ok .empty) := by
  rw [parseObject, lift_bind (trimSpan_within h), hs]
  exact if_pos rfl

theorem parseArray_blank (hs : s.trim.chars = []) :
    parseArray text options calls s.offset (s.offset + Text.byteLength s.chars) depth =
      tracked text (.ok []) := by
  rw [parseArray, lift_bind (trimSpan_within h), hs]
  exact if_pos rfl

theorem parseObject_refused {m : Nat} (hs : s.trim.chars ≠ []) (hm : options.maxDepth = some m)
    (hlt : m < depth) :
    parseObject text options calls s.offset (s.offset + Text.byteLength s.chars) depth =
      tracked text (.error ⟨.tooDeep m, s.trim.offset⟩) := by
  rw [parseObject, lift_bind (trimSpan_within h)]
  refine (if_neg (start_ne_stop hs)).trans ?_
  rw [checkDepth_of_lt hm hlt h.trim.isBoundary]
  rfl

theorem parseArray_refused {m : Nat} (hs : s.trim.chars ≠ []) (hm : options.maxDepth = some m)
    (hlt : m < depth) :
    parseArray text options calls s.offset (s.offset + Text.byteLength s.chars) depth =
      tracked text (.error ⟨.tooDeep m, s.trim.offset⟩) := by
  rw [parseArray, lift_bind (trimSpan_within h)]
  refine (if_neg (start_ne_stop hs)).trans ?_
  rw [checkDepth_of_lt hm hlt h.trim.isBoundary]
  rfl

/-- An object for which there is a level is read as a document is. -/
theorem parseObject_allowed (hs : s.trim.chars = c :: cs)
    (hallowed : ∀ m, options.maxDepth = some m → depth ≤ m)
    (agrees : Agrees text options.mode calls (depth + 1) below bound)
    (hbound : cs.length ≤ bound + 1) :
    parseObject text options calls s.offset (s.offset + Text.byteLength s.chars) depth =
      tracked text (
        if c = '"' then .ok (.scalar none (.string (.ofList (Reader.loneString cs))))
        else if c = '\x7b' ∧ (c :: cs).getLast? = some '\x7d' then
          wholePart options.mode .curly s.trim cs >>= fun part =>
            ((Level.above options.mode below).object part).result
        else .error (.malformed (.notEnclosed .curly) s.trim.offset)) := by
  have hne : s.trim.chars ≠ [] := by rw [hs]; exact List.cons_ne_nil _ _
  obtain ⟨first, hfirst, hquote⟩ := exists_firstByte h.trim hs
  rw [parseObject, lift_bind (trimSpan_within h)]
  refine (if_neg (start_ne_stop hne)).trans ?_
  rw [checkDepth_of_le hallowed, pure_bind, lift_bind hfirst]
  simp only [hquote '"' (by decide)]
  split
  next hc =>
    subst hc
    exact loneString_eq h.trim hs
  next hc =>
    rw [lift_bind (isBraced_eq h.trim hs)]
    simp only [decide_eq_true_eq]
    split
    next hbraced =>
      obtain ⟨rfl, -⟩ := hbraced
      have hcurly : s.trim.chars = Bracket.curly.opener :: cs := hs
      rw [wholeSpan_eq h.trim hcurly]
      cases hpart : wholePart options.mode .curly s.trim cs with
      | error fault => rfl
      | ok part =>
        obtain ⟨hbody, hlength⟩ := within_of_whole h.trim hcurly hpart
        exact parseMembers_eq hbody (agrees.mono (by omega))
    next => exact malformed_eq h.trim.isBoundary _

/-- An array for which there is a level is read as a document is. -/
theorem parseArray_allowed (hs : s.trim.chars = c :: cs)
    (hallowed : ∀ m, options.maxDepth = some m → depth ≤ m)
    (agrees : Agrees text options.mode calls (depth + 1) below bound)
    (hbound : cs.length ≤ bound + 1) (hstream : c = '\x7b' → s.trim.chars.length ≤ bound) :
    parseArray text options calls s.offset (s.offset + Text.byteLength s.chars) depth =
      tracked text (
        if c = '[' then
          wholePart options.mode .square s.trim cs >>= fun part =>
            ((Level.above options.mode below).array part).result
        else if c = '\x7b' then
          (Reading.items (outlineStream options.mode s.trim) below.object).result
        else .error (.malformed (.notEnclosed .square) s.trim.offset)) := by
  have hne : s.trim.chars ≠ [] := by rw [hs]; exact List.cons_ne_nil _ _
  obtain ⟨first, hfirst, hopener⟩ := exists_firstByte h.trim hs
  rw [parseArray, lift_bind (trimSpan_within h)]
  refine (if_neg (start_ne_stop hne)).trans ?_
  rw [checkDepth_of_le hallowed, pure_bind, lift_bind hfirst]
  split
  next hfirst =>
    obtain rfl := (hopener '[' (by decide)).mp hfirst
    have hsquare : s.trim.chars = Bracket.square.opener :: cs := hs
    rw [if_pos rfl, wholeSpan_eq h.trim hsquare]
    cases hpart : wholePart options.mode .square s.trim cs with
    | error fault => rfl
    | ok part =>
      obtain ⟨hbody, hlength⟩ := within_of_whole h.trim hsquare hpart
      exact parseElements_eq hbody (agrees.mono (by omega))
  next hfirst =>
    obtain rfl := (hopener '\x7b' (by decide)).mp hfirst
    rw [if_neg (by decide), if_pos rfl]
    exact parseStream_eq h.trim (agrees.mono (hstream rfl))
  next hsquare hcurly =>
    rw [if_neg fun hc => hsquare ((hopener '[' (by decide)).mpr hc),
      if_neg fun hc => hcurly ((hopener '\x7b' (by decide)).mpr hc)]
    exact malformed_eq h.trim.isBoundary _

end Within

end LenientJson.Offsets
