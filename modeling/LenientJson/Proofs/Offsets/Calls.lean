import LenientJson.Proofs.Offsets.Progress
import LenientJson.Proofs.Reading.Documents
import Mathlib

/-!
# Calls within calls

The run of a call asks for the parts between its brackets, and for nothing else: it ends in the
same way with any readers that answer alike for the parts whose closers it finds there. So what a
call may ask for is known from the text.
-/
namespace LenientJson.Offsets

open Reader

/-- A call for an object or an array between two offsets, at a depth. -/
structure Call where
  bracket : Bracket
  start : Nat
  stop : Nat
  depth : Nat

structure Calls.AgreeOn (P : Call → Prop) (calls calls' : Calls) : Prop where
  object : ∀ start stop depth, P ⟨.curly, start, stop, depth⟩ →
    calls.object start stop depth = calls'.object start stop depth
  array : ∀ start stop depth, P ⟨.square, start, stop, depth⟩ →
    calls.array start stop depth = calls'.array start stop depth

theorem Calls.AgreeOn.mono {P Q : Call → Prop} {calls calls' : Calls}
    (agree : AgreeOn P calls calls') (h : ∀ call, Q call → P call) : AgreeOn Q calls calls' where
  object start stop depth hcall := agree.object start stop depth (h _ hcall)
  array start stop depth hcall := agree.array start stop depth (h _ hcall)

section Found

variable (text : List Char) (options : Options)

/-- A call for a part that is found between two offsets: its closer is the one that belongs to its
opener, in front of the second offset. -/
structure Found (first last depth : Nat) (call : Call) : Prop where
  first_le : first ≤ call.start
  closer : ∃ close, call.stop = close + 1 ∧
    findMatching options.mode call.bracket.opener call.bracket.closer (Text.encodeUtf8 text)
      call.start last = .ok (some close)
  depth_eq : call.depth = depth + 1

variable {text options} {first last depth : Nat} {calls calls' : Calls}

section Items

variable {cursor : Cursor}
  (agree : Calls.AgreeOn (Found text options first last depth) calls calls')
  (hfirst : first ≤ cursor.position) (hlast : cursor.stop = last)

theorem nested_congr {α : Type} {bracket : Bracket} {call call' : (start stop depth : Nat) → Run α}
    (h : ∀ close, findMatching options.mode bracket.opener bracket.closer (Text.encodeUtf8 text)
        cursor.position cursor.stop = .ok (some close) →
      call cursor.position (close + 1) (depth + 1) =
        call' cursor.position (close + 1) (depth + 1)) :
    nested text options bracket call depth cursor =
      nested text options bracket call' depth cursor := by
  apply bind_congr_pure
  intro close hclose
  rw [h close (findMatching_of_matching hclose)]

include agree hfirst hlast

theorem nested_object_congr : nested text options .curly calls.object depth cursor =
    nested text options .curly calls'.object depth cursor :=
  nested_congr fun close hclose =>
    agree.object _ _ _ ⟨hfirst, ⟨close, rfl, hlast ▸ hclose⟩, rfl⟩

theorem nested_array_congr : nested text options .square calls.array depth cursor =
    nested text options .square calls'.array depth cursor :=
  nested_congr fun close hclose =>
    agree.array _ _ _ ⟨hfirst, ⟨close, rfl, hlast ▸ hclose⟩, rfl⟩

theorem parseMemberValue_congr : parseMemberValue text options calls depth cursor =
    parseMemberValue text options calls' depth cursor := by
  unfold parseMemberValue
  rw [nested_object_congr agree hfirst hlast, nested_array_congr agree hfirst hlast]

theorem parseElement_congr : parseElement text options calls depth cursor =
    parseElement text options calls' depth cursor := by
  unfold parseElement
  rw [nested_object_congr agree hfirst hlast, nested_array_congr agree hfirst hlast]

theorem parseMember_congr : parseMember text options calls depth cursor =
    parseMember text options calls' depth cursor := by
  apply bind_congr_pure
  intro ⟨key, behindKey⟩ hkey
  apply bind_congr_pure
  intro atColon hskip
  apply bind_congr_pure
  intro eaten heat
  cases eaten with
  | none => rfl
  | some behindColon =>
    apply bind_congr_pure
    intro atValue hblanks
    have hcolon := (reaches_of_parseKey hkey).trans
      (Cursor.reaches_of_skip (lift_eq_pure_iff.mp hskip))
    have hstart := (Cursor.passes_of_eat (lift_eq_pure_iff.mp heat)).reaches
      (Cursor.reaches_of_skip (lift_eq_pure_iff.mp hblanks))
    have hreaches := hcolon.trans hstart.toReaches
    rw [parseMemberValue_congr agree (hfirst.trans hreaches.position_le)
      (hreaches.stop_eq.trans hlast)]

end Items

theorem parseStreamed_congr {cursor : Cursor}
    (agree : Calls.AgreeOn (fun call => call.bracket = .curly ∧
      Found text options first last depth call) calls calls')
    (hfirst : first ≤ cursor.position) (hlast : cursor.stop = last) :
    parseStreamed text options calls depth cursor =
      parseStreamed text options calls' depth cursor := by
  unfold parseStreamed
  rw [nested_congr fun close hclose =>
    agree.object _ _ _ ⟨rfl, hfirst, ⟨close, rfl, hlast ▸ hclose⟩, rfl⟩]

theorem parseItems_congr {α : Type} {siblings : Sibling} {item item' : Cursor → Run (α × Cursor)}
    {cursor : Cursor}
    (hitem : ∀ cursor : Cursor, first ≤ cursor.position → cursor.stop = last →
      item cursor = item' cursor)
    (hfirst : first ≤ cursor.position) (hlast : cursor.stop = last) :
    parseItems text siblings item cursor = parseItems text siblings item' cursor := by
  induction hn : cursor.stop - cursor.position using Nat.strong_induction_on
    generalizing cursor with
  | _ n ih =>
    rw [parseItems, parseItems]
    apply bind_congr_pure
    intro start hskip
    have hstart := Cursor.reaches_of_skip (lift_eq_pure_iff.mp hskip)
    rw [hitem start (hfirst.trans hstart.position_le) (hstart.stop_eq.trans hlast)]
    split
    · rfl
    · apply bind_congr_pure
      intro ⟨value, behind⟩ _
      apply bind_congr_pure
      intro next _
      split
      next hguard =>
        obtain ⟨hlt, hle, hstop⟩ := hguard
        rw [ih (next.stop - next.position) (by omega) (hfirst.trans hlt.le) (hstop.trans hlast) rfl]
      next => rfl

section Loops

variable {start stop : Nat}

theorem parseMembers_congr
    (agree : Calls.AgreeOn (Found text options start stop depth) calls calls') :
    parseMembers text options calls start stop depth =
      parseMembers text options calls' start stop depth := by
  apply bind_congr_pure
  intro cursor hmake
  obtain ⟨rfl, -⟩ := Cursor.eq_of_make (lift_eq_pure_iff.mp hmake)
  rw [parseItems_congr (fun _ => parseMember_congr agree) le_rfl rfl]

theorem parseElements_congr
    (agree : Calls.AgreeOn (Found text options start stop depth) calls calls') :
    parseElements text options calls start stop depth =
      parseElements text options calls' start stop depth := by
  apply bind_congr_pure
  intro cursor hmake
  obtain ⟨rfl, -⟩ := Cursor.eq_of_make (lift_eq_pure_iff.mp hmake)
  exact parseItems_congr (fun _ => parseElement_congr agree) le_rfl rfl

theorem parseStream_congr
    (agree : Calls.AgreeOn (fun call => call.bracket = .curly ∧
      Found text options start stop depth call) calls calls') :
    parseStream text options calls start stop depth =
      parseStream text options calls' start stop depth := by
  apply bind_congr_pure
  intro cursor hmake
  obtain ⟨rfl, -⟩ := Cursor.eq_of_make (lift_eq_pure_iff.mp hmake)
  exact parseItems_congr (fun _ => parseStreamed_congr agree) le_rfl rfl

end Loops

end Found

section Documents

variable (text : List Char) (options : Options)

/-- The span in which a call looks for its items: what stands between its brackets or, for an array
without brackets, all that is left of its own span. -/
inductive LooksIn (call : Call) (first last : Nat) : Prop where
  | enclosed {start stop : Nat}
      (htrim : trimSpan (Text.encodeUtf8 text) call.start call.stop = .ok (start, stop))
      (hwhole : wholeSpan text options call.bracket start stop = pure (first, last))
  | stream (hsquare : call.bracket = .square)
      (htrim : trimSpan (Text.encodeUtf8 text) call.start call.stop = .ok (first, last))
      (hcurly : (Text.encodeUtf8 text)[first]?.map asChar = some Bracket.curly.opener)

/-- A call for an array without brackets, whose first byte opens an object. -/
def IsStream (call : Call) : Prop :=
  call.bracket = .square ∧ ∃ first last,
    trimSpan (Text.encodeUtf8 text) call.start call.stop = .ok (first, last) ∧
      (Text.encodeUtf8 text)[first]?.map asChar = some Bracket.curly.opener

structure MayAsk (outer inner : Call) : Prop where
  found : ∃ first last, LooksIn text options outer first last ∧
    Found text options first last outer.depth inner
  curly : IsStream text outer → inner.bracket = .curly

/-- The run of a call asks for another one: it can end in two ways while all other calls are
answered alike. -/
def Asks (outer inner : Call) : Prop :=
  ∃ calls calls', Calls.AgreeOn (· ≠ inner) calls calls' ∧
    match outer.bracket with
    | .curly => parseObject text options calls outer.start outer.stop outer.depth ≠
        parseObject text options calls' outer.start outer.stop outer.depth
    | .square => parseArray text options calls outer.start outer.stop outer.depth ≠
        parseArray text options calls' outer.start outer.stop outer.depth

def readersOfEmpty (items : List Object) : Calls where
  object _ _ _ := pure .empty
  array start stop depth := if (start, stop, depth) = (1, 3, 2) then pure items else pure []

/-- The call for `[[]]` asks for the array in it. -/
theorem asks_nestedArray :
    Asks "[[]]".toList { maxDepth := none } ⟨.square, 0, 4, 1⟩ ⟨.square, 1, 3, 2⟩ := by
  have hempty : parseArray "[[]]".toList { maxDepth := none } (readersOfEmpty []) 0 4 1 =
      pure [Items.fold []] := by cbv
  have hfull : parseArray "[[]]".toList { maxDepth := none } (readersOfEmpty [.empty]) 0 4 1 =
      pure [Items.fold [.empty]] := by cbv
  refine ⟨readersOfEmpty [], readersOfEmpty [.empty], ?_, ?_⟩
  · constructor
    · exact fun _ _ _ _ => rfl
    · intro start stop depth hne
      have hother : ¬(start, stop, depth) = (1, 3, 2) := by
        intro heq
        cases heq
        exact hne rfl
      simp only [readersOfEmpty, if_neg hother]
  · intro heq
    cases hempty.symm.trans (heq.trans hfull)

variable {text options} {calls calls' : Calls} {start stop depth : Nat}

theorem eq_of_wholeSpan {bracket : Bracket} {inside : Nat × Nat}
    (h : wholeSpan text options bracket start stop = pure inside) :
    inside.1 = start + 1 ∧ inside.2 = stop - 1 ∧
      findMatching options.mode bracket.opener bracket.closer (Text.encodeUtf8 text) start stop =
        .ok (some inside.2) := by
  obtain ⟨close, hclose, h⟩ := bind_eq_pure_iff.mp h
  obtain ⟨before, hminus, h⟩ := bind_eq_pure_iff.mp h
  split at h
  next heq =>
    cases h
    subst heq
    have hstop := lift_eq_pure_iff.mp hminus
    rw [minus] at hstop
    split at hstop
    next =>
      cases hstop
      exact ⟨rfl, rfl, findMatching_of_matching hclose⟩
    next => cases hstop
  next => exact absurd h malformed_ne_pure

theorem getElem?_of_byteAt {bytes : List UInt8} {i : Nat} {byte : UInt8}
    (h : byteAt bytes i = .ok byte) : bytes[i]? = some byte := by
  rw [byteAt] at h
  split at h
  next hget =>
    cases h
    exact hget
  next => cases h

/-- A call that finds its own bracket is for no stream. -/
theorem not_isStream_of_wholeSpan {call : Call} {first last : Nat} {inside : Nat × Nat}
    (htrim : trimSpan (Text.encodeUtf8 text) call.start call.stop = .ok (first, last))
    (hwhole : wholeSpan text options call.bracket first last = pure inside) :
    ¬IsStream text call := by
  rintro ⟨hsquare, first', last', htrim', hcurly⟩
  rw [htrim] at htrim'
  cases htrim'
  have hopener := opener_of_findMatching (eq_of_wholeSpan hwhole).2.2
  rw [hcurly, hsquare] at hopener
  exact absurd hopener (by decide)

theorem parseObject_congr
    (agree : Calls.AgreeOn (MayAsk text options ⟨.curly, start, stop, depth⟩) calls calls') :
    parseObject text options calls start stop depth =
      parseObject text options calls' start stop depth := by
  apply bind_congr_pure
  intro ⟨first, last⟩ htrim
  have htrim := lift_eq_pure_iff.mp htrim
  simp only
  split
  · rfl
  · apply bind_congr_pure
    intro _ _
    apply bind_congr_pure
    intro byte _
    split
    · rfl
    · apply bind_congr_pure
      intro braced _
      split
      · apply bind_congr_pure
        intro ⟨inside, close⟩ hwhole
        apply parseMembers_congr
        apply agree.mono
        intro call hfound
        exact ⟨⟨inside, close, .enclosed htrim hwhole, hfound⟩, fun hstream => nomatch hstream.1⟩
      · rfl

theorem parseArray_congr
    (agree : Calls.AgreeOn (MayAsk text options ⟨.square, start, stop, depth⟩) calls calls') :
    parseArray text options calls start stop depth =
      parseArray text options calls' start stop depth := by
  apply bind_congr_pure
  intro ⟨first, last⟩ htrim
  have htrim := lift_eq_pure_iff.mp htrim
  simp only
  split
  · rfl
  · apply bind_congr_pure
    intro _ _
    apply bind_congr_pure
    intro byte hbyte
    split
    next =>
      apply bind_congr_pure
      intro ⟨inside, close⟩ hwhole
      apply parseElements_congr
      apply agree.mono
      intro call hfound
      exact ⟨⟨inside, close, .enclosed htrim hwhole, hfound⟩,
        fun hstream => absurd hstream (not_isStream_of_wholeSpan htrim hwhole)⟩
    next hcurly =>
      have hopener : (Text.encodeUtf8 text)[first]?.map asChar = some Bracket.curly.opener := by
        rw [getElem?_of_byteAt (lift_eq_pure_iff.mp hbyte)]
        exact congrArg some hcurly
      apply parseStream_congr
      apply agree.mono
      intro call hfound
      exact ⟨⟨first, last, .stream rfl htrim hopener, hfound.2⟩, fun _ => hfound.1⟩
    next => rfl

/-- A call asks for nothing but parts that it finds. -/
theorem mayAsk_of_asks {outer inner : Call} (h : Asks text options outer inner) :
    MayAsk text options outer inner := by
  by_contra hnot
  obtain ⟨calls, calls', agree, hne⟩ := h
  have hmay : Calls.AgreeOn (MayAsk text options outer) calls calls' :=
    agree.mono fun call hcall heq => hnot (heq ▸ hcall)
  obtain ⟨bracket, start, stop, depth⟩ := outer
  cases bracket with
  | curly => exact hne (parseObject_congr hmay)
  | square => exact hne (parseArray_congr hmay)

end Documents

section Trimming

variable {bytes : List UInt8} {start stop first last : Nat}

theorem le_of_skipBlanks (h : skipBlanks bytes start stop = .ok first) : start ≤ first := by
  induction hn : stop - start generalizing start with
  | zero =>
    rw [skipBlanks, if_neg (by omega)] at h
    cases h
    exact le_rfl
  | succ n ih =>
    rw [skipBlanks, if_pos (by omega)] at h
    obtain ⟨byte, -, h⟩ := bind_eq_ok_iff.mp h
    split at h
    next => exact (Nat.le_succ start).trans (ih h (by omega))
    next =>
      cases h
      exact le_rfl

theorem le_of_dropBlanks (h : dropBlanks bytes start stop = .ok last) : last ≤ stop := by
  induction stop with
  | zero =>
    cases h
    exact le_rfl
  | succ stop ih =>
    rw [dropBlanks] at h
    split at h
    next =>
      obtain ⟨byte, -, h⟩ := bind_eq_ok_iff.mp h
      split at h
      next => exact (ih h).trans (Nat.le_succ stop)
      next =>
        cases h
        exact le_rfl
    next =>
      cases h
      exact le_rfl

theorem bounds_of_trimSpan (h : trimSpan bytes start stop = .ok (first, last)) :
    start ≤ first ∧ last ≤ stop := by
  obtain ⟨front, hfront, h⟩ := bind_eq_ok_iff.mp h
  obtain ⟨back, hback, h⟩ := bind_eq_ok_iff.mp h
  cases h
  exact ⟨le_of_skipBlanks hfront, le_of_dropBlanks hback⟩

/-- Nothing is trimmed between brackets. -/
theorem trimSpan_brackets {bracket : Bracket} {close : Nat} (hlt : start < close)
    (hopener : bytes[start]?.map asChar = some bracket.opener)
    (hcloser : bytes[close]?.map asChar = some bracket.closer) :
    trimSpan bytes start (close + 1) = .ok (start, close + 1) := by
  obtain ⟨lead, hlead, hleadChar⟩ := Option.map_eq_some_iff.mp hopener
  obtain ⟨tail, htail, htailChar⟩ := Option.map_eq_some_iff.mp hcloser
  have hskip : skipBlanks bytes start (close + 1) = .ok start := by
    rw [skipBlanks, if_pos (by omega), byteAt, hlead]
    simp only [bind, Except.bind, hleadChar, isBlank_opener]
    rfl
  have hdrop : dropBlanks bytes start (close + 1) = .ok (close + 1) := by
    rw [dropBlanks, if_pos (by omega), byteAt, htail]
    simp only [bind, Except.bind, htailChar, isBlank_closer]
    rfl
  rw [trimSpan, hskip]
  simp only [bind, Except.bind, hdrop]
  rfl

end Trimming

section Nested

variable {text : List Char} {options : Options} {first last depth : Nat} {outer inner : Call}

/-- A part that is found has its brackets in the span. -/
theorem Found.bounds (h : Found text options first last depth inner) :
    inner.start + 1 < inner.stop ∧ inner.stop ≤ last := by
  obtain ⟨close, hstop, hmatch⟩ := h.closer
  obtain ⟨⟨hlt, hlast, -⟩, -⟩ := isFirst_of_findMatching hmatch
  omega

/-- The own scan of a part ends where the scan that found it did. -/
theorem Found.findMatching_eq (h : Found text options first last depth inner) :
    findMatching options.mode inner.bracket.opener inner.bracket.closer (Text.encodeUtf8 text)
      inner.start inner.stop = .ok (some (inner.stop - 1)) := by
  obtain ⟨close, hstop, hmatch⟩ := h.closer
  rw [hstop]
  exact findMatching_stable (Nat.lt_succ_self close) hmatch

theorem Found.trimSpan_eq (h : Found text options first last depth inner) :
    trimSpan (Text.encodeUtf8 text) inner.start inner.stop = .ok (inner.start, inner.stop) := by
  obtain ⟨close, hstop, hmatch⟩ := h.closer
  obtain ⟨⟨hlt, -⟩, -⟩ := isFirst_of_findMatching hmatch
  rw [hstop]
  exact trimSpan_brackets hlt (opener_of_findMatching hmatch) (closer_of_findMatching hmatch)

end Nested

end LenientJson.Offsets
