import LenientJson.Proofs.Offsets.Documents

/-!
# Reading within bounds

A reader that works in place by byte offsets, over the UTF-8 form of a text, never reaches beyond
the text or into a character. Its cursors stay within their spans, its scans begin at their openers
and count no bracket below the first one, and its calls nest no deeper than the text is long. So it
reads what is read from the characters.
-/
namespace LenientJson

namespace Offsets

open Reader

variable {text : List Char} {options : Options}

/-- As many levels are left at a depth as the limit allows, or enough for the parts below the
bound if there is no limit. -/
def Fits (options : Options) (limit levels depth bound : Nat) : Prop :=
  match options.maxDepth with
  | some m => limit = m ∧ levels + depth = m + 1
  | none => bound ≤ levels

section Fits

variable {limit levels depth bound : Nat}

theorem Fits.refused (h : Fits options limit 0 depth bound) (hbound : 0 < bound) :
    options.maxDepth = some limit ∧ limit < depth := by
  unfold Fits at h
  split at h
  next m hm =>
    obtain ⟨rfl, hdepth⟩ := h
    exact ⟨hm, by omega⟩
  next => omega

theorem Fits.allowed (h : Fits options limit (levels + 1) depth bound) (m : Nat)
    (hm : options.maxDepth = some m) : depth ≤ m := by
  unfold Fits at h
  rw [hm] at h
  obtain ⟨-, hdepth⟩ := h
  omega

theorem Fits.below {bound' : Nat} (h : Fits options limit (levels + 1) depth bound)
    (hbound : bound' < bound) : Fits options limit levels (depth + 1) bound' := by
  unfold Fits at h ⊢
  split at h
  next m hm => exact ⟨h.1, by omega⟩
  next => omega

end Fits

section Whole

variable (bracket : Bracket) (part : Enclosed)

theorem trim_whole : (whole bracket part).trim = whole bracket part :=
  trim_between rfl (isBlank_opener bracket) (isBlank_closer bracket)

theorem chars_trim_whole : (whole bracket part).trim.chars =
    bracket.opener :: (part.inside ++ [bracket.closer]) := congrArg Span.chars (trim_whole _ _)

theorem stop_whole :
    part.opener + Text.byteLength (whole bracket part).chars = close part + 1 := by
  simp only [whole, close, Text.byteLength_append, Text.byteLength_cons, Text.byteLength_nil,
    utf8Size_of_ascii (toNat_opener_lt bracket), utf8Size_of_ascii (toNat_closer_lt bracket)]
  omega

end Whole

/-- A call for a balanced part finds it to be the whole of its span. -/
theorem wholePart_whole {mode : ScanMode} {bracket : Bracket} {part : Enclosed}
    (h : Stands text mode bracket part) :
    wholePart mode bracket (whole bracket part).trim (part.inside ++ [bracket.closer]) =
      .ok part := by
  rw [trim_whole]
  exact wholePart_eq_ok_iff.mpr ⟨part.inside, rfl, h.balanced, rfl⟩

section Calls

variable {calls : Calls} {limit levels depth bound : Nat} {part : Enclosed}
  (fits : Fits options limit levels depth bound) (hlength : part.inside.length < bound)
  (agrees : ∀ lower, levels = lower + 1 → Agrees text options.mode calls (depth + 1)
    (Level.ofDepth options.mode limit lower) part.inside.length)
include fits hlength agrees

theorem parseObject_whole (hpart : Stands text options.mode .curly part) :
    parseObject text options calls part.opener (close part + 1) depth =
      tracked text ((Level.ofDepth options.mode limit levels).object part).result := by
  have hchars := chars_trim_whole .curly part
  rw [← stop_whole .curly]
  cases levels with
  | zero =>
    obtain ⟨hm, hlt⟩ := fits.refused (Nat.zero_lt_of_lt hlength)
    refine (parseObject_refused hpart.within ?_ hm hlt).trans (by rw [trim_whole]; rfl)
    rw [hchars]
    exact List.cons_ne_nil _ _
  | succ lower =>
    have hlast : ('\x7b' :: (part.inside ++ ['\x7d'])).getLast? = some '\x7d' := by
      rw [← List.cons_append, List.getLast?_concat]
    refine (parseObject_allowed hpart.within hchars fits.allowed (agrees lower rfl)
      (by simp)).trans ?_
    rw [if_neg (by decide), if_pos ⟨rfl, hlast⟩]
    exact congrArg (fun x => tracked text (x >>= _)) (wholePart_whole hpart)

theorem parseArray_whole (hpart : Stands text options.mode .square part) :
    parseArray text options calls part.opener (close part + 1) depth =
      tracked text ((Level.ofDepth options.mode limit levels).array part).result := by
  have hchars := chars_trim_whole .square part
  rw [← stop_whole .square]
  cases levels with
  | zero =>
    obtain ⟨hm, hlt⟩ := fits.refused (Nat.zero_lt_of_lt hlength)
    refine (parseArray_refused hpart.within ?_ hm hlt).trans (by rw [trim_whole]; rfl)
    rw [hchars]
    exact List.cons_ne_nil _ _
  | succ lower =>
    refine (parseArray_allowed hpart.within hchars fits.allowed (agrees lower rfl)
      (by simp) (fun hc => absurd hc (by decide))).trans ?_
    rw [if_pos (show Bracket.square.opener = '[' from rfl)]
    exact congrArg (fun x => tracked text (x >>= _)) (wholePart_whole hpart)

end Calls

/-- The calls read the parts of the text as the levels of nesting do. Each call leaves one fewer
for the parts within, and these are shorter. -/
theorem agrees_calls {limit levels depth bound : Nat} (k : Nat)
    (fits : Fits options limit levels depth bound) (hbound : bound ≤ k) :
    Agrees text options.mode (calls text options k) depth
      (Level.ofDepth options.mode limit levels) bound := by
  induction k generalizing levels depth bound with
  | zero =>
    exact ⟨fun _ _ hlength => absurd (hlength.trans_le hbound) (Nat.not_lt_zero _),
      fun _ _ hlength => absurd (hlength.trans_le hbound) (Nat.not_lt_zero _)⟩
  | succ k ih =>
    have hlower {part : Enclosed} (hlength : part.inside.length < bound) (lower : Nat)
        (hlevels : levels = lower + 1) :
        Agrees text options.mode (calls text options k) (depth + 1)
          (Level.ofDepth options.mode limit lower) part.inside.length := by
      subst hlevels
      exact ih (fits.below hlength) (by omega)
    exact ⟨fun _ hpart hlength => parseObject_whole fits hlength (hlower hlength) hpart,
      fun _ hpart hlength => parseArray_whole fits hlength (hlower hlength) hpart⟩

section Documents

variable (text options)

/-- Below the document itself there are levels and calls for all of its parts. -/
theorem agrees_document {below : Nat} (hl : levels options text = below + 1) :
    Agrees text options.mode (calls text options (Text.encodeUtf8 text).length) 2
      (Level.ofDepth options.mode (below + 1) below) text.length := by
  apply agrees_calls
  · unfold Fits
    unfold levels at hl
    split
    next m hm =>
      rw [hm, Option.getD_some] at hl
      omega
    next hm =>
      rw [hm, Option.getD_none] at hl
      omega
  · rw [Text.length_encodeUtf8]
    exact Text.length_le_byteLength text

variable {text options} in
theorem one_le_of_levels {below : Nat} (hl : levels options text = below + 1) (m : Nat)
    (hm : options.maxDepth = some m) : 1 ≤ m := by
  unfold levels at hl
  rw [hm, Option.getD_some] at hl
  omega

theorem stop_ofText : (Text.encodeUtf8 text).length =
    (Span.ofText text).offset + Text.byteLength (Span.ofText text).chars := by
  rw [Text.length_encodeUtf8]
  exact (Nat.zero_add _).symm

theorem parseObject_ofText :
    parseObject text options (calls text options (Text.encodeUtf8 text).length) 0
        (Text.encodeUtf8 text).length 1 =
      tracked text (Reader.readObject options text).result := by
  have h := Span.within_ofText text
  change parseObject text options _ (Span.ofText text).offset _ 1 = _
  rw [stop_ofText]
  cases hs : (Span.ofText text).trim.chars with
  | nil => rw [parseObject_blank h hs, readObject_nil hs]; rfl
  | cons c cs =>
    have hne : (Span.ofText text).trim.chars ≠ [] := by rw [hs]; exact List.cons_ne_nil _ _
    cases hl : levels options text with
    | zero =>
      rw [parseObject_refused h hne (levels_eq_zero_iff.mp hl) Nat.one_pos,
        readObject_result_zero hs hl]
    | succ below =>
      have hbound : cs.length ≤ text.length + 1 := by
        have hlength := length_trim_ofText_le text
        rw [hs, List.length_cons] at hlength
        omega
      have agrees := agrees_document text options hl
      rw [stop_ofText] at agrees
      rw [parseObject_allowed h hs (one_le_of_levels hl) agrees hbound,
        readObject_result_cons hs hl]
      rfl

theorem parseArray_ofText :
    parseArray text options (calls text options (Text.encodeUtf8 text).length) 0
        (Text.encodeUtf8 text).length 1 =
      tracked text (Reader.readArray options text).result := by
  have h := Span.within_ofText text
  change parseArray text options _ (Span.ofText text).offset _ 1 = _
  rw [stop_ofText]
  cases hs : (Span.ofText text).trim.chars with
  | nil => rw [parseArray_blank h hs, readArray_nil hs]; rfl
  | cons c cs =>
    have hne : (Span.ofText text).trim.chars ≠ [] := by rw [hs]; exact List.cons_ne_nil _ _
    cases hl : levels options text with
    | zero =>
      rw [parseArray_refused h hne (levels_eq_zero_iff.mp hl) Nat.one_pos,
        readArray_result_zero hs hl]
    | succ below =>
      have hlength := length_trim_ofText_le text
      have hbound : cs.length ≤ text.length + 1 := by
        rw [hs, List.length_cons] at hlength
        omega
      have agrees := agrees_document text options hl
      rw [stop_ofText] at agrees
      rw [parseArray_allowed h hs (one_le_of_levels hl) agrees hbound fun _ => hlength,
        readArray_result_cons hs hl]
      rfl

end Documents

end Offsets

/-- A text is read, escaped and unescaped by byte offsets as it is by characters, whatever the text
and the options are: no access is out of bounds or within a character, no cursor leaves its span,
no scan begins beside its opener or counts below zero. -/
theorem offsets_safe (text : List Char) (options : Options) :
    Offsets.readObject text options = .ok (Object.parse text options) ∧
      Offsets.readArray text options = .ok (Items.parse text options) ∧
      Offsets.escape text = .ok (Text.escape text) ∧
      Offsets.unescape text = .ok (Text.unescape text) :=
  ⟨Offsets.parseObject_ofText text options, Offsets.parseArray_ofText text options,
    Offsets.escape_eq text, Offsets.unescape_eq text⟩

end LenientJson
