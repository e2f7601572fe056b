import LenientJson.Proofs.Reading.Documents

/-!
# Documents between brackets

A text that begins with an opener is read as the part that this opener begins, if nothing but blanks
stands behind the closer of the part. Any other such text is malformed, for the scan has no choice
about where the part ends.
-/
namespace LenientJson.Reader

variable {mode : ScanMode} {bracket : Bracket}

def Framed (mode : ScanMode) (bracket : Bracket) (text : List Char) : Prop :=
  ∃ inside, text = bracket.opener :: (inside ++ [bracket.closer]) ∧ Balanced mode bracket inside

/-- Of two framed texts none goes on where the other one ends. -/
theorem Framed.eq_of_append {a b x y : List Char} (ha : Framed mode bracket a)
    (hb : Framed mode bracket b) (h : a ++ x = b ++ y) : a = b := by
  obtain ⟨inside, rfl, hinside⟩ := ha
  obtain ⟨inside', rfl, hinside'⟩ := hb
  simp only [List.cons_append, List.append_assoc, List.nil_append, List.cons.injEq,
    true_and] at h
  rw [(hinside.append_inj hinside' h).1]

theorem trim_ofText_cons {c : Char} (cs : List Char) (h : Text.isBlank c = false) :
    (Span.ofText (c :: cs)).trim = ⟨0, c :: Text.trimEnd Text.isBlank cs⟩ := by
  have hc : ¬Text.isBlank c = true := Bool.eq_false_iff.mp h
  simp only [Span.trim, Span.skipWhile, Span.advance, Span.ofText, List.takeWhile_cons_of_neg hc,
    List.dropWhile_cons_of_neg hc, Text.trimEnd_cons cs h, Text.byteLength_nil]

/-- The ways in which a text that begins with an opener is read: `read` reads the part that is the
whole of it, on the given number of levels. -/
inductive FramedRead {α : Type} (options : Options) (bracket : Bracket) (text : List Char)
    (read : Nat → Enclosed → Except Fault α) (result : Except Fault α) : Prop
  | refused (offset : Nat) (limit : options.maxDepth = some 0)
      (eq : result = .error ⟨.tooDeep 0, offset⟩)
  | malformed (fault : Fault) (form : IsMalformed fault) (eq : result = .error fault)
  | part (inside blanks : List Char)
      (chars : text = bracket.opener :: (inside ++ bracket.closer :: blanks))
      (blank : ∀ c ∈ blanks, Text.isBlank c = true)
      (balanced : Balanced options.mode bracket inside) (limit : options.maxDepth ≠ some 0)
      (eq : result = read (levels options text) ⟨0, inside⟩)

/-- The part that is the whole of a trimmed text is read, or there is none and the text is
malformed. -/
theorem framedRead_of_wholePart {α : Type} {options : Options} {cs : List Char}
    (limit : options.maxDepth ≠ some 0) (read : Nat → Enclosed → Except Fault α) :
    FramedRead options bracket (bracket.opener :: cs) read
      (wholePart options.mode bracket ⟨0, bracket.opener :: Text.trimEnd Text.isBlank cs⟩
          (Text.trimEnd Text.isBlank cs) >>= read (levels options (bracket.opener :: cs))) := by
  cases hpart : wholePart options.mode bracket
      ⟨0, bracket.opener :: Text.trimEnd Text.isBlank cs⟩ (Text.trimEnd Text.isBlank cs) with
  | error fault => exact .malformed fault (isMalformed_wholePart hpart) rfl
  | ok part =>
    obtain ⟨inside, hend, hbalanced, rfl⟩ := wholePart_eq_ok_iff.mp hpart
    have hcs := Text.trimEnd_append Text.isBlank cs
    rw [hend, List.append_assoc, List.singleton_append] at hcs
    refine .part inside _ (by rw [hcs]) (fun c hc => ?_) hbalanced limit rfl
    exact List.mem_takeWhile_imp (List.mem_reverse.mp hc)

theorem framedRead_object {text : List Char} (options : Options)
    (opens : text.head? = some Bracket.curly.opener) :
    FramedRead options .curly text
      (fun n part => ((Level.ofDepth options.mode n n).object part).result)
      (readObject options text).result := by
  obtain ⟨cs, rfl⟩ := List.head?_eq_some_iff.mp opens
  have htrim := trim_ofText_cons cs (isBlank_opener .curly)
  have hs := congrArg Span.chars htrim
  cases hl : levels options (Bracket.curly.opener :: cs) with
  | zero => exact .refused _ (levels_eq_zero_iff.mp hl) (readObject_result_zero hs hl)
  | succ below =>
    rw [readObject_result_cons hs hl, if_neg (by decide), htrim, ← hl]
    split
    · refine framedRead_of_wholePart (fun hzero => ?_) _
      rw [levels_eq_zero_iff.mpr hzero] at hl
      cases hl
    · exact .malformed _ ⟨_, rfl⟩ rfl

theorem framedRead_array {text : List Char} (options : Options)
    (opens : text.head? = some Bracket.square.opener) :
    FramedRead options .square text
      (fun n part => ((Level.ofDepth options.mode n n).array part).result)
      (readArray options text).result := by
  obtain ⟨cs, rfl⟩ := List.head?_eq_some_iff.mp opens
  have htrim := trim_ofText_cons cs (isBlank_opener .square)
  have hs := congrArg Span.chars htrim
  cases hl : levels options (Bracket.square.opener :: cs) with
  | zero => exact .refused _ (levels_eq_zero_iff.mp hl) (readArray_result_zero hs hl)
  | succ below =>
    rw [readArray_result_cons hs hl, if_pos (by decide), htrim, ← hl]
    refine framedRead_of_wholePart (fun hzero => ?_) _
    rw [levels_eq_zero_iff.mpr hzero] at hl
    cases hl

end LenientJson.Reader
