import LenientJson.Proofs.Reading.Outcome
import LenientJson.Proofs.Reading.Pieces
import LenientJson.Reader.Document

/-!
# What a document is made of

Blanks at both ends are dropped. What is left is read as the document if there is a level for it,
and the part that is the whole of it ends at its last character.
-/
namespace LenientJson.Reader

/-- A span without blanks at its ends is not trimmed. -/
theorem trim_eq_self {s : Span} (hfirst : ∀ c, s.chars.head? = some c → Text.isBlank c = false)
    (hlast : ∀ c, s.chars.getLast? = some c → Text.isBlank c = false) : s.trim = s := by
  obtain ⟨offset, chars⟩ := s
  have hend : Text.trimEnd Text.isBlank chars = chars := by
    unfold Text.trimEnd
    cases hrev : chars.reverse with
    | nil => simpa using congrArg List.reverse hrev
    | cons c rest =>
      have hc : chars.getLast? = some c := by rw [List.getLast?_eq_head?_reverse, hrev]; rfl
      rw [List.dropWhile_cons_of_neg (by simp [hlast c hc]), ← hrev, List.reverse_reverse]
  cases chars with
  | nil => rfl
  | cons c rest =>
    have hc : ¬Text.isBlank c = true := by rw [hfirst c rfl]; exact Bool.false_ne_true
    simp only [Span.trim, Span.skipWhile, Span.advance, List.takeWhile_cons_of_neg hc,
      List.dropWhile_cons_of_neg hc, hend]
    rfl

theorem trim_between {s : Span} {first last : Char} {inside : List Char}
    (hs : s.chars = first :: inside ++ [last]) (hfirst : Text.isBlank first = false)
    (hlast : Text.isBlank last = false) : s.trim = s := by
  apply trim_eq_self
  · intro c hc
    rw [hs] at hc
    rw [← Option.some.inj hc]
    exact hfirst
  · intro c hc
    rw [hs, List.getLast?_concat] at hc
    rw [← Option.some.inj hc]
    exact hlast

theorem isBlank_opener (bracket : Bracket) : Text.isBlank bracket.opener = false := by
  cases bracket <;> rfl

theorem isBlank_closer (bracket : Bracket) : Text.isBlank bracket.closer = false := by
  cases bracket <;> rfl

inductive Padded (bracket : Bracket) (inside : List Char) : List Char → Prop
  | intro {front back : List Char} (before : ∀ c ∈ front, Text.isBlank c = true)
      (behind : ∀ c ∈ back, Text.isBlank c = true) :
      Padded bracket inside (front ++ (bracket.opener :: inside ++ [bracket.closer]) ++ back)

theorem padded_brackets (bracket : Bracket) (inside : List Char) :
    Padded bracket inside (bracket.opener :: inside ++ [bracket.closer]) := by
  have h : Padded bracket inside ([] ++ (bracket.opener :: inside ++ [bracket.closer]) ++ []) :=
    .intro (by simp) (by simp)
  rw [List.nil_append, List.append_nil] at h
  exact h

theorem Padded.trim {bracket : Bracket} {inside text : List Char} (h : Padded bracket inside text) :
    ∃ offset,
      (Span.ofText text).trim = ⟨offset, bracket.opener :: (inside ++ [bracket.closer])⟩ := by
  cases h with
  | @intro front back before behind =>
    obtain ⟨htake, hdrop⟩ : List.takeWhile Text.isBlank
          (front ++ (bracket.opener :: inside ++ [bracket.closer] ++ back)) = front ∧
        List.dropWhile Text.isBlank
          (front ++ (bracket.opener :: inside ++ [bracket.closer] ++ back)) =
            bracket.opener :: inside ++ [bracket.closer] ++ back := by
      refine takeWhile_dropWhile_iff.mpr ⟨rfl, before, fun c hc => ?_⟩
      rw [← Option.some.inj hc, isBlank_opener]
    have hback : Text.trimEnd Text.isBlank back = [] := by
      rw [Text.trimEnd, List.reverse_eq_nil_iff, List.dropWhile_eq_nil_iff]
      exact fun c hc => behind c (List.mem_reverse.mp hc)
    refine ⟨Text.byteLength front, ?_⟩
    rw [List.append_assoc]
    simp only [Span.trim, Span.skipWhile, Span.advance, Span.ofText, htake, hdrop,
      Text.trimEnd_concat_append _ _ (isBlank_closer bracket), hback, Nat.zero_add,
      List.append_nil]
    rfl

theorem trim_ofText_eq_nil_iff {text : List Char} :
    (Span.ofText text).trim.chars = [] ↔ text.all Text.isBlank = true := by
  simp only [Span.trim, Span.skipWhile, Span.advance, Span.ofText, Text.trimEnd,
    List.reverse_eq_nil_iff, List.dropWhile_eq_nil_iff, List.mem_reverse, List.all_eq_true]
  constructor
  · intro h c hc
    by_contra hblank
    have hmem : c ∈ text.dropWhile Text.isBlank := by
      rw [← List.takeWhile_append_dropWhile (p := Text.isBlank) (l := text)] at hc
      exact (List.mem_append.mp hc).resolve_left fun htaken =>
        hblank (List.mem_takeWhile_imp htaken)
    exact hblank (h c hmem)
  · intro h c hc
    exact h c ((List.dropWhile_suffix _).mem hc)

theorem length_trim_ofText_le (text : List Char) :
    (Span.ofText text).trim.chars.length ≤ text.length := by
  have hdrop := Span.length_skipWhile_le Text.isBlank (Span.ofText text)
  simp only [Span.trim, Text.trimEnd, List.length_reverse]
  refine ((List.dropWhile_suffix _).length_le.trans ?_).trans hdrop
  rw [List.length_reverse]

theorem wholePart_eq_ok_iff {mode : ScanMode} {bracket : Bracket} {s : Span} {cs : List Char}
    {part : Enclosed} : wholePart mode bracket s cs = .ok part ↔
      ∃ inside, cs = inside ++ [bracket.closer] ∧ Balanced mode bracket inside ∧
        part = ⟨s.offset, inside⟩ := by
  unfold wholePart
  constructor
  · intro h
    cases htake : takeEnclosed mode bracket s cs with
    | error fault => simp [htake, bind, Except.bind] at h
    | ok taken =>
      obtain ⟨part', rest⟩ := taken
      obtain ⟨inside, tail, hcs, hbalanced, rfl, rfl⟩ := takeEnclosed_eq_ok_iff.mp htake
      simp only [htake, bind, Except.bind] at h
      split at h
      next hrest =>
        have htail : tail = [] := List.isEmpty_iff.mp hrest
        rw [htail] at hcs
        exact ⟨inside, hcs, hbalanced, (Except.ok.inj h).symm⟩
      · simp at h
  · rintro ⟨inside, rfl, hbalanced, rfl⟩
    rw [takeEnclosed_eq_ok_iff.mpr ⟨inside, [], rfl, hbalanced, rfl, rfl⟩]
    rfl

theorem isMalformed_wholePart {mode : ScanMode} {bracket : Bracket} {s : Span} {cs : List Char}
    {fault : Fault} (h : wholePart mode bracket s cs = .error fault) : IsMalformed fault := by
  unfold wholePart at h
  cases htake : takeEnclosed mode bracket s cs with
  | error first =>
    simp only [htake, bind, Except.bind, Except.error.injEq] at h
    rw [← h]
    exact isMalformed_takeEnclosed htake
  | ok taken =>
    simp only [htake, bind, Except.bind] at h
    split at h
    · simp [pure, Except.pure] at h
    · exact ⟨_, by rw [← Except.error.inj h]; rfl⟩

/-- How an object is read once the blanks around it are gone. -/
theorem readObject_result_cons {options : Options} {text cs : List Char} {c : Char} {below : Nat}
    (hs : (Span.ofText text).trim.chars = c :: cs) (hl : levels options text = below + 1) :
    (readObject options text).result =
      if c = '"' then .ok (.scalar none (.string (.ofList (loneString cs))))
      else if c = '\x7b' ∧ (c :: cs).getLast? = some '\x7d' then
        wholePart options.mode .curly (Span.ofText text).trim cs >>= fun part =>
          ((Level.ofDepth options.mode (below + 1) (below + 1)).object part).result
      else .error (.malformed (.notEnclosed .curly) (Span.ofText text).trim.offset) := by
  unfold readObject
  simp only [hs, hl]
  split
  · rfl
  · split
    · rw [Reading.result_bind]
      rfl
    · rfl

theorem readObject_result_zero {options : Options} {text cs : List Char} {c : Char}
    (hs : (Span.ofText text).trim.chars = c :: cs) (hl : levels options text = 0) :
    (readObject options text).result = .error ⟨.tooDeep 0, (Span.ofText text).trim.offset⟩ := by
  unfold readObject
  simp only [hs, hl]
  rfl

theorem levels_eq_zero_iff {options : Options} {text : List Char} :
    levels options text = 0 ↔ options.maxDepth = some 0 := by
  unfold levels
  cases options.maxDepth <;> simp

/-- A text in braces that is balanced inside is read as the part that it is. -/
theorem readObject_padded {options : Options} {inside text : List Char}
    (h : Padded .curly inside text) (balanced : Balanced options.mode .curly inside) {below : Nat}
    (hl : levels options text = below + 1) :
    ∃ opener, (readObject options text).result =
      ((Level.ofDepth options.mode (below + 1) (below + 1)).object ⟨opener, inside⟩).result := by
  obtain ⟨offset, htrim⟩ := h.trim
  have hs : (Span.ofText text).trim.chars = '\x7b' :: (inside ++ ['\x7d']) :=
    congrArg Span.chars htrim
  have hlast : ('\x7b' :: (inside ++ ['\x7d'])).getLast? = some '\x7d' := by
    rw [← List.cons_append, List.getLast?_concat]
  have hpart : wholePart options.mode .curly (Span.ofText text).trim (inside ++ ['\x7d']) =
      .ok ⟨offset, inside⟩ := by
    rw [htrim]
    exact wholePart_eq_ok_iff.mpr ⟨inside, rfl, balanced, rfl⟩
  refine ⟨offset, ?_⟩
  rw [readObject_result_cons hs hl, if_neg (by decide), if_pos ⟨rfl, hlast⟩, hpart]
  rfl

theorem readObject_nil {options : Options} {text : List Char}
    (hs : (Span.ofText text).trim.chars = []) : readObject options text = .ok .empty := by
  unfold readObject
  simp only [hs]

theorem readArray_result_cons {options : Options} {text cs : List Char} {c : Char} {below : Nat}
    (hs : (Span.ofText text).trim.chars = c :: cs) (hl : levels options text = below + 1) :
    (readArray options text).result =
      if c = '[' then
        wholePart options.mode .square (Span.ofText text).trim cs >>= fun part =>
          ((Level.ofDepth options.mode (below + 1) (below + 1)).array part).result
      else if c = '\x7b' then
        (Reading.items (outlineStream options.mode (Span.ofText text).trim)
          (Level.ofDepth options.mode (below + 1) below).object).result
      else .error (.malformed (.notEnclosed .square) (Span.ofText text).trim.offset) := by
  unfold readArray
  simp only [hs, hl]
  split
  · rw [Reading.result_bind]
    rfl
  · split <;> rfl

theorem readArray_result_zero {options : Options} {text cs : List Char} {c : Char}
    (hs : (Span.ofText text).trim.chars = c :: cs) (hl : levels options text = 0) :
    (readArray options text).result = .error ⟨.tooDeep 0, (Span.ofText text).trim.offset⟩ := by
  unfold readArray
  simp only [hs, hl]
  rfl

/-- A text in square brackets that is balanced inside is read as the part that it is. -/
theorem readArray_padded {options : Options} {inside text : List Char}
    (h : Padded .square inside text) (balanced : Balanced options.mode .square inside) {below : Nat}
    (hl : levels options text = below + 1) :
    ∃ opener, (readArray options text).result =
      ((Level.ofDepth options.mode (below + 1) (below + 1)).array ⟨opener, inside⟩).result := by
  obtain ⟨offset, htrim⟩ := h.trim
  have hs : (Span.ofText text).trim.chars = '[' :: (inside ++ [']']) := congrArg Span.chars htrim
  have hpart : wholePart options.mode .square (Span.ofText text).trim (inside ++ [']']) =
      .ok ⟨offset, inside⟩ := by
    rw [htrim]
    exact wholePart_eq_ok_iff.mpr ⟨inside, rfl, balanced, rfl⟩
  refine ⟨offset, ?_⟩
  rw [readArray_result_cons hs hl, if_pos rfl, hpart]
  rfl

theorem readArray_nil {options : Options} {text : List Char}
    (hs : (Span.ofText text).trim.chars = []) : readArray options text = .ok [] := by
  unfold readArray
  simp only [hs]

/-- The part that is the whole of a text is shorter than the text, whatever its brackets. -/
theorem length_inside_lt_of_wholePart {mode : ScanMode} {bracket : Bracket} {text cs : List Char}
    {c : Char} {part : Enclosed} (hs : (Span.ofText text).trim.chars = c :: cs)
    (h : wholePart mode bracket (Span.ofText text).trim cs = .ok part) :
    part.inside.length < text.length := by
  obtain ⟨inside, rfl, -, rfl⟩ := wholePart_eq_ok_iff.mp h
  have hlength := length_trim_ofText_le text
  rw [hs, List.length_cons, List.length_append] at hlength
  simp only
  omega

variable {options : Options} {text : List Char}

inductive ObjectRead (options : Options) (text : List Char) (result : Except Fault Object) : Prop
  | blank (blanks : text.all Text.isBlank = true) (eq : result = .ok .empty)
  | refused (offset : Nat) (level : levels options text = 0)
      (eq : result = .error ⟨.tooDeep 0, offset⟩)
  | lone (string : String) (level : 0 < levels options text)
      (eq : result = .ok (.scalar none (.string string)))
  | malformed (fault : Fault) (form : IsMalformed fault) (eq : result = .error fault)
  | part (part : Enclosed) (level : 0 < levels options text)
      (shorter : part.inside.length < text.length)
      (eq : result = ((Level.ofDepth options.mode (levels options text)
        (levels options text)).object part).result)

theorem objectRead (options : Options) (text : List Char) :
    ObjectRead options text (readObject options text).result := by
  cases hs : (Span.ofText text).trim.chars with
  | nil => exact .blank (trim_ofText_eq_nil_iff.mp hs) (by rw [readObject_nil hs]; rfl)
  | cons c cs =>
    cases hl : levels options text with
    | zero => exact .refused _ hl (readObject_result_zero hs hl)
    | succ below =>
      have hlevel : 0 < levels options text := by
        rw [hl]
        exact Nat.succ_pos below
      have hread := readObject_result_cons hs hl
      split at hread
      · exact .lone _ hlevel hread
      · split at hread
        · cases hpart : wholePart options.mode .curly (Span.ofText text).trim cs with
          | error fault =>
            rw [hpart] at hread
            exact .malformed fault (isMalformed_wholePart hpart) hread
          | ok part =>
            rw [hpart, ← hl] at hread
            exact .part part hlevel (length_inside_lt_of_wholePart hs hpart) hread
        · exact .malformed _ ⟨_, rfl⟩ hread

inductive ArrayRead (options : Options) (text : List Char) (result : Except Fault (List Object)) :
    Prop
  | blank (blanks : text.all Text.isBlank = true) (eq : result = .ok [])
  | refused (offset : Nat) (level : levels options text = 0)
      (eq : result = .error ⟨.tooDeep 0, offset⟩)
  | malformed (fault : Fault) (form : IsMalformed fault) (eq : result = .error fault)
  | part (part : Enclosed) (shorter : part.inside.length < text.length)
      (eq : result = ((Level.ofDepth options.mode (levels options text)
        (levels options text)).array part).result)
  | stream (below : Nat) (level : levels options text = below + 1)
      (eq : result = (Reading.items (outlineStream options.mode (Span.ofText text).trim)
        (Level.ofDepth options.mode (below + 1) below).object).result)

theorem arrayRead (options : Options) (text : List Char) :
    ArrayRead options text (readArray options text).result := by
  cases hs : (Span.ofText text).trim.chars with
  | nil => exact .blank (trim_ofText_eq_nil_iff.mp hs) (by rw [readArray_nil hs]; rfl)
  | cons c cs =>
    cases hl : levels options text with
    | zero => exact .refused _ hl (readArray_result_zero hs hl)
    | succ below =>
      have hread := readArray_result_cons hs hl
      split at hread
      · cases hpart : wholePart options.mode .square (Span.ofText text).trim cs with
        | error fault =>
          rw [hpart] at hread
          exact .malformed fault (isMalformed_wholePart hpart) hread
        | ok part =>
          rw [hpart, ← hl] at hread
          exact .part part (length_inside_lt_of_wholePart hs hpart) hread
      · split at hread
        · exact .stream below hl hread
        · exact .malformed _ ⟨_, rfl⟩ hread

end LenientJson.Reader
