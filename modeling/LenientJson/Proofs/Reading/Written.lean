import LenientJson.Proofs.Reading.Outlines
import LenientJson.Proofs.Words

/-!
# Taking what is written

The texts that are written for strings, words, bracketed parts and members are each taken whole
wherever an item may stand.
-/
namespace LenientJson.Reader

variable {mode : ScanMode} {P : Piece → Prop}

theorem quotable_escape (text : List Char) : Quotable (Text.escape text) :=
  quotable_of_splitQuoted (splitQuoted_escape text [])

theorem takesBefore_quoted {text : List Char} (behind : List Char) (h : Quotable text)
    (hP : P (.quoted text)) : TakesBefore (takePiece mode) ('"' :: text ++ ['"']) behind P where
  first := ⟨'"', rfl, rfl⟩
  taken s hs := by
    have hchars : s.chars = '"' :: (text ++ '"' :: behind) := by simp [hs]
    exact ⟨_, _, takePiece_eq_ok_iff.mpr (.quoted hchars h), rfl, hP⟩

theorem takesBefore_enclosed {bracket : Bracket} {inside : List Char} (behind : List Char)
    (h : Balanced mode bracket inside) (hP : ∀ opener, P (.enclosed bracket ⟨opener, inside⟩)) :
    TakesBefore (takePiece mode) (bracket.opener :: inside ++ [bracket.closer]) behind P where
  first := by cases bracket <;> exact ⟨_, rfl, rfl⟩
  taken s hs := by
    have hchars : s.chars = bracket.opener :: (inside ++ bracket.closer :: behind) := by simp [hs]
    exact ⟨_, _, takePiece_eq_ok_iff.mpr (.enclosed hchars h), rfl, hP _⟩

theorem takesBefore_streamed {inside : List Char} {Q : Enclosed → Prop} (behind : List Char)
    (h : Balanced mode .curly inside) (hQ : ∀ opener, Q ⟨opener, inside⟩) :
    TakesBefore (takeStreamed mode) (Bracket.curly.opener :: inside ++ [Bracket.curly.closer])
      behind Q where
  first := ⟨'\x7b', rfl, rfl⟩
  taken s hs := by
    have hchars : s.chars = Bracket.curly.opener :: (inside ++ Bracket.curly.closer :: behind) := by
      simp [hs]
    exact ⟨_, _, takeStreamed_eq_ok_iff.mpr (.enclosed hchars h), rfl, hQ _⟩

theorem yields_quoted {text : List Char} (h : Quotable text) (hP : P (.quoted text)) :
    Yields (takePiece mode) ('"' :: text ++ ['"']) P :=
  yields_of_before fun tail _ => takesBefore_quoted tail h hP

theorem yields_enclosed {bracket : Bracket} {inside : List Char} (h : Balanced mode bracket inside)
    (hP : ∀ opener, P (.enclosed bracket ⟨opener, inside⟩)) :
    Yields (takePiece mode) (bracket.opener :: inside ++ [bracket.closer]) P :=
  yields_of_before fun tail _ => takesBefore_enclosed tail h hP

theorem trim_append_of_forall {p : Char → Bool} {cs blanks : List Char}
    (h : ∀ c ∈ cs, p c = false) (hblanks : ∀ c ∈ blanks, p c = true) (hne : cs ≠ []) :
    Text.trim p (cs ++ blanks) = cs := by
  obtain ⟨front, last, rfl⟩ := (List.eq_nil_or_concat' cs).resolve_left hne
  obtain ⟨first, more, hfirst⟩ := List.exists_cons_of_ne_nil hne
  have hstart : Text.trimStart p (front ++ [last] ++ blanks) = front ++ [last] ++ blanks := by
    rw [hfirst] at h ⊢
    rw [Text.trimStart, List.cons_append, List.dropWhile_cons_of_neg]
    simp [h first List.mem_cons_self]
  have hend : Text.trimEnd p blanks = [] := by
    rw [Text.trimEnd, List.reverse_eq_nil_iff, List.dropWhile_eq_nil_iff]
    exact fun c hc => hblanks c (List.mem_reverse.mp hc)
  rw [Text.trim, hstart, Text.trimEnd_concat_append _ _ (h last (by simp)), hend, List.append_nil]

/-- A word ends before a comma, so the blanks behind it are taken with it and dropped. -/
theorem yields_word_append {scalar : Scalar} {blanks : List Char} (h : scalar.isString = false)
    (blank : ∀ c ∈ blanks, Text.isBlank c = true) (hP : P (.word scalar.text)) :
    Yields (takePiece mode) (scalar.text ++ blanks) P := by
  have hplain (c : Char) (hc : c ∈ scalar.text) : Word.isPlain c = true :=
    Word.isPlain_of_mem_text h hc
  have hne (d : Char) (hd : Word.isPlain d = false) (c : Char) (hc : c ∈ scalar.text) : c ≠ d := by
    rintro rfl
    rw [hplain c hc] at hd
    cases hd
  obtain ⟨c, more, htext⟩ := List.exists_cons_of_ne_nil (Word.text_ne_nil h)
  have hc : c ∈ scalar.text := by rw [htext]; exact List.mem_cons_self
  have htrim : Text.trim Text.isWhiteSpace (scalar.text ++ blanks) = scalar.text :=
    trim_append_of_forall (fun d hd => Word.isWhiteSpace_of_isPlain (hplain d hd))
      (fun d hd => Text.isWhiteSpace_of_isBlank (blank d hd)) (Word.text_ne_nil h)
  constructor
  · refine ⟨c, by rw [htext]; rfl, ?_⟩
    have hblank : Text.isBlank c = false := by
      cases hb : Text.isBlank c with
      | false => rfl
      | true =>
        rw [← Text.isWhiteSpace_of_isBlank hb]
        exact Word.isWhiteSpace_of_isPlain (hplain c hc)
    simp [Text.isSeparator, hblank, hne ',' rfl c hc]
  · intro s tail hs htail
    have hhead (d : Char) (hd : s.chars.head? = some d) : d ≠ '"' ∧ d ≠ '\x7b' ∧ d ≠ '[' := by
      rw [hs, htext] at hd
      obtain rfl := Option.some.inj hd
      exact ⟨hne _ rfl c hc, hne _ rfl c hc, hne _ rfl c hc⟩
    have hcomma (d : Char) (hd : d ∈ scalar.text ++ blanks) : d ≠ ',' := by
      rcases List.mem_append.mp hd with hd | hd
      · exact hne ',' rfl d hd
      · rintro rfl
        cases blank ',' hd
    have htaken : Taken mode s (.word (Text.trim Text.isWhiteSpace (scalar.text ++ blanks)))
        (s.advance (scalar.text ++ blanks) tail) :=
      .word hs hhead hcomma htail (by rw [htrim]; exact Word.text_ne_nil h)
    rw [htrim] at htaken
    exact ⟨_, _, takePiece_eq_ok_iff.mpr htaken, rfl, hP⟩

theorem yields_word {scalar : Scalar} (h : scalar.isString = false) (hP : P (.word scalar.text)) :
    Yields (takePiece mode) scalar.text P := by
  have hword : Yields (takePiece mode) (scalar.text ++ []) P := yields_word_append h (by simp) hP
  rwa [List.append_nil] at hword

theorem takesLoosely_word {scalar : Scalar} (h : scalar.isString = false)
    (hP : P (.word scalar.text)) : TakesLoosely (takePiece mode) scalar.text P :=
  fun _ blank => (yields_word_append h blank hP).padded

theorem skipWhile_append {p : Char → Bool} {s : Span} {front back : List Char}
    (hs : s.chars = front ++ back) (hfront : ∀ c ∈ front, p c = true)
    (hback : ∀ c, back.head? = some c → p c = false) : (s.skipWhile p).chars = back := by
  change s.chars.dropWhile p = back
  rw [hs]
  exact dropWhile_append hfront hback

def memberText (key : String) (before behind value : List Char) : List Char :=
  '"' :: Text.escape key.toList ++ '"' :: (before ++ ':' :: (behind ++ value))

/-- A key is what its content between the quotes says. -/
theorem takesBefore_keyed {content before behind part tail : List Char} (hkey : Quotable content)
    (hbefore : ∀ c ∈ before, Text.isBlank c = true) (hbehind : ∀ c ∈ behind, Text.isBlank c = true)
    (h : TakesBefore (takePiece mode) part tail P) :
    TakesBefore (takeMember mode) ('"' :: content ++ '"' :: (before ++ ':' :: (behind ++ part)))
      tail fun member => member.1 = .ofList (Text.unescape content) ∧ P member.2 where
  first := ⟨'"', rfl, rfl⟩
  taken s hs := by
    have hchars : s.chars =
        '"' :: (content ++ '"' :: (before ++ ':' :: (behind ++ (part ++ tail)))) := by simp [hs]
    let behindKey := s.past '"' content '"' (before ++ ':' :: (behind ++ (part ++ tail)))
    have hcolon : (behindKey.skipWhile Text.isBlank).chars = ':' :: (behind ++ (part ++ tail)) :=
      skipWhile_append rfl hbefore fun c hc => by rw [← Option.some.inj hc]; rfl
    have htakeColon := takeColon_eq_ok_iff.mpr ⟨_, hcolon, rfl⟩
    have hpart : ((Span.advance (behindKey.skipWhile Text.isBlank) [':']
        (behind ++ (part ++ tail))).skipWhile Text.isBlank).chars = part ++ tail := by
      obtain ⟨c, hc, hsep⟩ := h.first
      obtain ⟨more, rfl⟩ := List.head?_eq_some_iff.mp hc
      apply skipWhile_append rfl hbehind
      intro d hd
      rw [← Option.some.inj hd]
      exact (Bool.or_eq_false_iff.mp hsep).1
    obtain ⟨piece, rest, htake, hrest, hP⟩ := h.taken _ hpart
    refine ⟨(_, piece), rest, ?_, hrest, rfl, hP⟩
    exact takeMember_eq_ok_iff.mpr ⟨_, _, _, .quoted hchars hkey, rfl, htakeColon,
      takePiece_eq_ok_iff.mp htake⟩

theorem takesBefore_member {key : String} {part behind : List Char}
    (h : TakesBefore (takePiece mode) part behind P) :
    TakesBefore (takeMember mode) ('"' :: Text.escape key.toList ++ '"' :: ':' :: part) behind
      fun member => member.1 = key ∧ P member.2 := by
  have hnothing : ∀ c ∈ [], Text.isBlank c = true := by simp
  have hmember := takesBefore_keyed (quotable_escape key.toList) hnothing hnothing h
  rw [Text.unescape_escape, String.ofList_toList] at hmember
  exact hmember

/-- What may be loose about a value may be so about its member. -/
theorem takesLoosely_keyed {content before behind text : List Char} (hkey : Quotable content)
    (hbefore : ∀ c ∈ before, Text.isBlank c = true) (hbehind : ∀ c ∈ behind, Text.isBlank c = true)
    (h : TakesLoosely (takePiece mode) text P) :
    TakesLoosely (takeMember mode) ('"' :: content ++ '"' :: (before ++ ':' :: (behind ++ text)))
      fun member => member.1 = .ofList (Text.unescape content) ∧ P member.2 := by
  intro blanks blank
  obtain ⟨part, left, htext, hleft, htakes⟩ := h blanks blank
  refine ⟨'"' :: content ++ '"' :: (before ++ ':' :: (behind ++ part)), left, ?_, hleft,
    fun tail htail => takesBefore_keyed hkey hbefore hbehind (htakes tail htail)⟩
  simp only [List.append_assoc, List.cons_append, ← htext]

theorem yields_member {key : String} {part : List Char} (h : Yields (takePiece mode) part P) :
    Yields (takeMember mode) ('"' :: Text.escape key.toList ++ '"' :: ':' :: part)
      fun member => member.1 = key ∧ P member.2 :=
  yields_of_before fun _ htail => takesBefore_member (h.before htail)

end LenientJson.Reader
