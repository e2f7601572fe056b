import LenientJson.Proofs.Reading.Pieces
import LenientJson.Text.Commas
import Mathlib.Data.List.Forall2

/-!
# From item to item

An outline skips separators, takes an item, skips blanks and begins again at a comma. What a
reader of items keeps true from one place to the next therefore holds of all its items; and texts
that are each taken whole are taken one after the other when commas stand between them.
-/
namespace LenientJson.Reader

variable {α : Type} {siblings : Sibling} {take : Span → Except Fault (α × Span)}
  {consumes : Consumes take} {s : Span}

theorem outline_of_isEmpty (h : (s.skipWhile Text.isSeparator).chars = []) :
    outline siblings take consumes s = ⟨[], none⟩ := by
  rw [outline]
  simp [h]

theorem outline_of_error {fault : Fault} (h : (s.skipWhile Text.isSeparator).chars ≠ [])
    (htake : take (s.skipWhile Text.isSeparator) = .error fault) :
    outline siblings take consumes s = ⟨[], some fault⟩ := by
  rw [outline]
  simp only [List.isEmpty_iff, h, if_false]
  split
  next fault' htake' => rw [htake, Except.error.injEq] at htake'; rw [htake']
  next htake' => rw [htake] at htake'; cases htake'

theorem outline_of_ok {item : α} {rest : Span} (h : (s.skipWhile Text.isSeparator).chars ≠ [])
    (htake : take (s.skipWhile Text.isSeparator) = .ok (item, rest)) :
    outline siblings take consumes s =
      if atBoundary (rest.skipWhile Text.isBlank) then
        .cons item (outline siblings take consumes (rest.skipWhile Text.isBlank))
      else
        ⟨[item],
          some (.malformed (.unseparated siblings) (rest.skipWhile Text.isBlank).offset)⟩ := by
  rw [outline]
  simp only [List.isEmpty_iff, h, if_false]
  split
  next htake' => rw [htake] at htake'; cases htake'
  next item' rest' htake' =>
    rw [htake, Except.ok.injEq, Prod.mk.injEq] at htake'
    obtain ⟨rfl, rfl⟩ := htake'
    rfl

/-- What a reader of items keeps true: a property of the places between items, one of the places
where an item begins, and one of the items. -/
structure Invariant (take : Span → Except Fault (α × Span)) (Between AtItem : Span → Prop)
    (Item : α → Prop) : Prop where
  skip : ∀ s, Between s → (s.skipWhile Text.isSeparator).chars ≠ [] →
    AtItem (s.skipWhile Text.isSeparator)
  item : ∀ s item rest, AtItem s → take s = .ok (item, rest) → Item item
  step : ∀ s item rest, AtItem s → take s = .ok (item, rest) →
    atBoundary (rest.skipWhile Text.isBlank) = true → Between (rest.skipWhile Text.isBlank)

theorem Invariant.items {Between AtItem : Span → Prop} {Item : α → Prop}
    (invariant : Invariant take Between AtItem Item) (h : Between s) :
    ∀ item ∈ (outline siblings take consumes s).items, Item item := by
  fun_induction outline siblings take consumes s with
  | case1 s start hempty => simp
  | case2 s start hne fault htake => simp
  | case3 s start hne item rest htake stop hstop ih =>
    have hstart := invariant.skip s h (by simpa using hne)
    intro x hx
    rcases List.mem_cons.mp hx with rfl | hx
    · exact invariant.item _ _ _ hstart htake
    · exact ih (invariant.step _ _ _ hstart htake hstop) x hx
  | case4 s start hne item rest htake stop hstop =>
    have hstart := invariant.skip s h (by simpa using hne)
    intro x hx
    obtain rfl := List.mem_singleton.mp hx
    exact invariant.item _ _ _ hstart htake

/-- Two readers of items that agree wherever an item begins make the same outline. -/
theorem Invariant.outline_congr {take' : Span → Except Fault (α × Span)}
    {consumes' : Consumes take'} {Between AtItem : Span → Prop} {Item : α → Prop}
    (invariant : Invariant take Between AtItem Item)
    (agree : ∀ s, AtItem s → take' s = take s) (h : Between s) :
    outline siblings take' consumes' s = outline siblings take consumes s := by
  fun_induction outline siblings take consumes s with
  | case1 s start hempty => exact outline_of_isEmpty (by simpa using hempty)
  | case2 s start hne fault htake =>
    have hne' : start.chars ≠ [] := by simpa using hne
    apply outline_of_error hne'
    rw [agree _ (invariant.skip s h hne')]
    exact htake
  | case3 s start hne item rest htake stop hstop ih =>
    have hne' : start.chars ≠ [] := by simpa using hne
    have hstart := invariant.skip s h hne'
    rw [outline_of_ok hne' ((agree _ hstart).trans htake), if_pos hstop,
      ih (invariant.step _ _ _ hstart htake hstop)]
  | case4 s start hne item rest htake stop hstop =>
    have hne' : start.chars ≠ [] := by simpa using hne
    have hstart := invariant.skip s h hne'
    rw [outline_of_ok hne' ((agree _ hstart).trans htake), if_neg hstop]

/-- The fault of an outline is one that the reader of items finds, or stands behind an item where
another part should be kept apart. -/
theorem Invariant.fault {Between AtItem : Span → Prop} {Item : α → Prop} {Q : Fault → Prop}
    (invariant : Invariant take Between AtItem Item)
    (herror : ∀ s fault, AtItem s → take s = .error fault → Q fault)
    (hstop : ∀ s item rest, AtItem s → take s = .ok (item, rest) →
      Q (.malformed (.unseparated siblings) (rest.skipWhile Text.isBlank).offset))
    (h : Between s) {fault : Fault}
    (hfault : (outline siblings take consumes s).fault = some fault) : Q fault := by
  fun_induction outline siblings take consumes s with
  | case1 s start hempty => cases hfault
  | case2 s start hne first htake =>
    obtain rfl := Option.some.inj hfault
    exact herror _ _ (invariant.skip s h (by simpa using hne)) htake
  | case3 s start hne item rest htake stop boundary ih =>
    have hstart := invariant.skip s h (by simpa using hne)
    exact ih (invariant.step _ _ _ hstart htake boundary) hfault
  | case4 s start hne item rest htake stop boundary =>
    obtain rfl := Option.some.inj hfault
    exact hstop _ _ _ (invariant.skip s h (by simpa using hne)) htake

theorem invariant_true : Invariant take (fun _ => True) (fun _ => True) fun _ => True where
  skip _ _ _ := trivial
  item _ _ _ _ _ := trivial
  step _ _ _ _ _ _ := trivial

theorem isMalformed_outline (herror : ∀ s fault, take s = .error fault → IsMalformed fault)
    {fault : Fault} (h : (outline siblings take consumes s).fault = some fault) :
    IsMalformed fault :=
  invariant_true.fault (fun s fault _ => herror s fault) (fun _ _ _ _ _ => ⟨_, rfl⟩) trivial h

theorem skipWhile_of_head? {p : Char → Bool} (h : ∀ c, s.chars.head? = some c → p c = false) :
    (s.skipWhile p).chars = s.chars := by
  obtain ⟨offset, chars⟩ := s
  cases chars with
  | nil => rfl
  | cons c cs => simp [Span.skipWhile, Span.advance, h c rfl]

def AtEnd (tail : List Char) : Prop := ∀ c, tail.head? = some c → c = ','

theorem AtEnd.isBlank_head? {tail : List Char} (h : AtEnd tail) (c : Char)
    (hc : tail.head? = some c) : Text.isBlank c = false := by
  rw [h c hc]
  rfl

/-- A text that the reader takes whole, as an item with the property, wherever an item may
stand. -/
structure Yields (take : Span → Except Fault (α × Span)) (part : List Char) (P : α → Prop) :
    Prop where
  first : ∃ c, part.head? = some c ∧ Text.isSeparator c = false
  taken : ∀ s tail, s.chars = part ++ tail → AtEnd tail →
    ∃ item rest, take s = .ok (item, rest) ∧ rest.chars = tail ∧ P item

theorem Yields.mono {part : List Char} {P Q : α → Prop} (h : Yields take part P)
    (hPQ : ∀ item, P item → Q item) : Yields take part Q where
  first := h.first
  taken s tail hs htail := by
    obtain ⟨item, rest, htake, hrest, hitem⟩ := h.taken s tail hs htail
    exact ⟨item, rest, htake, hrest, hPQ item hitem⟩

/-- A text that the reader takes whole, as an item with the property, where `behind` follows it. -/
structure TakesBefore (take : Span → Except Fault (α × Span)) (part behind : List Char)
    (P : α → Prop) : Prop where
  first : ∃ c, part.head? = some c ∧ Text.isSeparator c = false
  taken : ∀ s, s.chars = part ++ behind →
    ∃ item rest, take s = .ok (item, rest) ∧ rest.chars = behind ∧ P item

theorem Yields.before {part tail : List Char} {P : α → Prop} (h : Yields take part P)
    (htail : AtEnd tail) : TakesBefore take part tail P where
  first := h.first
  taken s hs := h.taken s tail hs htail

theorem yields_of_before {part : List Char} {P : α → Prop}
    (h : ∀ tail, AtEnd tail → TakesBefore take part tail P) : Yields take part P where
  first := (h [] fun _ hc => by cases hc).first
  taken s tail hs htail := (h tail htail).taken s hs

section Listed

variable {β : Type} {P : β → α → Prop} {l : List β} {text : List Char} {parts : List (List Char)}

/-- Texts of items one after the other. Separators may stand before each of them, and blanks behind
it; then the text ends, or a comma follows. -/
inductive Listed (take : Span → Except Fault (α × Span)) (P : β → α → Prop) :
    List β → List Char → Prop
  | nil {gap : List Char} (separators : ∀ c ∈ gap, Text.isSeparator c = true) : Listed take P [] gap
  | cons {b : β} {l : List β} {text : List Char} (front part blanks tail : List Char)
      (chars : text = front ++ (part ++ (blanks ++ tail)))
      (separators : ∀ c ∈ front, Text.isSeparator c = true)
      (takes : TakesBefore take part (blanks ++ tail) (P b))
      (blank : ∀ c ∈ blanks, Text.isBlank c = true) (atEnd : AtEnd tail)
      (rest : Listed take P l tail) : Listed take P (b :: l) text

/-- A list is what is left when characters of some kind are dropped from its front. -/
theorem dropWhile_append {p : Char → Bool} {front back : List Char}
    (hfront : ∀ c ∈ front, p c = true) (hback : ∀ c, back.head? = some c → p c = false) :
    (front ++ back).dropWhile p = back :=
  (takeWhile_dropWhile_iff.mpr ⟨rfl, hfront, hback⟩).2

/-- Listed texts are taken one after the other, and nothing else is found. -/
theorem outline_listed (h : Listed take P l text) (hs : s.chars = text) :
    ∃ items, outline siblings take consumes s = ⟨items, none⟩ ∧ List.Forall₂ P l items := by
  induction h generalizing s with
  | nil separators =>
    refine ⟨[], outline_of_isEmpty ?_, .nil⟩
    exact List.dropWhile_eq_nil_iff.mpr (by rwa [hs])
  | @cons b l text front part blanks tail chars separators takes blank atEnd rest ih =>
    obtain ⟨c, hc, hsep⟩ := takes.first
    obtain ⟨more, hpart⟩ := List.head?_eq_some_iff.mp hc
    have hstart : (s.skipWhile Text.isSeparator).chars = part ++ (blanks ++ tail) := by
      change s.chars.dropWhile _ = _
      rw [hs, chars]
      apply dropWhile_append separators
      intro d hd
      rw [hpart] at hd
      rw [← Option.some.inj hd, hsep]
    obtain ⟨item, rest, htake, hrest, hitem⟩ := takes.taken _ hstart
    have hstop : (rest.skipWhile Text.isBlank).chars = tail := by
      change rest.chars.dropWhile _ = _
      rw [hrest]
      exact dropWhile_append blank atEnd.isBlank_head?
    have hboundary : atBoundary (rest.skipWhile Text.isBlank) = true := by
      unfold atBoundary
      rw [hstop]
      cases tail with
      | nil => rfl
      | cons d more => simpa using atEnd d rfl
    have hne : (s.skipWhile Text.isSeparator).chars ≠ [] := by
      rw [hstart, hpart]
      exact List.cons_ne_nil _ _
    obtain ⟨items, hout, hitems⟩ := ih hstop
    rw [outline_of_ok hne htake, if_pos hboundary, hout]
    exact ⟨item :: items, rfl, .cons hitem hitems⟩

theorem Listed.prepend {front : List Char} (h : Listed take P l text)
    (hfront : ∀ c ∈ front, Text.isSeparator c = true) : Listed take P l (front ++ text) := by
  cases h with
  | nil separators =>
    exact .nil fun c hc => (List.mem_append.mp hc).elim (hfront c) (separators c)
  | @cons b l text first part blanks tail chars separators takes blank atEnd rest =>
    refine .cons (front ++ first) part blanks tail ?_ (fun c hc => ?_) takes blank atEnd rest
    · rw [chars, List.append_assoc]
    · exact (List.mem_append.mp hc).elim (hfront c) (separators c)

/-- Behind the blanks of a run of separators an item may end, if a comma is left of the run or
nothing follows it. -/
theorem atEnd_dropWhile_append {gap tail : List Char}
    (separators : ∀ c ∈ gap, Text.isSeparator c = true) (comma : tail = [] ∨ ',' ∈ gap) :
    AtEnd (gap.dropWhile Text.isBlank ++ tail) := by
  induction gap with
  | nil =>
    obtain rfl := comma.resolve_right List.not_mem_nil
    exact fun _ hc => by cases hc
  | cons d gap ih =>
    cases hd : Text.isBlank d with
    | true =>
      rw [List.dropWhile_cons_of_pos hd]
      apply ih fun c hc => separators c (List.mem_cons_of_mem d hc)
      refine comma.imp_right fun hcomma => (List.mem_cons.mp hcomma).resolve_left ?_
      rintro rfl
      cases hd
    | false =>
      rw [List.dropWhile_cons_of_neg (Bool.eq_false_iff.mp hd)]
      intro c hc
      obtain rfl := Option.some.inj hc
      simpa [Text.isSeparator, hd] using separators d List.mem_cons_self

def TakesPadded (take : Span → Except Fault (α × Span)) (text : List Char) (P : α → Prop) : Prop :=
  ∃ part blanks, text = part ++ blanks ∧ (∀ c ∈ blanks, Text.isBlank c = true) ∧
    ∀ tail, AtEnd tail → TakesBefore take part (blanks ++ tail) P

theorem Yields.padded {part : List Char} {Q : α → Prop} (h : Yields take part Q) :
    TakesPadded take part Q :=
  ⟨part, [], (List.append_nil part).symm, by simp, fun _ => h.before⟩

/-- A text that the reader takes as an item with any blanks behind it, which may count as part of
what is taken. -/
def TakesLoosely (take : Span → Except Fault (α × Span)) (text : List Char) (P : α → Prop) :
    Prop :=
  ∀ blanks, (∀ c ∈ blanks, Text.isBlank c = true) → TakesPadded take (text ++ blanks) P

theorem takesLoosely_of_before {part : List Char} {Q : α → Prop}
    (h : ∀ behind, TakesBefore take part behind Q) : TakesLoosely take part Q :=
  fun blanks blank => ⟨part, blanks, rfl, blank, fun _ _ => h _⟩

/-- Behind an item stands a run of separators. There is a comma among them if anything follows. -/
theorem Listed.cons_loosely {b : β} {part gap tail : List Char} (rest : Listed take P l tail)
    (takes : TakesLoosely take part (P b)) (separators : ∀ c ∈ gap, Text.isSeparator c = true)
    (comma : tail = [] ∨ ',' ∈ gap) : Listed take P (b :: l) (part ++ (gap ++ tail)) := by
  have hbehind : ∀ c ∈ gap.dropWhile Text.isBlank, Text.isSeparator c = true := fun c hc =>
    separators c ((List.dropWhile_suffix Text.isBlank).mem hc)
  have hend := atEnd_dropWhile_append separators comma
  obtain ⟨taken, blanks, hpart, hblanks, htakes⟩ :=
    takes (gap.takeWhile Text.isBlank) fun _ hc => List.mem_takeWhile_imp hc
  refine .cons [] taken blanks (gap.dropWhile Text.isBlank ++ tail) ?_ (by simp) (htakes _ hend)
    hblanks hend (rest.prepend hbehind)
  calc part ++ (gap ++ tail)
      = part ++ (gap.takeWhile Text.isBlank ++ gap.dropWhile Text.isBlank ++ tail) := by
        rw [List.takeWhile_append_dropWhile]
    _ = (part ++ gap.takeWhile Text.isBlank) ++ (gap.dropWhile Text.isBlank ++ tail) := by
        simp only [List.append_assoc]
    _ = [] ++ (taken ++ (blanks ++ (gap.dropWhile Text.isBlank ++ tail))) := by rw [hpart]; simp

theorem Listed.cons_gap {b : β} {part gap tail : List Char} (rest : Listed take P l tail)
    (takes : ∀ behind, TakesBefore take part behind (P b))
    (separators : ∀ c ∈ gap, Text.isSeparator c = true) (comma : tail = [] ∨ ',' ∈ gap) :
    Listed take P (b :: l) (part ++ (gap ++ tail)) :=
  rest.cons_loosely (takesLoosely_of_before takes) separators comma

theorem listed_commaSeparated
    (h : List.Forall₂ (fun b part => TakesPadded take part (P b)) l parts) :
    Listed take P l (Text.commaSeparated parts) := by
  induction h with
  | nil => exact .nil (by simp [Text.commaSeparated])
  | @cons b text l parts hb hl ih =>
    obtain ⟨part, blanks, rfl, hblank, htakes⟩ := hb
    cases hl with
    | nil =>
      have hend : AtEnd [] := fun _ hc => by cases hc
      exact .cons [] part blanks [] (by simp [Text.commaSeparated]) (by simp) (htakes [] hend)
        hblank hend (.nil (by simp))
    | @cons b' next l' more hnext hmore =>
      have hend : AtEnd (',' :: Text.commaSeparated (next :: more)) :=
        fun _ hc => (Option.some.inj hc).symm
      have hcomma : ∀ c ∈ [','], Text.isSeparator c = true := by simp [Text.isSeparator]
      refine .cons [] part blanks _ ?_ (by simp) (htakes _ hend) hblank hend (ih.prepend hcomma)
      rw [Text.commaSeparated_cons _ (List.cons_ne_nil _ _), List.append_assoc]
      rfl

end Listed

end LenientJson.Reader
