import LenientJson.Proofs.Reading.Levels

/-!
# Reading at another place

The offset of a span is for faults alone. What is read without a fault is read alike wherever its
characters stand, and on more levels as on fewer.
-/
namespace LenientJson.Reader

variable {α : Type} {mode : ScanMode}

inductive Piece.Alike : Piece → Piece → Prop
  | quoted (text : List Char) : Alike (.quoted text) (.quoted text)
  | word (text : List Char) : Alike (.word text) (.word text)
  | enclosed (bracket : Bracket) (opener opener' : Nat) (inside : List Char) :
      Alike (.enclosed bracket ⟨opener, inside⟩) (.enclosed bracket ⟨opener', inside⟩)

/-- A reader of items that takes related items, and as much, from the same characters. -/
def TakesAlike (take : Span → Except Fault (α × Span)) (R : α → α → Prop) : Prop :=
  ∀ s s' item rest, s.chars = s'.chars → take s = .ok (item, rest) →
    ∃ item' rest', take s' = .ok (item', rest') ∧ R item item' ∧ rest.chars = rest'.chars

section Take

variable {s s' rest : Span}

theorem skipWhile_alike (p : Char → Bool) (h : s.chars = s'.chars) :
    (s.skipWhile p).chars = (s'.skipWhile p).chars := congrArg (List.dropWhile p) h

theorem Taken.alike {piece : Piece} (h : Taken mode s piece rest) (hs : s.chars = s'.chars) :
    ∃ piece' rest', Taken mode s' piece' rest' ∧ piece.Alike piece' ∧
      rest.chars = rest'.chars := by
  cases h with
  | quoted chars quotable =>
    exact ⟨_, _, .quoted (hs.symm.trans chars) quotable, .quoted _, rfl⟩
  | enclosed chars balanced =>
    exact ⟨_, _, .enclosed (hs.symm.trans chars) balanced, .enclosed _ _ _ _, rfl⟩
  | word chars first inside behind nonempty =>
    rw [hs] at first
    exact ⟨_, _, .word (hs.symm.trans chars) first inside behind nonempty, .word _, rfl⟩

theorem KeyTaken.alike {key : List Char} (h : KeyTaken s key rest) (hs : s.chars = s'.chars) :
    ∃ rest', KeyTaken s' key rest' ∧ rest.chars = rest'.chars := by
  cases h with
  | quoted chars quotable => exact ⟨_, .quoted (hs.symm.trans chars) quotable, rfl⟩
  | bare chars first inside =>
    rw [hs] at first
    exact ⟨_, .bare (hs.symm.trans chars) first inside, rfl⟩

theorem takesAlike_takePiece : TakesAlike (takePiece mode) Piece.Alike := by
  intro s s' piece rest hs htake
  obtain ⟨piece', rest', htaken, hpiece, hrest⟩ := (takePiece_eq_ok_iff.mp htake).alike hs
  exact ⟨piece', rest', takePiece_eq_ok_iff.mpr htaken, hpiece, hrest⟩

theorem takesAlike_takeMember : TakesAlike (takeMember mode)
    fun member member' => member.1 = member'.1 ∧ member.2.Alike member'.2 := by
  intro s s' ⟨name, piece⟩ rest hs htake
  obtain ⟨key, behindKey, behindColon, hkey, hname, hcolon, hpiece⟩ :=
    takeMember_eq_ok_iff.mp htake
  obtain ⟨behindKey', hkey', hbehindKey⟩ := hkey.alike hs
  obtain ⟨tail, htail, rfl⟩ := takeColon_eq_ok_iff.mp hcolon
  have hcolon' : takeColon (behindKey'.skipWhile Text.isBlank) =
      .ok ((behindKey'.skipWhile Text.isBlank).advance [':'] tail) :=
    takeColon_eq_ok_iff.mpr ⟨tail, (skipWhile_alike _ hbehindKey).symm.trans htail, rfl⟩
  have hbehindColon : (((behindKey.skipWhile Text.isBlank).advance [':'] tail).skipWhile
      Text.isBlank).chars = (((behindKey'.skipWhile Text.isBlank).advance [':'] tail).skipWhile
        Text.isBlank).chars := skipWhile_alike _ rfl
  obtain ⟨piece', rest', hpiece', halike, hrest⟩ := hpiece.alike hbehindColon
  exact ⟨(name, piece'), rest',
    takeMember_eq_ok_iff.mpr ⟨key, behindKey', _, hkey', hname, hcolon', hpiece'⟩,
    ⟨rfl, halike⟩, hrest⟩

/-- Complete outlines of the same characters have related items. -/
theorem TakesAlike.items {siblings : Sibling} {take : Span → Except Fault (α × Span)}
    {consumes : Consumes take} {R : α → α → Prop} (alike : TakesAlike take R)
    (hs : s.chars = s'.chars) (h : (outline siblings take consumes s).fault = none) :
    (outline siblings take consumes s').fault = none ∧
      List.Forall₂ R (outline siblings take consumes s).items
        (outline siblings take consumes s').items := by
  fun_induction outline siblings take consumes s generalizing s'
  case case1 s start hempty =>
    have hempty' : (s'.skipWhile Text.isSeparator).chars = [] := by
      rw [← skipWhile_alike _ hs]
      simpa using hempty
    rw [outline_of_isEmpty hempty']
    exact ⟨rfl, .nil⟩
  case case2 => cases h
  case case3 s start hne item rest htake stop hstop ih =>
    have hstart := skipWhile_alike Text.isSeparator hs
    obtain ⟨item', rest', htake', hitem, hrest⟩ := alike _ _ _ _ hstart htake
    have hbehind := skipWhile_alike Text.isBlank hrest
    have hne' : (s'.skipWhile Text.isSeparator).chars ≠ [] := by
      rw [← hstart]
      simpa using hne
    have hstop' : atBoundary (rest'.skipWhile Text.isBlank) = true := by
      unfold atBoundary at hstop ⊢
      rw [← hbehind]
      exact hstop
    rw [outline_of_ok hne' htake', if_pos hstop']
    obtain ⟨hfault, hitems⟩ := ih hbehind h
    exact ⟨hfault, .cons hitem hitems⟩
  case case4 => cases h

end Take

section Items

variable {β : Type} {R : α → α → Prop}

theorem forall₂_of_related {S S' : α → β → Prop} {l l' : List α} {values : List β}
    (hl : List.Forall₂ R l l') (hS : ∀ x x' v, R x x' → S x v → S' x' v)
    (h : List.Forall₂ S l values) : List.Forall₂ S' l' values := by
  induction hl generalizing values with
  | nil =>
    cases h
    exact .nil
  | cons hx _ ih =>
    cases h with
    | cons hv hvalues => exact .cons (hS _ _ _ hx hv) (ih hvalues)

/-- Related items are read as the same values. -/
theorem items_of_alike {o o' : Outline α} {read read' : α → Reading β} {values : List β}
    (h : (Reading.items o read).result = .ok values)
    (hitems : o.fault = none → o'.fault = none ∧ List.Forall₂ R o.items o'.items)
    (hread : ∀ x x' v, R x x' → (read x).result = .ok v → (read' x').result = .ok v) :
    (Reading.items o' read').result = .ok values := by
  rw [Reading.items_eq_ok_iff] at h ⊢
  obtain ⟨hfault, hrelated⟩ := hitems h.1
  exact ⟨hfault, forall₂_of_related hrelated hread h.2⟩

end Items

namespace Level

variable {lower upper : Level} {limit limit' : Nat}

/-- What the lower level reads is read by the upper one too, wherever it stands. -/
structure Covers (upper lower : Level) : Prop where
  object : ∀ opener opener' inside o, (lower.object ⟨opener, inside⟩).result = .ok o →
    (upper.object ⟨opener', inside⟩).result = .ok o
  array : ∀ opener opener' inside items, (lower.array ⟨opener, inside⟩).result = .ok items →
    (upper.array ⟨opener', inside⟩).result = .ok items

theorem Covers.member (h : upper.Covers lower) {piece piece' : Piece} (alike : piece.Alike piece')
    {v : Value} (hv : (lower.member piece).result = .ok v) :
    (upper.member piece').result = .ok v := by
  cases alike with
  | quoted text => exact hv
  | word text => exact hv
  | enclosed bracket opener opener' inside =>
    cases bracket with
    | curly =>
      rw [result_member_curly, bind_eq_ok_iff] at hv ⊢
      obtain ⟨o, ho, hv⟩ := hv
      exact ⟨o, h.object _ _ _ _ ho, hv⟩
    | square =>
      rw [result_member_square, bind_eq_ok_iff] at hv ⊢
      obtain ⟨items, hitems, hv⟩ := hv
      exact ⟨items, h.array _ _ _ _ hitems, hv⟩

theorem Covers.element (h : upper.Covers lower) {piece piece' : Piece} (alike : piece.Alike piece')
    {o : Object} (ho : (lower.element piece).result = .ok o) :
    (upper.element piece').result = .ok o := by
  cases alike with
  | quoted text => exact ho
  | word text => exact ho
  | enclosed bracket opener opener' inside =>
    cases bracket with
    | curly => exact h.object _ _ _ _ ho
    | square =>
      rw [result_element_square, bind_eq_ok_iff] at ho ⊢
      obtain ⟨items, hitems, ho⟩ := ho
      exact ⟨items, h.array _ _ _ _ hitems, ho⟩

theorem Covers.namedMember (h : upper.Covers lower) {member member' : String × Piece}
    (alike : member.1 = member'.1 ∧ member.2.Alike member'.2) {named : String × Value}
    (hnamed : (lower.namedMember member).result = .ok named) :
    (upper.namedMember member').result = .ok named := by
  obtain ⟨name, piece⟩ := member
  obtain ⟨name', piece'⟩ := member'
  obtain ⟨rfl, halike⟩ := alike
  rw [result_namedMember, bind_eq_ok_iff] at hnamed ⊢
  obtain ⟨v, hv, hnamed⟩ := hnamed
  exact ⟨v, h.member halike hv, hnamed⟩

theorem Covers.above (h : upper.Covers lower) : (above mode upper).Covers (above mode lower) where
  object opener opener' inside o ho := by
    rw [result_above_object, bind_eq_ok_iff] at ho ⊢
    obtain ⟨members, hmembers, ho⟩ := ho
    have hbody : (Enclosed.body ⟨opener, inside⟩).chars = (Enclosed.body ⟨opener', inside⟩).chars :=
      rfl
    exact ⟨members, items_of_alike hmembers (takesAlike_takeMember.items hbody)
      fun _ _ _ halike => h.namedMember halike, ho⟩
  array opener opener' inside items hitems := by
    have hbody : (Enclosed.body ⟨opener, inside⟩).chars = (Enclosed.body ⟨opener', inside⟩).chars :=
      rfl
    rw [above_array] at hitems ⊢
    exact items_of_alike hitems (takesAlike_takePiece.items hbody) fun _ _ _ halike =>
      h.element halike

theorem covers_refuse : upper.Covers (refuse limit) where
  object _ _ _ _ ho := by cases ho
  array _ _ _ _ hitems := by cases hitems

/-- What is read on some levels is read on more levels, wherever it stands. -/
theorem covers_ofDepth {depth depth' : Nat} (h : depth ≤ depth') :
    (ofDepth mode limit' depth').Covers (ofDepth mode limit depth) := by
  induction depth generalizing depth' with
  | zero => exact covers_refuse
  | succ depth ih =>
    obtain ⟨below, rfl⟩ := Nat.exists_eq_add_of_lt h
    rw [show depth + below + 1 = (depth + below) + 1 from rfl, ofDepth_succ, ofDepth_succ]
    exact (ih (Nat.le_add_right depth below)).above

/-- A part that is read on some number of levels is read on as many as it has characters, and one
more. -/
theorem object_ofDepth_of_length {depth depth' : Nat} {part : Enclosed} {o : Object}
    (h : ((ofDepth mode limit depth).object part).result = .ok o)
    (hlength : part.inside.length < depth') :
    ((ofDepth mode limit' depth').object part).result = .ok o := by
  rcases le_total depth depth' with hle | hle
  · exact (covers_ofDepth hle).object _ _ _ _ h
  · have hrefines : RefusedOr limit' ((ofDepth mode limit' depth').object part).result
        ((ofDepth mode limit depth).object part).result := (refines_ofDepth hle).object part
    rcases hrefines with ⟨offset, hrefused⟩ | heq
    · have hsuffices : Outcome _ IsMalformed ((ofDepth mode limit' depth').object part).result :=
        (suffices_ofDepth depth').object part hlength
      rw [hrefused] at hsuffices
      obtain ⟨malformation, hcause⟩ := hsuffices
      cases hcause
    · rw [heq, h]

end Level

end LenientJson.Reader
