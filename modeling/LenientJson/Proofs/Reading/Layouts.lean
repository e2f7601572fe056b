import LenientJson.Proofs.Reading.WireForm
import LenientJson.Proofs.Values.Trees

/-!
# Layouts

The ways of writing a document tree: blanks may stand around colons, and separators behind openers,
before closers and, with a comma among them, between siblings. However a tree is laid out, it is
read as its value where there are levels enough, and is refused where there are not.
-/
namespace LenientJson

/-- Texts one behind the other, with separators before the first, between two and behind the last.
Between two of them stands a comma at least. -/
inductive Spread : List (List Char) → List Char → Prop
  | nil {gap : List Char} (separators : ∀ c ∈ gap, Text.isSeparator c = true) : Spread [] gap
  | last {front part gap : List Char} (before : ∀ c ∈ front, Text.isSeparator c = true)
      (behind : ∀ c ∈ gap, Text.isSeparator c = true) : Spread [part] (front ++ (part ++ gap))
  | cons {front part gap next tail : List Char} {rest : List (List Char)}
      (before : ∀ c ∈ front, Text.isSeparator c = true)
      (behind : ∀ c ∈ gap, Text.isSeparator c = true) (comma : ',' ∈ gap)
      (more : Spread (next :: rest) tail) :
      Spread (part :: next :: rest) (front ++ (part ++ (gap ++ tail)))

mutual

/-- The ways of writing a tree. -/
inductive LaidOut : Role → DocTree → List Char → Prop
  | scalar (role : Role) (s : Scalar) : LaidOut role (.scalar s) (s.wire role.content)
  | object {role : Role} {members : List (String × DocTree)} {parts : List (List Char)}
      {inside : List Char} (each : List.Forall₂ MemberLaidOut members parts)
      (spread : Spread parts inside) : LaidOut role (.object members) ('\x7b' :: inside ++ ['\x7d'])
  | array {role : Role} {elements : List DocTree} {parts : List (List Char)} {inside : List Char}
      (each : List.Forall₂ (LaidOut .element) elements parts) (spread : Spread parts inside) :
      LaidOut role (.array elements) ('[' :: inside ++ [']'])

inductive MemberLaidOut : String × DocTree → List Char → Prop
  | intro {tree : DocTree} {text before behind : List Char} (key : String)
      (blankBefore : ∀ c ∈ before, Text.isBlank c = true)
      (blankBehind : ∀ c ∈ behind, Text.isBlank c = true) (value : LaidOut .member tree text) :
      MemberLaidOut (key, tree) (Reader.memberText key before behind text)

end

theorem spread_commaSeparated (parts : List (List Char)) :
    Spread parts (Text.commaSeparated parts) := by
  induction parts with
  | nil => exact .nil (by simp [Text.commaSeparated])
  | cons part rest ih =>
    cases rest with
    | nil =>
      have hspread : Spread [part] ([] ++ (part ++ [])) := .last (by simp) (by simp)
      rw [List.nil_append, List.append_nil] at hspread
      exact hspread
    | cons next more =>
      have hspread : Spread (part :: next :: more)
          ([] ++ (part ++ ([','] ++ Text.commaSeparated (next :: more)))) :=
        .cons (by simp) (by simp [Text.isSeparator]) (by simp) ih
      exact hspread

/-- The compact text is one of the ways. -/
theorem laidOut_compact (tree : DocTree) (role : Role) : LaidOut role tree (tree.compact role) := by
  induction tree using DocTree.induction generalizing role with
  | scalar s =>
    rw [DocTree.compact]
    exact .scalar role s
  | object members ih =>
    rw [DocTree.compact, DocTree.compactMembers_eq_map]
    refine .object ?_ (spread_commaSeparated _)
    rw [List.forall₂_map_right_iff, List.forall₂_same]
    intro member hmember
    have hmember : MemberLaidOut member
        (Reader.memberText member.1 [] [] (member.2.compact .member)) :=
      .intro member.1 (by simp) (by simp) (ih member hmember .member)
    exact hmember
  | array elements ih =>
    rw [DocTree.compact, DocTree.compactElements_eq_map]
    refine .array ?_ (spread_commaSeparated _)
    rw [List.forall₂_map_right_iff, List.forall₂_same]
    exact fun tree htree => ih tree htree .element

namespace Reader

variable {mode : ScanMode} {bracket : Bracket}

theorem neutral_separators {gap : List Char} (h : ∀ c ∈ gap, Text.isSeparator c = true) :
    Neutral mode bracket gap := by
  apply neutral_of_isInert
  intro c hc
  rcases Bool.or_eq_true_iff.mp (h c hc) with hblank | hcomma
  · exact isInert_of_isBlank hblank
  · rw [beq_iff_eq.mp hcomma]
    rfl

theorem neutral_spread {parts : List (List Char)} {text : List Char} (h : Spread parts text)
    (each : ∀ part ∈ parts, Neutral mode bracket part) : Neutral mode bracket text := by
  induction h with
  | nil separators => exact neutral_separators separators
  | last before behind =>
    exact (neutral_separators before).append
      ((each _ List.mem_cons_self).append (neutral_separators behind))
  | cons before behind comma more ih =>
    exact (neutral_separators before).append ((each _ List.mem_cons_self).append
      ((neutral_separators behind).append (ih fun p hp => each p (List.mem_cons_of_mem _ hp))))

theorem listed_spread {α β : Type} {take : Span → Except Fault (α × Span)} {P : β → α → Prop}
    {l : List β} {parts : List (List Char)} {text : List Char} (h : Spread parts text)
    (each : List.Forall₂ (fun b part => TakesLoosely take part (P b)) l parts) :
    Listed take P l text := by
  induction h generalizing l with
  | nil separators =>
    cases each
    exact .nil separators
  | @last front part gap before behind =>
    obtain ⟨b, l, hpart, hrest, rfl⟩ := List.forall₂_cons_right_iff.mp each
    cases hrest
    have hlast : Listed take P [b] (part ++ (gap ++ [])) :=
      Listed.cons_loosely (.nil (by simp)) hpart behind (.inl rfl)
    rw [List.append_nil] at hlast
    exact hlast.prepend before
  | cons before behind comma more ih =>
    obtain ⟨b, l, hpart, hrest, rfl⟩ := List.forall₂_cons_right_iff.mp each
    exact ((ih hrest).cons_loosely hpart behind (.inr comma)).prepend before

def ReadsTree (mode : ScanMode) (role : Role) (tree : DocTree) (piece : Piece) : Prop :=
  ∀ limit depth,
    match role with
    | .member => Guarded limit (tree.nesting ≤ depth) tree.value
        ((Level.ofDepth mode limit depth).member piece).result
    | .element => Guarded limit (tree.nesting ≤ depth) tree.value.toElement
        ((Level.ofDepth mode limit depth).element piece).result

/-- A text of a tree: no scan for brackets stops in it, and it is taken whole and read as the
tree. -/
structure TextOf (mode : ScanMode) (role : Role) (tree : DocTree) (text : List Char) : Prop where
  neutral : ∀ bracket, Neutral mode bracket text
  takes : TakesLoosely (takePiece mode) text (ReadsTree mode role tree)

structure InsideOf {α : Type} (mode : ScanMode) (read : Level → Enclosed → Reading α)
    (nesting : Nat) (value : α) (inside : List Char) : Prop where
  neutral : ∀ bracket, Neutral mode bracket inside
  reads : ∀ opener limit depth, Guarded limit (nesting ≤ depth) value
    (read (Level.ofDepth mode limit depth) ⟨opener, inside⟩).result

section Scalars

variable {text : String} {content : List Char}

theorem textOf_word {role : Role} {s : Scalar} (hs : s.isString = false) :
    TextOf mode role (.scalar s) s.text where
  neutral _ := neutral_text hs
  takes := by
    cases role with
    | member => exact takesLoosely_word hs (readsMember_word hs)
    | element => exact takesLoosely_word hs (readsElement_word none hs)

theorem textOf_quoted_member (quotable : Quotable content)
    (neutral : ∀ bracket, Neutral mode bracket ('"' :: content ++ ['"']))
    (htext : Text.unescape content = text.toList) :
    TextOf mode .member (.scalar (.string text)) ('"' :: content ++ ['"']) :=
  ⟨neutral, takesLoosely_of_before fun behind =>
    takesBefore_quoted behind quotable (readsMember_quoted htext)⟩

theorem textOf_quoted_element (safe : SafeIn mode text.toList) :
    TextOf mode .element (.scalar (.string text)) ('"' :: text.toList ++ ['"']) :=
  ⟨fun _ => safe.neutral_quote, takesLoosely_of_before fun behind =>
    takesBefore_quoted behind safe.toQuotable (readsElement_quoted none text)⟩

theorem textOf_scalar {role : Role} {s : Scalar}
    (verbatim : ∀ text, role = .element → s = .string text → SafeIn mode text.toList) :
    TextOf mode role (.scalar s) (s.wire role.content) := by
  cases hs : s.isString with
  | false =>
    rw [wire_of_isString_eq_false hs]
    exact textOf_word hs
  | true =>
    obtain ⟨text, rfl⟩ := Scalar.exists_of_isString hs
    cases role with
    | member =>
      exact textOf_quoted_member (quotable_escape _) (fun _ => neutral_quote_escape _)
        (Text.unescape_escape _)
    | element => exact textOf_quoted_element (verbatim text rfl rfl)

end Scalars

structure MemberTextOf (mode : ScanMode) (member : String × DocTree) (text : List Char) :
    Prop where
  neutral : ∀ bracket, Neutral mode bracket text
  takes : TakesLoosely (takeMember mode) text fun taken =>
    taken.1 = member.1 ∧ ReadsTree mode .member member.2 taken.2

/-- The key may have any content that is read as it. -/
theorem memberTextOf_keyed {key : String} {tree : DocTree} {content before behind text : List Char}
    (quotable : Quotable content)
    (neutral : ∀ bracket, Neutral mode bracket ('"' :: content ++ ['"']))
    (hkey : Text.unescape content = key.toList) (hbefore : ∀ c ∈ before, Text.isBlank c = true)
    (hbehind : ∀ c ∈ behind, Text.isBlank c = true) (h : TextOf mode .member tree text) :
    MemberTextOf mode (key, tree)
      ('"' :: content ++ '"' :: (before ++ ':' :: (behind ++ text))) := by
  constructor
  case neutral =>
    intro bracket
    have hblanks {blanks : List Char} (hblank : ∀ c ∈ blanks, Text.isBlank c = true) :
        Neutral mode bracket blanks :=
      neutral_of_isInert fun c hc => isInert_of_isBlank (hblank c hc)
    have hcolon : Neutral mode bracket [':'] := neutral_of_isInert (by simp [isInert, isBracket])
    have hvalue := hcolon.append ((hblanks hbehind).append (h.neutral bracket))
    have hmember := (neutral bracket).append ((hblanks hbefore).append hvalue)
    rw [List.append_assoc] at hmember
    exact hmember
  case takes =>
    have htakes := takesLoosely_keyed quotable hbefore hbehind h.takes
    rw [hkey, String.ofList_toList] at htakes
    exact htakes

section Inside

variable {parts : List (List Char)} {inside : List Char}

theorem insideOf_object {members : List (String × DocTree)}
    (each : List.Forall₂ (MemberTextOf mode) members parts) (spread : Spread parts inside) :
    InsideOf mode Level.object (DocTree.object members).nesting
      (.map (Members.ofList (DocTree.memberValues members))) inside := by
  constructor
  case neutral =>
    intro bracket
    refine neutral_spread spread fun part hpart => ?_
    obtain ⟨member, _, hmember⟩ := exists_of_mem_right each hpart
    exact hmember.neutral bracket
  case reads =>
    intro opener limit depth
    cases depth with
    | zero => exact guarded_refuse
    | succ depth =>
      have hlisted := listed_spread spread (each.imp fun _ _ h => h.takes)
      rw [DocTree.memberValues_eq_map]
      exact (guarded_object_of_listed hlisted opener limit depth).congr
        DocTree.nesting_object_le_iff.symm

theorem insideOf_array {elements : List DocTree}
    (each : List.Forall₂ (TextOf mode .element) elements parts) (spread : Spread parts inside) :
    InsideOf mode Level.array (DocTree.array elements).nesting
      (DocTree.elementValues elements) inside := by
  constructor
  case neutral =>
    intro bracket
    refine neutral_spread spread fun part hpart => ?_
    obtain ⟨tree, _, htree⟩ := exists_of_mem_right each hpart
    exact htree.neutral bracket
  case reads =>
    intro opener limit depth
    cases depth with
    | zero => exact guarded_refuse
    | succ depth =>
      have hlisted := listed_spread spread (each.imp fun _ _ h => h.takes)
      rw [DocTree.elementValues_eq_map]
      exact (guarded_array_of_listed hlisted opener limit depth).congr
        DocTree.nesting_array_le_iff.symm

end Inside

/-- A part between brackets is a text of the tree if what is between them is read as its value. -/
theorem textOf_enclosed {role : Role} {tree : DocTree} {inside : List Char} (bracket : Bracket)
    (neutral : ∀ bracket, Neutral mode bracket inside)
    (reads : ∀ opener, ReadsTree mode role tree (.enclosed bracket ⟨opener, inside⟩)) :
    TextOf mode role tree (bracket.opener :: inside ++ [bracket.closer]) where
  neutral other := (neutral other).enclose bracket
  takes := takesLoosely_of_before fun behind =>
    takesBefore_enclosed behind (neutral bracket).balanced reads

theorem textOf_object {role : Role} {members : List (String × DocTree)} {inside : List Char}
    (h : InsideOf mode Level.object (DocTree.object members).nesting
      (.map (Members.ofList (DocTree.memberValues members))) inside) :
    TextOf mode role (.object members) ('\x7b' :: inside ++ ['\x7d']) := by
  refine textOf_enclosed .curly h.neutral fun opener limit depth => ?_
  cases role with
  | member =>
    change Guarded _ _ _ (Level.member _ (.enclosed .curly _)).result
    rw [Level.result_member_curly, DocTree.value]
    exact (h.reads opener limit depth).map _
  | element =>
    rw [DocTree.value]
    exact h.reads opener limit depth

theorem textOf_array {role : Role} {elements : List DocTree} {inside : List Char}
    (h : InsideOf mode Level.array (DocTree.array elements).nesting
      (DocTree.elementValues elements) inside) :
    TextOf mode role (.array elements) ('[' :: inside ++ [']']) := by
  refine textOf_enclosed .square h.neutral fun opener limit depth => ?_
  cases role with
  | member =>
    change Guarded _ _ _ (Level.member _ (.enclosed .square _)).result
    rw [Level.result_member_square, DocTree.value]
    exact (h.reads opener limit depth).map _
  | element =>
    change Guarded _ _ _ (Level.element _ (.enclosed .square _)).result
    rw [Level.result_element_square, DocTree.value]
    exact (h.reads opener limit depth).map Items.fold

theorem memberTextOf_laidOut {member : String × DocTree} {text : List Char}
    (value : ∀ text, LaidOut .member member.2 text → TextOf mode .member member.2 text)
    (laid : MemberLaidOut member text) : MemberTextOf mode member text := by
  cases laid with
  | intro key blankBefore blankBehind laid =>
    exact memberTextOf_keyed (quotable_escape _) (fun _ => neutral_quote_escape _)
      (Text.unescape_escape _) blankBefore blankBehind (value _ laid)

/-- A tree whose verbatim strings are safe is read from each of its layouts. -/
theorem textOf_laidOut {role : Role} {tree : DocTree} {text : List Char}
    (safe : tree.Safe mode role) (laid : LaidOut role tree text) : TextOf mode role tree text := by
  induction tree using DocTree.induction generalizing role text with
  | scalar s =>
    cases laid
    cases safe with
    | scalar verbatim => exact textOf_scalar verbatim
  | object members ih =>
    cases safe with
    | object safe =>
      cases laid with
      | object each spread =>
        refine textOf_object (insideOf_object ?_ spread)
        exact forall₂_imp_of_mem each fun member _ hmember _ =>
          memberTextOf_laidOut fun _ => ih member hmember (safe member hmember)
  | array elements ih =>
    cases safe with
    | array safe =>
      cases laid with
      | array each spread =>
        refine textOf_array (insideOf_array ?_ spread)
        exact forall₂_imp_of_mem each fun tree _ htree _ => ih tree htree (safe tree htree)

end Reader

end LenientJson
