import LenientJson.Proofs.Reading.Layouts
import LenientJson.Proofs.RoundTrip

/-!
# The layout does not matter

Under a limit that is enough for its nesting, a document tree is read as its value from each of its
layouts with any blanks around it, as it is from its compact text.
-/
namespace LenientJson

/-- A layout of the tree with blanks around it. -/
inductive DocTree.Layout (tree : DocTree) : List Char → Prop
  | intro {front text back : List Char} (before : ∀ c ∈ front, Text.isBlank c = true)
      (laid : LaidOut .member tree text) (behind : ∀ c ∈ back, Text.isBlank c = true) :
      tree.Layout (front ++ text ++ back)

theorem layout_compact (tree : DocTree) : tree.Layout (tree.compact .member) := by
  have h : tree.Layout ([] ++ tree.compact .member ++ []) :=
    .intro (by simp) (laidOut_compact tree .member) (by simp)
  rw [List.nil_append, List.append_nil] at h
  exact h

namespace Reader

variable {mode : ScanMode} {limit : Option Nat} {text : List Char}

/-- A document whose tree is an object is read under each limit that its nesting allows. -/
theorem readsWithin_layout_object {members : List (String × DocTree)}
    (safe : (DocTree.object members).Safe mode .member) (h : (DocTree.object members).Layout text) :
    ReadsWithin limit (DocTree.object members).nesting
      (.map (Members.ofList (DocTree.memberValues members)))
      (Object.parse text ⟨mode, limit⟩) := by
  cases h with
  | intro before laid behind =>
    cases laid with
    | object each spread =>
      cases safe with
      | object safe =>
        have inside := insideOf_object (forall₂_imp_of_mem each fun member _ hmember _ =>
          memberTextOf_laidOut fun _ => textOf_laidOut (safe member hmember)) spread
        exact readsWithin_parse_object (.intro before behind) (inside.neutral .curly).balanced
          inside.reads

theorem readsWithin_layout_array {elements : List DocTree}
    (safe : (DocTree.array elements).Safe mode .member) (h : (DocTree.array elements).Layout text) :
    ReadsWithin limit (DocTree.array elements).nesting (DocTree.elementValues elements)
      (Items.parse text ⟨mode, limit⟩) := by
  cases h with
  | intro before laid behind =>
    cases laid with
    | array each spread =>
      cases safe with
      | array safe =>
        have inside := insideOf_array (forall₂_imp_of_mem each fun tree _ htree _ =>
          textOf_laidOut (safe tree htree)) spread
        exact readsWithin_parse_array (.intro before behind) (inside.neutral .square).balanced
          inside.reads

end Reader

open Reader in
/-- All layouts of a tree are read as its value, and so as the compact text is read. -/
theorem parse_document (mode : ScanMode) (limit : Option Nat) :
    (∀ (members : List (String × DocTree)) (text : List Char),
      (DocTree.object members).Safe mode .member → (DocTree.object members).Layout text →
      (∀ m, limit = some m → (DocTree.object members).nesting ≤ m) →
        Object.parse text ⟨mode, limit⟩ =
            .ok (.map (Members.ofList (DocTree.memberValues members))) ∧
          Object.parse text ⟨mode, limit⟩ =
            Object.parse ((DocTree.object members).compact .member) ⟨mode, limit⟩) ∧
    (∀ (elements : List DocTree) (text : List Char),
      (DocTree.array elements).Safe mode .member → (DocTree.array elements).Layout text →
      (∀ m, limit = some m → (DocTree.array elements).nesting ≤ m) →
        Items.parse text ⟨mode, limit⟩ = .ok (DocTree.elementValues elements) ∧
          Items.parse text ⟨mode, limit⟩ =
            Items.parse ((DocTree.array elements).compact .member) ⟨mode, limit⟩) := by
  constructor
  · intro members text safe layout hlimit
    have hread {text : List Char} (h : (DocTree.object members).Layout text) :
        Object.parse text ⟨mode, limit⟩ =
          .ok (.map (Members.ofList (DocTree.memberValues members))) :=
      eq_ok_of_readsWithin (readsWithin_layout_object safe h) hlimit
    exact ⟨hread layout, (hread layout).trans (hread (layout_compact _)).symm⟩
  · intro elements text safe layout hlimit
    have hread {text : List Char} (h : (DocTree.array elements).Layout text) :
        Items.parse text ⟨mode, limit⟩ = .ok (DocTree.elementValues elements) :=
      eq_ok_of_readsWithin (readsWithin_layout_array safe h) hlimit
    exact ⟨hread layout, (hread layout).trans (hread (layout_compact _)).symm⟩

def spaciousElements : List DocTree :=
  [.scalar (.integer 1), .scalar (.string (.ofList ['\\', '['])), .array []]

def spaciousList : List Char :=
  [' ', '1', ' ', ',', ',', '"', '\\', '[', '"', '\n', ',', '[', ',', ']', '\t']

def spaciousText : List Char :=
  '\n' :: '\x7b' :: ',' :: '"' :: 'a' :: '"' :: ' ' :: ':' :: ' ' :: '[' :: spaciousList ++
    [']', ' ', '\x7d', '\r']

theorem parse_document_spacious :
    ((DocTree.object [("a", .array spaciousElements)]).Safe .legacy .member ∧
      (DocTree.object [("a", .array spaciousElements)]).Layout spaciousText) ∧
    Object.parse spaciousText ⟨.legacy, some 3⟩ =
      .ok (.map [("a", .array [.scalar none (.integer 1),
        .scalar none (.string (.ofList ['\\', '['])), .map []])]) ∧
    Items.parse ('[' :: spaciousList ++ [']']) ⟨.legacy, some 2⟩ =
      Items.parse ['[', '1', ',', '"', '\\', '[', '"', ',', '[', ']', ']'] ⟨.legacy, some 2⟩ := by
  have hsafe : (DocTree.array spaciousElements).Safe .legacy .member := by
    refine .array fun tree htree => ?_
    simp only [spaciousElements, List.mem_cons, List.not_mem_nil, or_false] at htree
    rcases htree with rfl | rfl | rfl
    · exact .scalar fun text _ h => by cases h
    · refine .scalar fun text _ h => ?_
      rw [← Scalar.string.inj h, String.toList_ofList]
      exact ⟨⟨by decide, by decide⟩, fun _ => by decide⟩
    · exact .array fun _ h => by cases h
  have blanks (gap : List Char) (h : gap.all Text.isBlank = true) :
      ∀ c ∈ gap, Text.isBlank c = true := List.all_eq_true.mp h
  have separators (gap : List Char) (h : gap.all Text.isSeparator = true) :
      ∀ c ∈ gap, Text.isSeparator c = true := List.all_eq_true.mp h
  have hempty : LaidOut .element (.array []) ['[', ',', ']'] := by
    have hgap : Spread [] [','] := .nil (separators _ rfl)
    exact .array .nil hgap
  have hlast : Spread [['[', ',', ']']] ([] ++ (['[', ',', ']'] ++ ['\t'])) :=
    .last (separators _ rfl) (separators _ rfl)
  have hnext : Spread [['"', '\\', '[', '"'], ['[', ',', ']']]
      ([] ++ (['"', '\\', '[', '"'] ++ (['\n', ','] ++ (['[', ',', ']'] ++ ['\t'])))) :=
    .cons (separators _ rfl) (separators _ rfl) (by decide) hlast
  have hspread : Spread [['1'], ['"', '\\', '[', '"'], ['[', ',', ']']] spaciousList := by
    have h : Spread [['1'], ['"', '\\', '[', '"'], ['[', ',', ']']] ([' '] ++ (['1'] ++
        ([' ', ',', ','] ++ (['"', '\\', '[', '"'] ++ (['\n', ','] ++
          (['[', ',', ']'] ++ ['\t'])))))) :=
      .cons (separators _ rfl) (separators _ rfl) (by decide) hnext
    exact h
  have hlist : LaidOut .member (.array spaciousElements) ('[' :: spaciousList ++ [']']) :=
    .array (.cons (.scalar _ _) (.cons (.scalar _ _) (.cons hempty .nil))) hspread
  have hmember : MemberLaidOut ("a", .array spaciousElements)
      (Reader.memberText "a" [' '] [' '] ('[' :: spaciousList ++ [']'])) :=
    .intro "a" (blanks _ rfl) (blanks _ rfl) hlist
  have hobject : (DocTree.object [("a", .array spaciousElements)]).Layout (['\n'] ++ ('\x7b' ::
      ([','] ++ (Reader.memberText "a" [' '] [' '] ('[' :: spaciousList ++ [']']) ++ [' '])) ++
        ['\x7d']) ++ ['\r']) :=
    .intro (blanks _ rfl)
      (.object (.cons hmember .nil) (.last (separators _ rfl) (separators _ rfl))) (blanks _ rfl)
  have hobjectSafe : (DocTree.object [("a", .array spaciousElements)]).Safe .legacy .member :=
    .object fun member hmember => by rw [List.mem_singleton.mp hmember]; exact hsafe
  have harray : (DocTree.array spaciousElements).Layout
      ([] ++ ('[' :: spaciousList ++ [']']) ++ []) :=
    .intro (blanks _ rfl) hlist (blanks _ rfl)
  refine ⟨⟨hobjectSafe, hobject⟩, ?_, ?_⟩
  · refine ((parse_document .legacy (some 3)).1 _ _ hobjectSafe hobject ?_).1.trans ?_
    · rintro _ ⟨⟩
      decide
    · rfl
  · refine ((parse_document .legacy (some 2)).2 _ _ hsafe harray ?_).2
    rintro _ ⟨⟩
    decide

end LenientJson
