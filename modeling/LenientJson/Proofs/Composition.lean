import LenientJson.Proofs.Reading.Braces
import LenientJson.Proofs.Reading.Written
import LenientJson.Proofs.Scan.Closed

/-!
# Objects made of accepted parts

Texts that are accepted as objects on their own, and strings with their escapes, can be put together
behind keys of any kind. The whole is accepted with one level more, and its members are the values
of the parts, however freely the parts are written inside.
-/
namespace LenientJson

/-- What may stand behind a key, and the value that it is to have: a string between quotes, or a
text that begins with a brace and is accepted as an object. -/
inductive ValueText (mode : ScanMode) (limit : Option Nat) : List Char → Value → Prop
  | string (text : String) :
      ValueText mode limit ('"' :: Text.escape text.toList ++ ['"']) (.scalar (.string text))
  | object {text : List Char} {o : Object} (opens : text.head? = some '\x7b')
      (accepted : Object.parse text ⟨mode, limit⟩ = .ok o) : ValueText mode limit text (.object o)

structure MemberText where
  key : String
  text : List Char
  value : Value

namespace MemberText

def written (m : MemberText) : List Char :=
  '"' :: Text.escape m.key.toList ++ '"' :: ':' :: m.text

def entry (m : MemberText) : String × Value := (m.key, m.value)

def composed (members : List MemberText) : List Char :=
  '\x7b' :: Text.commaSeparated (members.map written) ++ ['\x7d']

end MemberText

namespace Reader

variable {mode : ScanMode} {limit : Option Nat}

section Value

variable {text : List Char} {v : Value}

/-- A piece that is read as the value on levels enough for its part, if it has one. -/
def ReadAs (mode : ScanMode) (limit : Option Nat) (v : Value) (piece : Piece) : Prop :=
  ∀ limit' depth, (piece.PartIn fun part => limit.getD (part.inside.length + 1) ≤ depth) →
    ((Level.ofDepth mode limit' depth).member piece).result = .ok v

theorem neutral_valueText (h : ValueText mode limit text v) : Neutral mode .curly text := by
  cases h with
  | string text => exact neutral_quote_escape _
  | object opens accepted =>
    obtain ⟨inside, blanks, rfl, hblank, hbraced⟩ := braced_of_parse opens accepted
    have hblanks : Neutral mode .curly blanks :=
      neutral_of_isInert fun c hc => isInert_of_isBlank (hblank c hc)
    exact (hbraced.balanced.neutral.enclose .curly).append hblanks

theorem takesPadded_valueText (h : ValueText mode limit text v) :
    TakesPadded (takePiece mode) text (ReadAs mode limit v) := by
  cases h with
  | string text =>
    refine Yields.padded (yields_quoted (quotable_escape _) fun limit' depth _ => ?_)
    rw [Level.result_member_quoted, Text.unescape_escape, String.ofList_toList]
  | object opens accepted =>
    obtain ⟨inside, blanks, rfl, hblank, hbraced⟩ := braced_of_parse opens accepted
    refine ⟨_, blanks, rfl, hblank, fun tail _ =>
      takesBefore_enclosed _ hbraced.balanced fun opener limit' depth hdepth => ?_⟩
    rw [Level.result_member_curly, hbraced.reads opener limit' depth hdepth]
    rfl

theorem takesPadded_member {key : String} {P : Piece → Prop}
    (h : TakesPadded (takePiece mode) text P) :
    TakesPadded (takeMember mode) ('"' :: Text.escape key.toList ++ '"' :: ':' :: text)
      fun member => member.1 = key ∧ P member.2 := by
  obtain ⟨part, blanks, rfl, hblank, htakes⟩ := h
  exact ⟨'"' :: Text.escape key.toList ++ '"' :: ':' :: part, blanks, by simp, hblank,
    fun tail htail => takesBefore_member (htakes tail htail)⟩

end Value

section Members

variable {members : List MemberText}

theorem balanced_composed (texts : ∀ m ∈ members, ValueText mode limit m.text m.value) :
    Balanced mode .curly (Text.commaSeparated (members.map MemberText.written)) := by
  refine (neutral_commaSeparated fun part hpart => ?_).balanced
  obtain ⟨m, hm, rfl⟩ := List.mem_map.mp hpart
  exact neutral_member (neutral_valueText (texts m hm))

/-- The members are cut out one by one, each with its own key and with a piece that is read as its
own value. -/
theorem outline_composed {s : Span}
    (texts : ∀ m ∈ members, ValueText mode limit m.text m.value)
    (hs : s.chars = Text.commaSeparated (members.map MemberText.written)) :
    ∃ items, outlineMembers mode s = ⟨items, none⟩ ∧
      List.Forall₂ (fun m item => item.1 = m.key ∧ ReadAs mode limit m.value item.2)
        members items := by
  refine outline_listed (listed_commaSeparated ?_) hs
  rw [List.forall₂_map_right_iff, List.forall₂_same]
  exact fun m hm => takesPadded_member (takesPadded_valueText (texts m hm))

/-- With levels enough below for all shorter parts, the inside of the composed text is read. -/
theorem readInside_composed {below : Nat}
    (texts : ∀ m ∈ members, ValueText mode limit m.text m.value)
    (enough : ∀ n, n < (Text.commaSeparated (members.map MemberText.written)).length →
      limit.getD (n + 1) ≤ below) (opener limit' : Nat) :
    ((Level.ofDepth mode limit' (below + 1)).object
        ⟨opener, Text.commaSeparated (members.map MemberText.written)⟩).result =
      .ok (.map (Members.ofList (members.map MemberText.entry))) := by
  let part : Enclosed := ⟨opener, Text.commaSeparated (members.map MemberText.written)⟩
  obtain ⟨items, hout, hitems⟩ := outline_composed texts (rfl : part.body.chars = _)
  have hshorter : ∀ item ∈ (outlineMembers mode part.body).items,
      item.2.PartIn fun inner => inner.inside.length < part.inside.length :=
    invariant_takeMember.items (le_refl part.body.chars.length)
  rw [hout] at hshorter
  rw [Level.ofDepth_succ, Level.result_above_object, bind_eq_ok_iff]
  refine ⟨members.map MemberText.entry, Reading.items_eq_ok_iff.mpr ?_, rfl⟩
  rw [hout]
  refine ⟨rfl, List.forall₂_map_right_iff.mpr ?_⟩
  refine ((List.forall₂_and_left _ _).mpr ⟨hshorter, hitems.flip⟩).imp ?_
  rintro ⟨name, piece⟩ m ⟨hshort, rfl, hread⟩
  rw [Level.result_namedMember, hread limit' below (hshort.mono fun _ hlt => enough _ hlt)]
  rfl

end Members

end Reader

open Reader in
/-- Strings and accepted objects behind keys make an accepted object of their values, in which the
last value of a key wins. -/
theorem parse_composed (mode : ScanMode) (limit : Option Nat) (members : List MemberText)
    (texts : ∀ m ∈ members, ValueText mode limit m.text m.value) :
    Object.parse (MemberText.composed members) ⟨mode, limit.map (· + 1)⟩ =
      .ok (.map (Members.ofList (members.map MemberText.entry))) := by
  obtain ⟨below, hl, enough⟩ := exists_levels_map_succ mode limit (MemberText.composed members)
  have hlength : (Text.commaSeparated (members.map MemberText.written)).length <
      (MemberText.composed members).length := by simp [MemberText.composed]
  obtain ⟨opener, hread⟩ :=
    readObject_padded (padded_brackets .curly _) (balanced_composed texts) hl
  have hinside :=
    readInside_composed texts (fun n hn => enough n (hn.trans hlength)) opener (below + 1)
  exact mapError_eq_ok_iff.mpr (hread.trans hinside)

def lenientText : List Char :=
  ['\x7b', 'a', ':', 'x', '\x7b', '\x7d', 'y', ',', '"', 'b', '"', ':', '"', '[', '"', '\x7d',
    ' ', '\n']

def lenientObject : Object :=
  .map [("a", .scalar (.string (.ofList ['x', '\x7b', '\x7d', 'y']))), ("b", .scalar (.string "["))]

/-- A string with a quote and a bracket behind a key with both, and one key for two objects. -/
def lenientMembers : List MemberText :=
  [⟨"z\"]", '"' :: Text.escape "\\]\"".toList ++ ['"'], .scalar (.string "\\]\"")⟩,
    ⟨"k", ['\x7b', '\x7d'], .object (.map [])⟩, ⟨"k", lenientText, .object lenientObject⟩]

theorem parse_composed_lenientMembers :
    (∀ m ∈ lenientMembers, ValueText .legacy (some 1) m.text m.value) ∧
      Object.parse (MemberText.composed lenientMembers) ⟨.legacy, some 2⟩ =
        .ok (.map [("k", .object lenientObject), ("z\"]", .scalar (.string "\\]\""))]) := by
  have hread : Object.parse lenientText ⟨.legacy, some 1⟩ = .ok lenientObject := by cbv
  have hempty : Object.parse ['\x7b', '\x7d'] ⟨.legacy, some 1⟩ = .ok (.map []) := by cbv
  have texts : ∀ m ∈ lenientMembers, ValueText .legacy (some 1) m.text m.value := by
    rw [lenientMembers, List.forall_mem_cons, List.forall_mem_cons, List.forall_mem_singleton]
    exact ⟨.string "\\]\"", .object rfl hempty, .object rfl hread⟩
  have hmembers : Members.ofList (lenientMembers.map MemberText.entry) =
      [("k", .object lenientObject), ("z\"]", .scalar (.string "\\]\""))] := by cbv
  exact ⟨texts, by rw [← hmembers]; exact parse_composed .legacy (some 1) lenientMembers texts⟩

end LenientJson
