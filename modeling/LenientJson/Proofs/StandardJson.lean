import LenientJson.Proofs.Reading.Layouts
import LenientJson.Proofs.RoundTrip
import LenientJson.Proofs.Values.Standard

/-!
# Reading standard JSON

The compact standard text of a tree differs from the lenient wire form where a string or a name
holds a bracket or a single quote, which stand there as they are. It is read as the tree all the
same, and what is read is the tree again with its members in key order.
-/
namespace LenientJson

namespace Json

variable {mode : ScanMode} {text : String}

theorem escapeChar_of_plain {c : Char} (quote : c ≠ '"') (backslash : c ≠ '\\')
    (control : 0x20 ≤ c.toNat) : escapeChar c = [c] := by
  have hne (d : Char) (hd : d.toNat < 0x20) : c ≠ d := by
    rintro rfl
    omega
  simp [escapeChar, quote, backslash, hne '\n' (by decide), hne '\t' (by decide),
    hne '\r' (by decide), hne '\x08' (by decide), hne '\x0c' (by decide), Nat.not_lt.mpr control]

namespace Verbatim

theorem quote_eq (h : Verbatim mode text) : Json.quote text = '"' :: text.toList ++ ['"'] := by
  have hplain (c : Char) (hc : c ∈ text.toList) : escapeChar c = [c] := by
    apply escapeChar_of_plain ?_ ?_ (h.control c hc)
    · rintro rfl
      exact h.quote hc
    · rintro rfl
      exact h.backslash hc
  have hall : text.toList.flatMap escapeChar = text.toList.flatMap fun c => [c] :=
    List.flatMap_congr hplain
  rw [Json.quote, hall, List.flatMap_singleton']

theorem safeIn (h : Verbatim mode text) : Reader.SafeIn mode text.toList where
  quotes i hi hc := absurd (hc ▸ List.getElem_mem hi) h.quote
  ending := Reader.escapedBehind_of_not_mem h.backslash
  brackets hmode i hi hc := by
    rw [h.bracket hmode _ (List.getElem_mem hi)] at hc
    cases hc

theorem unescape (h : Verbatim mode text) : Text.unescape text.toList = text.toList :=
  Text.unescape_of_not_mem h.backslash

end Verbatim

/-- A number that is written without an exponent is written plainly. -/
theorem json_eq_plain {x : Binary64} (finite : x.isFinite = true) (positional : 'e' ∉ x.json) :
    x.json = x.plain := by
  cases x with
  | nan => cases finite
  | infinite negative => cases finite
  | finite negative rank lt =>
    have hlayout : Decimal.write .json (Shortest.ofRank rank) =
        (Shortest.ofRank rank).plain := by
      rw [Decimal.write]
      split
      next => rfl
      next hrange =>
        refine absurd ?_ positional
        have hscientific : 'e' ∈ (Shortest.ofRank rank).scientific :=
          List.mem_append_right _ List.mem_cons_self
        cases negative <;> simp [Binary64.json, Binary64.write, Decimal.write, hrange, hscientific]
    simp only [Binary64.json, Binary64.plain, Binary64.write, hlayout]

end Json

namespace Reader

variable {mode : ScanMode}

/-- A name that is written as it is names the member. -/
theorem memberTextOf_verbatim {name : String} {j : Json} (verbatim : Json.Verbatim mode name)
    (value : TextOf mode .member j.tree j.compact) :
    MemberTextOf mode (name, j.tree) (Json.quote name ++ ':' :: j.compact) := by
  have hmember : MemberTextOf mode (name, j.tree)
      ('"' :: name.toList ++ '"' :: ([] ++ ':' :: ([] ++ j.compact))) :=
    memberTextOf_keyed verbatim.safeIn.toQuotable (fun _ => verbatim.safeIn.neutral_quote)
      verbatim.unescape (by simp) (by simp) value
  rw [verbatim.quote_eq, List.append_assoc]
  exact hmember

/-- The members of an object are read from between its braces. -/
theorem insideOf_members {members : List (String × Json)}
    (names : ∀ member ∈ members, Json.Verbatim mode member.1)
    (values : ∀ member ∈ members, TextOf mode .member member.2.tree member.2.compact) :
    InsideOf mode Level.object (DocTree.object (Json.treeMembers members)).nesting
      (.map (Members.ofList (DocTree.memberValues (Json.treeMembers members))))
      (Text.commaSeparated (Json.compactMembers members)) := by
  refine insideOf_object ?_ (spread_commaSeparated _)
  rw [Json.treeMembers_eq_map, Json.compactMembers_eq_map, List.forall₂_map_left_iff,
    List.forall₂_map_right_iff, List.forall₂_same]
  exact fun member h => memberTextOf_verbatim (names member h) (values member h)

/-- A standard tree is read from its compact text in every role. -/
theorem textOf_standard {j : Json} (h : j.Standard mode) (role : Role) :
    TextOf mode role j.tree j.compact := by
  induction h generalizing role with
  | @string text verbatim =>
    change TextOf mode role (.scalar (.string text)) (Json.quote text)
    rw [verbatim.quote_eq]
    cases role with
    | member =>
      exact textOf_quoted_member verbatim.safeIn.toQuotable (fun _ => verbatim.safeIn.neutral_quote)
        verbatim.unescape
    | element => exact textOf_quoted_element verbatim.safeIn
  | @double value finite positional =>
    change TextOf mode role (.scalar (.double value)) value.json
    rw [Json.json_eq_plain finite positional]
    exact textOf_word rfl
  | @array items _ _ ih =>
    rw [Json.tree, Json.compact, Json.enclose, Json.treeItems_eq_map, Json.compactItems_eq_map]
    refine textOf_array (insideOf_array ?_ (spread_commaSeparated _))
    rw [List.forall₂_map_left_iff, List.forall₂_map_right_iff, List.forall₂_same]
    exact fun j hj => ih j hj .element
  | @object members names _ ih =>
    rw [Json.tree, Json.compact, Json.enclose]
    exact textOf_object (insideOf_members names fun member h => ih member h .member)
  | null => exact textOf_word rfl
  | boolean => exact textOf_word rfl
  | integer => exact textOf_word rfl

end Reader

open Reader in
/-- A standard object is read from its compact text, and as a JSON tree the result is the object
again. -/
theorem toJson_parse_compact (mode : ScanMode) (limit : Option Nat)
    (members : List (String × Json)) (standard : (Json.object members).Standard mode)
    (hlimit : ∀ m, limit = some m → (Json.object members).tree.nesting ≤ m) :
    (Object.parse (Json.object members).compact ⟨mode, limit⟩).map Object.toJson =
        .ok (Json.object members).sorted ∧
      ((Json.object members).Ordered →
        (Object.parse (Json.object members).compact ⟨mode, limit⟩).map Object.toJson =
          .ok (.object members)) := by
  have hread : Object.parse (Json.object members).compact ⟨mode, limit⟩ =
      .ok (.map (Members.ofList (DocTree.memberValues (Json.treeMembers members)))) := by
    cases standard with
    | object names each =>
      have inside := insideOf_members names fun member h => textOf_standard (each member h) .member
      exact eq_ok_of_readsWithin (readsWithin_parse_object (padded_brackets .curly _)
        (inside.neutral .curly).balanced inside.reads) hlimit
  have htree : (Object.map (Members.ofList
      (DocTree.memberValues (Json.treeMembers members)))).toJson = (Json.object members).sorted :=
    standard.toJson_value
  have hsorted : (Object.parse (Json.object members).compact ⟨mode, limit⟩).map Object.toJson =
      .ok (Json.object members).sorted := by
    rw [hread, Except.map, htree]
  refine ⟨hsorted, fun ordered => ?_⟩
  rw [hsorted, Json.sorted_of_ordered ordered]

def punctuatedMembers : List (String × Json) :=
  [("", .array [.string "1.50", .double (.ofDecimal false 15 (-1)), .object []]),
    ("a:b", .object [("\x7b,", .string "]")]), ("n", .integer (-7))]

def punctuatedText : String :=
  "\x7b\"\":[\"1.50\",1.5,\x7b\x7d],\"a:b\":\x7b\"\x7b,\":\"]\"\x7d,\"n\":-7\x7d"

theorem toJson_parse_compact_punctuatedMembers :
    ((Json.object punctuatedMembers).Standard .stringAware ∧
      (Json.object punctuatedMembers).tree.nesting ≤ 3 ∧
      (Json.object punctuatedMembers).Ordered) ∧
    (Object.parse punctuatedText.toList ⟨.stringAware, some 3⟩).map Object.toJson =
      .ok (.object punctuatedMembers) := by
  have verbatim (text : String) (quote : '"' ∉ text.toList) (backslash : '\\' ∉ text.toList)
      (control : ∀ c ∈ text.toList, 0x20 ≤ c.toNat) : Json.Verbatim .stringAware text :=
    ⟨quote, backslash, control, fun h => by cases h⟩
  have standard : (Json.object punctuatedMembers).Standard .stringAware := by
    have hdouble : (Json.double (.ofDecimal false 15 (-1))).Standard .stringAware :=
      .double (by decide +kernel) (by decide +kernel)
    have hempty : (Json.object []).Standard .stringAware := .object (by simp) (by simp)
    have harray : (Json.array [.string "1.50", .double (.ofDecimal false 15 (-1)),
        .object []]).Standard .stringAware :=
      .array (by simp [Json.Standard.string, verbatim, hdouble, hempty]) (by simp)
    have hobject : (Json.object [("\x7b,", .string "]")]).Standard .stringAware :=
      .object (by simp [verbatim]) (by simp [Json.Standard.string, verbatim])
    have hinteger : (Json.integer (-7)).Standard .stringAware := .integer (by decide) (by decide)
    exact .object (by simp [punctuatedMembers, verbatim])
      (by simp [punctuatedMembers, harray, hobject, hinteger])
  have ordered : (Json.object punctuatedMembers).Ordered := by
    have hempty : (Json.object []).Ordered := .object .nil (by simp)
    have harray : (Json.array [.string "1.50", .double (.ofDecimal false 15 (-1)),
        .object []]).Ordered := .array (by simp [Json.Ordered.leaf, hempty])
    have hobject : (Json.object [("\x7b,", .string "]")]).Ordered :=
      .object (List.pairwise_singleton _ _) (by simp [Json.Ordered.leaf])
    have ascending : Members.Ascending punctuatedMembers := by
      unfold Members.Ascending punctuatedMembers
      decide
    exact .object ascending (by simp [punctuatedMembers, harray, hobject, Json.Ordered.leaf])
  have hlimit : (Json.object punctuatedMembers).tree.nesting ≤ 3 := by decide
  have htext : (Json.object punctuatedMembers).compact = punctuatedText.toList := by
    decide +kernel
  refine ⟨⟨standard, hlimit, ordered⟩, ?_⟩
  have h := (toJson_parse_compact .stringAware (some 3) punctuatedMembers standard
    (by rintro _ ⟨⟩; exact hlimit)).2 ordered
  rwa [htext] at h

end LenientJson
