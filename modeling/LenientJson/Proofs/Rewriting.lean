import LenientJson.Proofs.Reading.Canonical
import LenientJson.Proofs.RoundTrip

/-!
# Writing again what was read

What is read is canonical, and a canonical value is its own normal form. So a document that was
read, written and read again is the same, provided that the strings among the elements of its
arrays, which are written as they are, can stand between quotes, and that a scan which does not skip
strings finds the maps and arrays of the text balanced.
-/
namespace LenientJson

namespace Reader

variable {mode : ScanMode} {limit : Option Nat}

/-- What keeps the text of `w`, in which the members of `v` are listed in some order, from being
read as something else. -/
structure Rewritable (mode : ScanMode) (v w : Value) : Prop where
  quotable : ∀ items key text, PartOf (.array items) v → Object.scalar key (.string text) ∈ items →
    Quotable text.toList
  closed : mode = .legacy → Closed .legacy w

theorem Rewritable.literals {v w : Value} (h : Rewritable mode v w) (canonical : Canonical v) :
    QuotableLiterals v := by
  intro key text hpart
  obtain ⟨items, hitems, hmem⟩ := canonical.exists_array_of_literal hpart
  exact h.quotable items key text hitems hmem

theorem Rewritable.closed_of_reordered {v w : Value} (h : Rewritable mode v w)
    (canonical : Canonical v) (reordered : v.Reordered w) : Closed mode w := by
  cases mode with
  | legacy => exact h.closed rfl
  | stringAware =>
    have safe : SafeLiterals .stringAware v := fun key text hpart =>
      { toQuotable := h.literals canonical key text hpart
        brackets := fun hmode => by cases hmode }
    exact (neutral_wire reordered safe).2

/-- A lone string is read from its text whatever is in it: it reaches to the last character. -/
theorem parse_literal (hlimit : limit ≠ some 0) (text : String) :
    Object.parse (Object.scalar none (.string text)).wire ⟨mode, limit⟩ =
      .ok (.scalar none (.string text)) := by
  have hwire : (Object.scalar none (.string text)).wire = '"' :: (text.toList ++ ['"']) := rfl
  have hs : (Span.ofText ('"' :: (text.toList ++ ['"']))).trim.chars =
      '"' :: (text.toList ++ ['"']) :=
    congrArg Span.chars (trim_between rfl rfl rfl)
  obtain ⟨below, hl⟩ :
      ∃ below, levels ⟨mode, limit⟩ ('"' :: (text.toList ++ ['"'])) = below + 1 := by
    apply Nat.exists_eq_add_one_of_ne_zero
    intro hzero
    cases limit with
    | none => cases hzero
    | some m => exact hlimit (congrArg some hzero)
  rw [hwire, Object.parse, readObject_result_cons hs hl, if_pos rfl,
    loneString, List.getLast?_concat, if_pos rfl, List.dropLast_concat, String.ofList_toList]
  rfl

theorem depth_parse_object {text : List Char} {o : Object} {m : Nat} (hm : m ≠ 0)
    (h : Object.parse text ⟨mode, some m⟩ = .ok o) : o.depth ≤ m := by
  cases hblank : text.all Text.isBlank with
  | false => exact (depth_readObject mode hblank (some m)).of_eq_ok (mapError_eq_ok_iff.mp h)
  | true =>
    rw [Object.parse, readObject_nil (trim_ofText_eq_nil_iff.mpr hblank)] at h
    rw [← Except.ok.inj h]
    exact Nat.one_le_iff_ne_zero.mpr hm

theorem depth_parse_array {text : List Char} {items : List Object} {m : Nat} (hm : m ≠ 0)
    (h : Items.parse text ⟨mode, some m⟩ = .ok items) : Items.depth items ≤ m := by
  cases hblank : text.all Text.isBlank with
  | false => exact (depth_readArray mode hblank (some m)).of_eq_ok (mapError_eq_ok_iff.mp h)
  | true =>
    rw [Items.parse, readArray_nil (trim_ofText_eq_nil_iff.mpr hblank)] at h
    rw [← Except.ok.inj h]
    exact Nat.one_le_iff_ne_zero.mpr hm

end Reader

open Reader in
/-- What was read under a limit that allows a document at all is read again from its text, with the
members of its maps in any order, under the same limit. -/
theorem parse_wire_of_parse (mode : ScanMode) (limit : Option Nat) (hlimit : limit ≠ some 0) :
    (∀ text o, Object.parse text ⟨mode, limit⟩ = .ok o → ∀ p : Object, o.Reordered p →
      Rewritable mode (.object o) (.object p) → Object.parse p.wire ⟨mode, limit⟩ = .ok o) ∧
    (∀ text items, Items.parse text ⟨mode, limit⟩ = .ok items → ∀ listed : List Object,
      (Value.array items).Reordered (.array listed) →
        Rewritable mode (.array items) (.array listed) →
          Items.parse (Items.wire listed) ⟨mode, limit⟩ = .ok items) := by
  have hpositive (m : Nat) (hm : limit = some m) : m ≠ 0 := by
    rintro rfl
    exact hlimit hm
  constructor
  · intro text o hread p reordered rewritable
    rcases (canonical_readObject _ text).of_eq_ok (mapError_eq_ok_iff.mp hread) with
      ⟨string, rfl⟩ | canonical
    · cases reordered
      exact parse_literal hlimit string
    · have hmap : o.isMap = true := by
        cases canonical
        rfl
      have hnormal : o.normal = o := by
        cases o with
        | scalar key s => cases hmap
        | map members => exact Value.object.inj (normal_of_canonical canonical)
      have hwithin := readsWithin_object limit hmap reordered canonical.ordered
        (rewritable.literals canonical)
        (rewritable.closed_of_reordered canonical (.object reordered))
      rw [eq_ok_of_readsWithin hwithin fun m hm => ?_, hnormal]
      subst hm
      exact depth_parse_object (hpositive m rfl) hread
  · intro text items hread listed reordered rewritable
    have canonical := (canonical_readArray _ text).of_eq_ok (mapError_eq_ok_iff.mp hread)
    have hwithin := readsWithin_array limit reordered canonical.ordered
      (rewritable.literals canonical) (rewritable.closed_of_reordered canonical reordered)
    rw [eq_ok_of_readsWithin hwithin fun m hm => ?_]
    · exact congrArg Except.ok (Value.array.inj (normal_of_canonical canonical))
    · subst hm
      exact depth_parse_array (hpositive m rfl) hread

def quotedBrackets : List Char :=
  ['\x7b', 'b', ':', '[', 'x', ' ', 'y', ',', '"', 'q', '\\', '"', '[', ']', '"', ']', ',', 'a',
    ':', 'T', 'R', 'U', 'E', '\x7d']

def quotedBracketsObject : Object :=
  .map [("a", .scalar (.boolean true)),
    ("b", .array [.scalar none (.string (.ofList ['x', ' ', 'y'])),
      .scalar none (.string (.ofList ['q', '\\', '"', '[', ']']))])]

def quotedBracketsSwapped : Object :=
  .map [("b", .array [.scalar none (.string (.ofList ['x', ' ', 'y'])),
      .scalar none (.string (.ofList ['q', '\\', '"', '[', ']']))]),
    ("a", .scalar (.boolean true))]

theorem parse_wire_quotedBrackets :
    Object.parse quotedBrackets ⟨.legacy, some 2⟩ = .ok quotedBracketsObject ∧
      quotedBracketsObject.Reordered quotedBracketsSwapped ∧
      Reader.Rewritable .legacy (.object quotedBracketsObject) (.object quotedBracketsSwapped) ∧
      Object.parse quotedBracketsSwapped.wire ⟨.legacy, some 2⟩ = .ok quotedBracketsObject := by
  have hread : Object.parse quotedBrackets ⟨.legacy, some 2⟩ = .ok quotedBracketsObject := by cbv
  have reordered : quotedBracketsObject.Reordered quotedBracketsSwapped :=
    .map (.swap _ _ _)
      (.cons ⟨.array (.cons (.scalar _ _) (.cons (.scalar _ _) .nil))⟩ (.cons ⟨.scalar _⟩ .nil))
  have rewritable :
      Reader.Rewritable .legacy (.object quotedBracketsObject) (.object quotedBracketsSwapped) := by
    constructor
    · intro items key text hpart hmem
      simp only [quotedBracketsObject, partOf_map_iff, partOf_array_iff, partOf_literal_iff,
        partOf_scalar_iff, List.mem_cons, List.not_mem_nil, or_false, exists_eq_or_imp,
        exists_eq_left, Value.array.injEq, reduceCtorEq, false_or] at hpart
      subst hpart
      simp only [List.mem_cons, List.not_mem_nil, or_false, Object.scalar.injEq,
        Scalar.string.injEq] at hmem
      rcases hmem with ⟨-, rfl⟩ | ⟨-, rfl⟩
      · rw [String.toList_ofList]
        exact ⟨by decide, by decide⟩
      · rw [String.toList_ofList]
        exact ⟨by decide, by decide⟩
    · intro _
      constructor
      · intro members hpart
        simp only [quotedBracketsSwapped, partOf_map_iff, partOf_array_iff, partOf_literal_iff,
          partOf_scalar_iff, List.mem_cons, List.not_mem_nil, or_false, exists_eq_or_imp,
          exists_eq_left, Value.object.injEq, Object.map.injEq, reduceCtorEq] at hpart
        subst hpart
        cbv
      · intro items hpart
        simp only [quotedBracketsSwapped, partOf_map_iff, partOf_array_iff, partOf_literal_iff,
          partOf_scalar_iff, List.mem_cons, List.not_mem_nil, or_false, exists_eq_or_imp,
          exists_eq_left, Value.array.injEq, reduceCtorEq, false_or] at hpart
        subst hpart
        cbv
  exact ⟨hread, reordered, rewritable,
    (parse_wire_of_parse .legacy (some 2) (by decide)).1 _ _ hread _ reordered rewritable⟩

def bareQuote : List Char := ['[', 'a', '"', 'b', '"', ']']

def bareQuoteItems : List Object := [.scalar none (.string (.ofList ['a', '"', 'b', '"']))]

def partedBraces : List Char :=
  ['\x7b', 'b', ':', '[', '"', '\x7b', '"', ']', ',', 'a', ':', '[', '"', '\x7d', '"', ']', '\x7d']

def partedBracesObject : Object :=
  .map [("a", .array [.scalar none (.string (.ofList ['\x7d']))]),
    ("b", .array [.scalar none (.string (.ofList ['\x7b']))])]

/-- Neither proviso can be left out. A word with a quote in it ends between quotes at its own quote,
and a brace in a string ends the map if the one that it matches comes later. -/
theorem parse_wire_of_parse_fails :
    (Items.parse bareQuote ⟨.stringAware, none⟩ = .ok bareQuoteItems ∧
      ∃ error, Items.parse (Items.wire bareQuoteItems) ⟨.stringAware, none⟩ = .error error) ∧
    (Object.parse partedBraces ⟨.legacy, none⟩ = .ok partedBracesObject ∧
      ∃ error, Object.parse partedBracesObject.wire ⟨.legacy, none⟩ = .error error) := by
  constructor
  · constructor
    · cbv
    · have hread : (Reader.readArray ⟨.stringAware, none⟩ (Items.wire bareQuoteItems)).result =
          .error ⟨.malformed (.unseparated .elements), 4⟩ := by cbv
      exact ⟨_, congrArg (Except.mapError _) hread⟩
  · constructor
    · cbv
    · have hread : (Reader.readObject ⟨.legacy, none⟩ partedBracesObject.wire).result =
          .error ⟨.malformed (.trailing .curly), 8⟩ := by cbv
      exact ⟨_, congrArg (Except.mapError _) hread⟩

end LenientJson
