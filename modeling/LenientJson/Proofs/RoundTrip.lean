import LenientJson.Proofs.DepthLimit
import LenientJson.Proofs.Reading.WireForm

/-!
# Writing and reading back

A document that is written, with the members of its maps in any order, is read back as its normal
form, unless it nests deeper than the limit; then it is refused.
-/
namespace LenientJson

namespace Reader

variable {α : Type} {mode : ScanMode} {limit : Option Nat}

/-- A text in braces is read as an object on as many levels as the limit gives. -/
theorem guarded_readObject {text inside : List Char} {nesting : Nat} {value : Object}
    (padded : Padded .curly inside text) (balanced : Balanced mode .curly inside)
    (reads : ∀ opener limit depth, Guarded limit (nesting + 1 ≤ depth) value
      ((Level.ofDepth mode limit depth).object ⟨opener, inside⟩).result) :
    Guarded (levels ⟨mode, limit⟩ text) (nesting + 1 ≤ levels ⟨mode, limit⟩ text) value
      (readObject ⟨mode, limit⟩ text).result := by
  cases hl : levels ⟨mode, limit⟩ text with
  | zero =>
    obtain ⟨offset, htrim⟩ := padded.trim
    rw [readObject_result_zero (congrArg Span.chars htrim) hl]
    exact guarded_refuse
  | succ below =>
    obtain ⟨opener, hread⟩ := readObject_padded padded balanced hl
    rw [hread]
    exact reads opener _ _

theorem guarded_readArray {text inside : List Char} {nesting : Nat} {value : List Object}
    (padded : Padded .square inside text) (balanced : Balanced mode .square inside)
    (reads : ∀ opener limit depth, Guarded limit (nesting + 1 ≤ depth) value
      ((Level.ofDepth mode limit depth).array ⟨opener, inside⟩).result) :
    Guarded (levels ⟨mode, limit⟩ text) (nesting + 1 ≤ levels ⟨mode, limit⟩ text) value
      (readArray ⟨mode, limit⟩ text).result := by
  cases hl : levels ⟨mode, limit⟩ text with
  | zero =>
    obtain ⟨offset, htrim⟩ := padded.trim
    rw [readArray_result_zero (congrArg Span.chars htrim) hl]
    exact guarded_refuse
  | succ below =>
    obtain ⟨opener, hread⟩ := readArray_padded padded balanced hl
    rw [hread]
    exact reads opener _ _

end Reader

/-- What is read under a limit: the value if its depth is within the limit, or else a refusal. -/
def ReadsWithin {α : Type} (limit : Option Nat) (depth : Nat) (value : α)
    (outcome : Except Error α) : Prop :=
  match limit with
  | none => outcome = .ok value
  | some m =>
    if depth ≤ m then outcome = .ok value
    else ∃ location, outcome = .error (.depthLimit m (some location))

namespace Reader

/-- A document within the limit is read whole. -/
theorem eq_ok_of_readsWithin {α : Type} {depth : Nat} {value : α} {outcome : Except Error α}
    (h : ReadsWithin limit depth value outcome) (hdepth : ∀ m, limit = some m → depth ≤ m) :
    outcome = .ok value := by
  cases limit with
  | none => exact h
  | some m =>
    change if depth ≤ m then _ else _ at h
    rw [if_pos (hdepth m rfl)] at h
    exact h

theorem readsWithin_of_guarded {text : List Char} {depth : Nat} {value : α}
    {read : Options → List Char → Reading α}
    (guarded : Guarded (levels ⟨mode, limit⟩ text) (depth ≤ levels ⟨mode, limit⟩ text) value
      (read ⟨mode, limit⟩ text).result)
    (unlimited : Outcome (fun _ => True) IsMalformed (read ⟨mode, none⟩ text).result) :
    ReadsWithin limit depth value
      ((read ⟨mode, limit⟩ text).result.mapError (Error.ofFault text)) := by
  cases limit with
  | none =>
    by_cases hfits : depth ≤ levels ⟨mode, none⟩ text
    · rw [guarded.read hfits]
      rfl
    · obtain ⟨offset, hrefused⟩ := guarded.refused hfits
      rw [hrefused] at unlimited
      obtain ⟨malformation, hcause⟩ := unlimited
      cases hcause
  | some m =>
    change if depth ≤ m then _ else _
    by_cases hfits : depth ≤ m
    · rw [if_pos hfits, guarded.read hfits]
      rfl
    · obtain ⟨offset, hrefused⟩ := guarded.refused hfits
      rw [if_neg hfits, hrefused]
      exact ⟨_, rfl⟩

section Brackets

variable {text inside : List Char} {nesting : Nat}

/-- A text in braces is read as the object if the limit is enough for what is in it. -/
theorem readsWithin_parse_object {value : Object} (padded : Padded .curly inside text)
    (balanced : Balanced mode .curly inside)
    (reads : ∀ opener limit depth, Guarded limit (nesting + 1 ≤ depth) value
      ((Level.ofDepth mode limit depth).object ⟨opener, inside⟩).result) :
    ReadsWithin limit (nesting + 1) value (Object.parse text ⟨mode, limit⟩) :=
  readsWithin_of_guarded (guarded_readObject padded balanced reads)
    (outcome_readObject_unlimited mode text)

theorem readsWithin_parse_array {value : List Object} (padded : Padded .square inside text)
    (balanced : Balanced mode .square inside)
    (reads : ∀ opener limit depth, Guarded limit (nesting + 1 ≤ depth) value
      ((Level.ofDepth mode limit depth).array ⟨opener, inside⟩).result) :
    ReadsWithin limit (nesting + 1) value (Items.parse text ⟨mode, limit⟩) :=
  readsWithin_of_guarded (guarded_readArray padded balanced reads)
    (outcome_readArray_unlimited mode text)

end Brackets

theorem readsWithin_object {o p : Object} (limit : Option Nat) (hmap : o.isMap = true)
    (reordered : o.Reordered p) (ordered : (Value.object o).Ordered)
    (literals : QuotableLiterals (.object o)) (closed : Closed mode (.object p)) :
    ReadsWithin limit o.depth o.normal (Object.parse p.wire ⟨mode, limit⟩) := by
  have inside := readsInside (.object reordered) ordered literals closed
  cases reordered with
  | scalar key s => cases hmap
  | @map members moved listed order h =>
    have hdepth : (Object.map members).depth = (Object.map members).nesting :=
      max_eq_left (Nat.succ_le_succ (Nat.zero_le _))
    rw [hdepth]
    exact readsWithin_parse_object (padded_brackets .curly _) (closed.map listed (.self _)) inside

theorem readsWithin_array {items listed : List Object} (limit : Option Nat)
    (reordered : (Value.array items).Reordered (.array listed))
    (ordered : (Value.array items).Ordered) (literals : QuotableLiterals (.array items))
    (closed : Closed mode (.array listed)) :
    ReadsWithin limit (Items.depth items) (Items.normal items)
      (Items.parse (Items.wire listed) ⟨mode, limit⟩) :=
  readsWithin_parse_array (padded_brackets .square _) (closed.array listed (.self _))
    (readsInside reordered ordered literals closed)

theorem SafeLiterals.quotable {v : Value} (h : SafeLiterals mode v) : QuotableLiterals v :=
  fun key text hpart => (h key text hpart).toQuotable

end Reader

open Reader in
/-- An object or array whose lone strings are safe is read back from its text as its normal form
exactly if its depth is within the limit, whatever the order in which members are written. -/
theorem parse_wire (mode : ScanMode) (limit : Option Nat) :
    (∀ o p : Object, o.isMap = true → (Value.object o).Ordered → SafeLiterals mode (.object o) →
      o.Reordered p →
        ReadsWithin limit o.depth o.normal (Object.parse p.wire ⟨mode, limit⟩)) ∧
    (∀ items listed : List Object, (Value.array items).Ordered → SafeLiterals mode (.array items) →
      (Value.array items).Reordered (.array listed) →
        ReadsWithin limit (Items.depth items) (Items.normal items)
          (Items.parse (Items.wire listed) ⟨mode, limit⟩)) := by
  constructor
  · intro o p hmap ordered safe reordered
    exact readsWithin_object limit hmap reordered ordered safe.quotable
      (neutral_wire (.object reordered) safe).2
  · intro items listed ordered safe reordered
    exact readsWithin_array limit reordered ordered safe.quotable (neutral_wire reordered safe).2

def escapedLiteral : List Char := ['q', '\\', '"', '\\', '[']

def mixedObject : Object :=
  .map [("list", .array [.scalar (some "key") (.string (.ofList escapedLiteral)), .map []]),
    ("\x7b\"", .scalar (.bigInteger 7))]

def mixedObjectSwapped : Object :=
  .map [("\x7b\"", .scalar (.bigInteger 7)),
    ("list", .array [.scalar (some "key") (.string (.ofList escapedLiteral)), .map []])]

theorem parse_wire_mixedObject :
    (mixedObject.isMap = true ∧ (Value.object mixedObject).Ordered ∧
      Reader.SafeLiterals .legacy (.object mixedObject) ∧
      mixedObject.Reordered mixedObjectSwapped) ∧
    (ReadsWithin (some 3) mixedObject.depth mixedObject.normal
        (Object.parse mixedObjectSwapped.wire ⟨.legacy, some 3⟩) ∧
      ReadsWithin (some 2) (Items.depth [mixedObject]) (Items.normal [mixedObject])
        (Items.parse (Items.wire [mixedObjectSwapped]) ⟨.legacy, some 2⟩)) := by
  have ordered : (Value.object mixedObject).Ordered := by
    intro members hpart
    simp only [mixedObject, partOf_map_iff, partOf_array_iff, partOf_literal_iff,
      partOf_scalar_iff, List.mem_cons, List.not_mem_nil, or_false, exists_eq_or_imp,
      exists_eq_left, Value.object.injEq, Object.map.injEq, reduceCtorEq, false_or, false_and,
      exists_false] at hpart
    rcases hpart with rfl | rfl
    · apply List.pairwise_pair.mpr
      decide
    · exact .nil
  have safe : Reader.SafeLiterals .legacy (.object mixedObject) := by
    intro key text hpart
    simp only [mixedObject, partOf_map_iff, partOf_array_iff, partOf_literal_iff,
      partOf_scalar_iff, List.mem_cons, List.not_mem_nil, or_false, exists_eq_or_imp,
      exists_eq_left, Value.object.injEq, Object.scalar.injEq, Scalar.string.injEq, reduceCtorEq,
      false_or, false_and, exists_false] at hpart
    obtain ⟨-, rfl⟩ := hpart
    rw [String.toList_ofList]
    exact ⟨⟨by decide, by decide⟩, fun _ => by decide⟩
  have reordered : mixedObject.Reordered mixedObjectSwapped :=
    .map (.swap _ _ _) (.cons ⟨.scalar _⟩
      (.cons ⟨.array (.cons (.scalar _ _) (.cons (.map .nil .nil) .nil))⟩ .nil))
  refine ⟨⟨rfl, ordered, safe, reordered⟩,
    (parse_wire .legacy (some 3)).1 _ _ rfl ordered safe reordered,
    (parse_wire .legacy (some 2)).2 _ _ ?_ ?_ (.array (.cons reordered .nil))⟩
  · intro members hpart
    obtain ⟨o, ho, hpart⟩ := (partOf_array_iff.mp hpart).resolve_left fun h => by cases h
    obtain rfl := List.mem_singleton.mp ho
    exact ordered members hpart
  · intro key text hpart
    obtain ⟨o, ho, hpart⟩ := (partOf_array_iff.mp hpart).resolve_left fun h => by cases h
    obtain rfl := List.mem_singleton.mp ho
    exact safe key text hpart

end LenientJson
