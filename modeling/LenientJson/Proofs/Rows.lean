import LenientJson.Proofs.Offsets.ByteOrder
import LenientJson.Proofs.Values.Lookup
import LenientJson.Row

/-!
# Rows of maps

The members of a map may come in any order. The scalar ones are sorted by the bytes of their names,
no two of which are alike, so a row is known from what its map holds and does not tell the order.
-/
namespace LenientJson

namespace Row

/-- The row of members as they come: the scalar ones are stored one by one and sorted at the
end. -/
def ofListed (listed : List (String × Value)) : Row :=
  let row := listed.foldl (fun row member => match member.2 with
    | .scalar value => row.push member.1 value
    | _ => row) ({} : Row)
  ⟨row.fields.mergeSort fun a b => decide (Text.bytes a.name ≤ Text.bytes b.name)⟩

/-- What the row of a map tells of its members. -/
structure Flattens (members : List (String × Value)) (row : Row) : Prop where
  increasing : row.fields.Pairwise fun a b => Text.bytes a.name < Text.bytes b.name
  lookup : ∀ name value,
    row.get? name = some value ↔ Members.get? name members = some (.scalar value)
  size : row.size = members.countP fun member => member.2.isScalar
  orderless : ∀ listed, members.Perm listed → ofListed listed = row

def field? (member : String × Value) : Option Field :=
  member.2.scalar?.map fun value => ⟨member.1, value⟩

section Members

variable {members : List (String × Value)}

theorem fields_ofMembers (members : List (String × Value)) :
    (ofMembers members).fields = members.filterMap field? := rfl

theorem field?_eq_some_iff {member : String × Value} {field : Field} :
    field? member = some field ↔ member = (field.name, .scalar field.value) := by
  obtain ⟨name, value⟩ := member
  obtain ⟨name', value'⟩ := field
  cases value <;> simp [field?, Value.scalar?]

theorem isSome_field? (member : String × Value) :
    (field? member).isSome = member.2.isScalar := by
  obtain ⟨name, value⟩ := member
  cases value <;> rfl

theorem mem_fields_ofMembers {field : Field} :
    field ∈ (ofMembers members).fields ↔ (field.name, Value.scalar field.value) ∈ members := by
  simp only [fields_ofMembers, List.mem_filterMap, field?_eq_some_iff]
  simp

/-- The fields keep the order of their members. -/
theorem pairwise_ofMembers {r : String → String → Prop}
    (h : members.Pairwise fun a b => r a.1 b.1) :
    (ofMembers members).fields.Pairwise fun a b => r a.name b.name := by
  rw [fields_ofMembers, List.pairwise_filterMap]
  refine h.imp fun hab field hfield field' hfield' => ?_
  rw [field?_eq_some_iff.mp hfield, field?_eq_some_iff.mp hfield'] at hab
  exact hab

theorem distinct_ofMembers (distinct : (members.map Prod.fst).Nodup) :
    ((ofMembers members).fields.map Field.name).Nodup := by
  rw [List.Nodup, List.pairwise_map] at *
  exact pairwise_ofMembers distinct

theorem size_ofMembers (members : List (String × Value)) :
    (ofMembers members).size = members.countP fun member => member.2.isScalar := by
  rw [size, fields_ofMembers, List.length_filterMap_eq_countP]
  simp only [isSome_field?]

end Members

section Lookup

variable {row : Row} {name : String} {value : Scalar}

/-- The first field of a name is the only one. -/
theorem get?_eq_some_iff_mem (distinct : (row.fields.map Field.name).Nodup) :
    row.get? name = some value ↔ ⟨name, value⟩ ∈ row.fields := by
  rw [get?, Option.map_eq_some_iff]
  constructor
  · rintro ⟨field, hfind, rfl⟩
    have hname : field.name = name := by simpa using List.find?_some hfind
    rw [← hname]
    exact List.mem_of_find?_eq_some hfind
  · intro hmem
    obtain ⟨field, hfind⟩ : ∃ field, row.fields.find? (·.name == name) = some field := by
      rw [← Option.isSome_iff_exists, List.find?_isSome]
      exact ⟨_, hmem, by simp⟩
    have hname : field.name = name := by simpa using List.find?_some hfind
    have hsame : field = ⟨name, value⟩ :=
      List.inj_on_of_nodup_map distinct (List.mem_of_find?_eq_some hfind) hmem hname
    exact ⟨field, hfind, by rw [hsame]⟩

theorem get?_ofMembers {members : List (String × Value)}
    (distinct : (members.map Prod.fst).Nodup) :
    (ofMembers members).get? name = some value ↔
      Members.get? name members = some (.scalar value) := by
  rw [get?_eq_some_iff_mem (distinct_ofMembers distinct), mem_fields_ofMembers,
    Members.get?_eq_some_iff distinct]

end Lookup

section Sorting

variable {members listed : List (String × Value)}

/-- Members are stored behind the fields that are there. -/
theorem fields_foldl_push (listed : List (String × Value)) (row : Row) :
    (listed.foldl (fun row member => match member.2 with
      | .scalar value => row.push member.1 value
      | _ => row) row).fields = row.fields ++ (ofMembers listed).fields := by
  induction listed generalizing row with
  | nil => simp [ofMembers]
  | cons member listed ih =>
    obtain ⟨name, value⟩ := member
    rw [List.foldl_cons, ih]
    cases value <;> simp [push, ofMembers, Value.scalar?]

theorem fields_ofListed (listed : List (String × Value)) : (ofListed listed).fields =
    (ofMembers listed).fields.mergeSort fun a b => decide (a.name ≤ b.name) := by
  simp only [ofListed, fields_foldl_push, Text.bytes_le_iff]
  rfl

theorem perm_ofListed (order : members.Perm listed) :
    (ofListed listed).fields.Perm (ofMembers members).fields := by
  rw [fields_ofListed, fields_ofMembers, fields_ofMembers]
  exact (List.mergeSort_perm _ _).trans (order.filterMap field?).symm

theorem pairwise_ofListed (listed : List (String × Value)) :
    (ofListed listed).fields.Pairwise fun a b => a.name ≤ b.name := by
  have hsorted : ((ofMembers listed).fields.mergeSort fun a b => decide (a.name ≤ b.name)).Pairwise
      fun a b => decide (a.name ≤ b.name) = true := by
    apply List.pairwise_mergeSort
    · intro a b c hab hbc
      rw [decide_eq_true_iff] at *
      exact le_trans hab hbc
    · intro a b
      simpa using le_total a.name b.name
  rw [fields_ofListed]
  simpa using hsorted

/-- Fields of distinct names have only one order. -/
theorem ofListed_eq_ofMembers (ordered : Members.Ascending members)
    (order : members.Perm listed) : ofListed listed = ofMembers members := by
  have hperm := perm_ofListed order
  have hsorted : (ofMembers members).fields.Pairwise fun a b => a.name ≤ b.name :=
    (pairwise_ofMembers ordered).imp le_of_lt
  have hfields : (ofListed listed).fields = (ofMembers members).fields := by
    refine List.Perm.eq_of_pairwise ?_ (pairwise_ofListed listed) hsorted hperm
    intro a b ha hb hab hba
    exact List.inj_on_of_nodup_map (distinct_ofMembers ordered.nodup_keys) (hperm.mem_iff.mp ha) hb
      (le_antisymm hab hba)
  rw [← Row.mk.injEq] at hfields
  exact hfields

end Sorting

theorem flattens_ofMembers {members : List (String × Value)}
    (ordered : Members.Ascending members) : Flattens members (ofMembers members) where
  increasing := by
    simp only [Text.bytes_lt_iff]
    exact pairwise_ofMembers ordered
  lookup _ _ := get?_ofMembers ordered.nodup_keys
  size := size_ofMembers members
  orderless _ order := ofListed_eq_ofMembers ordered order

end Row

/-- A map has a row, which holds its scalar members by name and in the order of names, whatever the
order of the members. A scalar with a key is a row of one field, and a scalar without a key and an
array have none. -/
theorem flattens_toRow :
    (∀ members, Members.Ascending members →
      ∃ row, (Object.map members).toRow = .ok row ∧ row.Flattens members) ∧
    (∀ key value, (Object.scalar (some key) value).toRow = .ok ⟨[⟨key, value⟩]⟩) ∧
    (∀ value, ∃ detail, (Object.scalar none value).toRow = .error (.unsupported detail)) ∧
    ∀ items, ∃ detail, Items.toRow items = .error (.unsupported detail) :=
  ⟨fun _ ordered => ⟨_, rfl, Row.flattens_ofMembers ordered⟩, fun _ _ => rfl,
    fun _ => ⟨_, rfl⟩, fun _ => ⟨_, rfl⟩⟩

def mixedMembers : List (String × Value) :=
  [("b", .scalar (.integer 2)), ("list", .array []),
    ("nested", .object (.scalar none (.boolean true))), ("é", .scalar (.string "one"))]

theorem flattens_toRow_mixedMembers :
    Members.Ascending mixedMembers ∧
      (Object.map mixedMembers).toRow = .ok ⟨[⟨"b", .integer 2⟩, ⟨"é", .string "one"⟩]⟩ ∧
      Row.ofListed mixedMembers.reverse = ⟨[⟨"b", .integer 2⟩, ⟨"é", .string "one"⟩]⟩ := by
  have ordered : Members.Ascending mixedMembers := by
    unfold Members.Ascending
    decide
  obtain ⟨row, hrow, hflattens⟩ := flattens_toRow.1 mixedMembers ordered
  obtain rfl : row = ⟨[⟨"b", .integer 2⟩, ⟨"é", .string "one"⟩]⟩ := Except.ok.inj hrow.symm
  exact ⟨ordered, hrow, hflattens.orderless _ mixedMembers.reverse_perm.symm⟩

end LenientJson
