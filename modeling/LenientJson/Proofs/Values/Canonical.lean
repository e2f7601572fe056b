import LenientJson.Proofs.Values.Normal

/-!
# Canonical values

In a canonical value maps list their members in key order, scalars are in normal form, an element
that holds a scalar has no key, and no member is such an object. A canonical value is its own
normal form.
-/
namespace LenientJson

inductive Canonical : Value → Prop
  | scalar {s : Scalar} (normal : s.normal = s) : Canonical (.scalar s)
  | map {members : List (String × Value)} (ascending : Members.Ascending members)
      (values : ∀ member ∈ members, Canonical member.2) : Canonical (.object (.map members))
  | array {items : List Object}
      (literals : ∀ key s, Object.scalar key s ∈ items → key = none ∧ s.normal = s)
      (maps : ∀ members, Object.map members ∈ items → Canonical (.object (.map members))) :
      Canonical (.array items)

def CanonicalElement : Object → Prop
  | .scalar key s => key = none ∧ s.normal = s
  | .map members => Canonical (.object (.map members))

theorem canonical_array_iff {items : List Object} :
    Canonical (.array items) ↔ ∀ o ∈ items, CanonicalElement o := by
  constructor
  · intro h o ho
    cases h with
    | array literals maps =>
      cases o with
      | scalar key s => exact literals key s ho
      | map members => exact maps members ho
  · intro h
    exact .array (fun _ _ ho => h _ ho) fun _ ho => h _ ho

theorem normal_of_canonical {v : Value} (h : Canonical v) : v.normal = v := by
  induction h with
  | scalar normal => rw [Value.normal, normal]
  | @map members ascending _ ih =>
    have hmembers : members.map (fun member => (member.1, member.2.normal)) = members := by
      refine (List.map_congr_left fun member hmem => ?_).trans (List.map_id members)
      exact Prod.ext rfl (ih member hmem)
    rw [Value.normal, normalMembers_eq_map, hmembers]
  | @array items literals _ ih =>
    have hitems : items.map Object.normal = items := by
      refine (List.map_congr_left fun o hmem => ?_).trans (List.map_id items)
      cases o with
      | scalar key s =>
        obtain ⟨rfl, hs⟩ := literals key s hmem
        rw [Object.normal, hs]
        rfl
      | map members => exact Value.object.inj (ih members hmem)
    rw [Value.normal, normalItems_eq_map, hitems]

/-- A value within a canonical one: it is canonical itself, or it is an element that holds a
scalar. -/
def CanonicalPart (v : Value) : Prop :=
  Canonical v ∨ ∃ s : Scalar, v = .object (.scalar none s) ∧ s.normal = s

theorem canonicalPart_object_iff {o : Object} : CanonicalPart (.object o) ↔ CanonicalElement o := by
  cases o with
  | scalar key s =>
    constructor
    · rintro (h | ⟨s', heq, hs⟩)
      · cases h
      · cases heq
        exact ⟨rfl, hs⟩
    · rintro ⟨rfl, hs⟩
      exact .inr ⟨s, rfl, hs⟩
  | map members =>
    constructor
    · rintro (h | ⟨s, heq, -⟩)
      · exact h
      · cases heq
    · exact .inl

theorem CanonicalPart.part {u v : Value} (h : CanonicalPart v) (hpart : PartOf u v) :
    CanonicalPart u := by
  induction hpart with
  | self => exact h
  | member hmem _ ih =>
    rcases h with h | ⟨s, heq, -⟩
    · cases h with
      | map ascending values => exact ih (.inl (values _ hmem))
    · cases heq
  | element hmem _ ih =>
    rcases h with h | ⟨s, heq, -⟩
    · exact ih (canonicalPart_object_iff.mpr (canonical_array_iff.mp h _ hmem))
    · cases heq

/-- Nothing but maps and the elements of arrays are objects within a canonical value. -/
theorem Canonical.element_of_part {v : Value} {o : Object} (h : Canonical v)
    (hpart : PartOf (.object o) v) : CanonicalElement o :=
  canonicalPart_object_iff.mp (CanonicalPart.part (.inl h) hpart)

theorem Canonical.ordered {v : Value} (h : Canonical v) : v.Ordered := by
  intro members hpart
  cases h.element_of_part hpart with
  | map ascending _ => exact ascending

/-- A lone scalar within a canonical value is an element of an array. -/
theorem Canonical.exists_array_of_literal {v : Value} {key : Option String} {s : Scalar}
    (h : Canonical v) (hpart : PartOf (.object (.scalar key s)) v) :
    ∃ items, PartOf (.array items) v ∧ Object.scalar key s ∈ items := by
  induction hpart with
  | self => cases h
  | member hmem _ ih =>
    cases h with
    | map ascending values =>
      obtain ⟨items, hitems, ho⟩ := ih (values _ hmem)
      exact ⟨items, .member hmem hitems, ho⟩
  | @element items p hmem hpart ih =>
    have hp := canonical_array_iff.mp h p hmem
    cases p with
    | scalar key' s' =>
      cases partOf_literal_iff.mp hpart
      exact ⟨items, .self _, hmem⟩
    | map members =>
      obtain ⟨within, hwithin, ho⟩ := ih hp
      exact ⟨within, .element hmem hwithin, ho⟩

/-- An array that is folded stays canonical: its scalars become members. -/
theorem canonical_fold {items : List Object} (h : Canonical (.array items)) :
    Canonical (.object (Items.fold items)) := by
  apply Canonical.map (Members.ascending_ofList _)
  intro member hmem
  obtain ⟨o, ho, heq⟩ := Items.exists_of_mem_indexed (Members.mem_ofList hmem)
  have hcanonical := canonical_array_iff.mp h o ho
  rw [heq]
  cases o with
  | scalar key s =>
    obtain ⟨rfl, hs⟩ := hcanonical
    exact .scalar hs
  | map members => exact hcanonical

end LenientJson
