import LenientJson.Proofs.Values.Positions

/-!
# Folding and turning back

A folded array is turned back into itself. An object can be turned back exactly if it is a map
whose keys are the positions up to its size, and folding the array again gives the object itself
exactly if folding could have given its members.
-/
namespace LenientJson

/-- A member that folding gives: no array, and no object that holds a scalar without a key. -/
def Value.isFolded : Value → Bool
  | .array _ => false
  | .object (.scalar none _) => false
  | _ => true

def Value.refolded (v : Value) : Value := v.toElement.toMember

/-- What an array is like into which an object is turned back. -/
structure TurnedBack (o : Object) (items : List Object) : Prop where
  length : items.length = o.size
  fold_eq_iff : Items.fold items = o ↔ ∀ member ∈ o.members, member.2.isFolded = true
  /-- Where folding does not give the object again, it does not give an equal one either. -/
  fold_differs : (∃ member ∈ o.members, member.2.isFolded = false) →
    (Items.fold items).same o = false

section Option

variable {α β : Type} {f : α → Option β} {l : List α} {l' : List β}

theorem mapM_eq_some_iff : l.mapM f = some l' ↔ List.Forall₂ (fun a b => f a = some b) l l' := by
  induction l generalizing l' with
  | nil => simp [eq_comm]
  | cons a l ih =>
    rw [List.mapM_cons, List.forall₂_cons_left_iff]
    simp only [Option.bind_eq_bind, Option.bind_eq_some_iff, ih, Option.pure_def,
      Option.some.injEq]
    constructor
    · rintro ⟨b, hb, rest, hrest, rfl⟩
      exact ⟨b, rest, hb, hrest, rfl⟩
    · rintro ⟨b, rest, hb, hrest, rfl⟩
      exact ⟨b, hb, rest, hrest, rfl⟩

theorem isSome_mapM_iff : (l.mapM f).isSome = true ↔ ∀ a ∈ l, (f a).isSome = true := by
  induction l with
  | nil => simp
  | cons a l ih =>
    rw [List.mapM_cons, List.forall_mem_cons, ← ih]
    cases f a <;> cases l.mapM f <;> simp

end Option

theorem Object.toElement_toMember (o : Object) : o.toMember.toElement = o := by
  obtain ⟨_ | key, s⟩ | members := o <;> rfl

namespace Value

theorem refolded_eq_self_iff {v : Value} : v.refolded = v ↔ v.isFolded = true := by
  cases v with
  | scalar s => simp [refolded, toElement, Object.toMember, isFolded]
  | object o =>
    obtain ⟨_ | key, s⟩ | members := o <;> simp [refolded, toElement, Object.toMember, isFolded]
  | array items => simp [refolded, toElement, Object.toMember, Items.fold, isFolded]

theorem same_refolded {v : Value} (h : v.isFolded = false) : v.refolded.same v = false := by
  cases v with
  | scalar s => cases h
  | object o =>
    obtain ⟨_ | key, s⟩ | members := o
    · simp [refolded, toElement, Object.toMember, same]
    · cases h
    · cases h
  | array items => simp [refolded, toElement, Object.toMember, Items.fold, same]

end Value

def refoldedMembers (members : List (String × Value)) : List (String × Value) :=
  members.map fun member => (member.1, member.2.refolded)

theorem refoldedMembers_eq_self_iff {members : List (String × Value)} :
    refoldedMembers members = members ↔ ∀ member ∈ members, member.2.isFolded = true := by
  induction members with
  | nil => simp [refoldedMembers]
  | cons first rest ih =>
    obtain ⟨key, v⟩ := first
    rw [List.forall_mem_cons, ← ih, ← Value.refolded_eq_self_iff]
    simp [refoldedMembers]

theorem sameMembers_refoldedMembers {members : List (String × Value)} {member : String × Value}
    (hmem : member ∈ members) (h : member.2.isFolded = false) :
    sameMembers (refoldedMembers members) members = false := by
  induction members with
  | nil => cases hmem
  | cons first rest ih =>
    rw [refoldedMembers, List.map_cons, sameMembers]
    rcases List.mem_cons.mp hmem with rfl | hmem
    · rw [Value.same_refolded h, Bool.and_false, Bool.false_and]
    · rw [← refoldedMembers, ih hmem, Bool.and_false]

namespace Object

variable {members : List (String × Value)} {items : List Object}

/-- The element at a position is the member under its key. -/
theorem toItems?_map_eq_some_iff : (Object.map members).toItems? = some items ↔
    members.length = items.length ∧ ∀ i (h : i < items.length),
      (Members.get? (indexKey i) members).map Value.toElement = some items[i] := by
  change (positions members).mapM _ = some items ↔ _
  rw [positions, List.mapM_map, mapM_eq_some_iff, List.forall₂_iff_get]
  simp only [List.length_range, List.get_eq_getElem, List.getElem_range, Function.comp_apply]
  constructor
  · rintro ⟨hlength, hitems⟩
    exact ⟨hlength, fun i h => hitems i (hlength ▸ h) h⟩
  · rintro ⟨hlength, hitems⟩
    exact ⟨hlength, fun i _ h => hitems i h⟩

theorem isSome_toItems?_map : (Object.map members).toItems?.isSome = true ↔
    ∀ i < members.length, indexKey i ∈ members.map Prod.fst := by
  change Option.isSome ((positions members).mapM _) = true ↔ _
  rw [positions, List.mapM_map, isSome_mapM_iff]
  simp [Members.isSome_get?_iff]

theorem toItems?_scalar (key : Option String) (s : Scalar) :
    (Object.scalar key s).toItems? = none := rfl

/-- A folded array is turned back into itself. -/
theorem toItems?_fold (items : List Object) : (Items.fold items).toItems? = some items := by
  rw [Items.fold_eq, toItems?_map_eq_some_iff]
  refine ⟨Items.length_foldedMembers items, fun i hi => ?_⟩
  rw [Items.get?_foldedMembers, List.getElem?_eq_getElem hi, Option.map_some, Option.map_some,
    toElement_toMember]

/-- An object can be turned back exactly if its keys are the positions up to its size. -/
theorem exists_toItems?_iff (o : Object) : (∃ items, o.toItems? = some items) ↔
    o.isMap = true ∧ ∀ key, key ∈ o.keys ↔ ∃ i < o.size, key = indexKey i := by
  rw [← Option.isSome_iff_exists]
  cases o with
  | scalar key s => simp [toItems?_scalar, isMap, isScalar]
  | map members =>
    have hlength : members.length = (members.map Prod.fst).length := by rw [List.length_map]
    have hsize : (Object.map members).size = (members.map Prod.fst).length := hlength
    have hkeys : (Object.map members).keys = members.map Prod.fst := rfl
    rw [isSome_toItems?_map, hsize, hkeys, hlength, forall_mem_iff_positions]
    simp [isMap, isScalar]

theorem get?_of_toItems? (h : (Object.map members).toItems? = some items) (key : String) :
    Members.get? key (Items.foldedMembers items) =
      (Members.get? key members).map Value.refolded := by
  obtain ⟨-, hkeys⟩ := (exists_toItems?_iff (.map members)).mp ⟨items, h⟩
  obtain ⟨hlength, hitems⟩ := toItems?_map_eq_some_iff.mp h
  by_cases hkey : ∃ i < items.length, key = indexKey i
  · obtain ⟨i, hi, rfl⟩ := hkey
    rw [Items.get?_foldedMembers, List.getElem?_eq_getElem hi, ← hitems i hi, Option.map_map]
    rfl
  · have hmembers : Members.get? key members = none :=
      Members.get?_eq_none_iff.mpr fun hmem => hkey (hlength ▸ (hkeys key).mp hmem)
    have hfolded : Members.get? key (Items.foldedMembers items) = none := by
      rw [Members.get?_eq_none_iff, (Items.keys_foldedMembers items).mem_iff,
        mem_positionKeys_iff]
      exact hkey
    rw [hmembers, hfolded, Option.map_none]

theorem fold_of_toItems? (ascending : Members.Ascending members)
    (h : (Object.map members).toItems? = some items) :
    Items.fold items = .map (refoldedMembers members) := by
  have hmapped : Members.Ascending (refoldedMembers members) :=
    ascending.map _ fun _ _ hlt => hlt
  rw [Items.fold_eq]
  congr 1
  apply (Items.ascending_foldedMembers items).ext hmapped
  intro key
  rw [get?_of_toItems? h, refoldedMembers, Members.get?_map Value.refolded]

theorem turnedBack_of_toItems? {o : Object} (ascending : Members.Ascending o.members)
    (h : o.toItems? = some items) : TurnedBack o items := by
  cases o with
  | scalar key s => cases h
  | map members =>
    have hfold : Items.fold items = .map (refoldedMembers members) :=
      fold_of_toItems? ascending h
    constructor
    case length => exact (toItems?_map_eq_some_iff.mp h).1.symm
    case fold_eq_iff =>
      rw [hfold, Object.map.injEq]
      exact refoldedMembers_eq_self_iff
    case fold_differs =>
      rintro ⟨member, hmem, hplain⟩
      rw [hfold, same]
      exact sameMembers_refoldedMembers hmem hplain

end Object

/-- Every array comes back from its folded form. An object can be turned back exactly if it is a map
whose keys are the numerals below its size, and folding gives it again exactly if it has no member
that folding never gives. Folding a second time gives what the first time gave. -/
theorem fold_turnedBack :
    (∀ items : List Object, (Items.fold items).toItems? = some items) ∧
    (∀ o : Object, Members.Ascending o.members →
      ((∃ items, o.toItems? = some items) ↔
        o.isMap = true ∧ ∀ key, key ∈ o.keys ↔ ∃ i < o.size, key = toString i) ∧
      ∀ items, o.toItems? = some items → TurnedBack o items) ∧
    ∀ items : List Object,
      (Items.fold items).toItems?.map Items.fold = some (Items.fold items) := by
  refine ⟨Object.toItems?_fold, fun o ascending => ⟨?_, ?_⟩, fun items => ?_⟩
  · exact o.exists_toItems?_iff
  · intro items h
    exact Object.turnedBack_of_toItems? ascending h
  · rw [Object.toItems?_fold, Option.map_some]

def positionedObject : Object :=
  .map [("0", .array [.scalar none (.integer 1)]), ("1", .object (.scalar (some "k") .null)),
    ("2", .scalar (.boolean true))]

def positionedItems : List Object :=
  [.map [("0", .scalar (.integer 1))], .scalar (some "k") .null, .scalar none (.boolean true)]

theorem fold_turnedBack_positionedObject :
    Members.Ascending positionedObject.members ∧
      positionedObject.toItems? = some positionedItems ∧
      TurnedBack positionedObject positionedItems ∧
      (Items.fold positionedItems).same positionedObject = false := by
  have ascending : Members.Ascending positionedObject.members := by
    unfold Members.Ascending
    decide
  have hitems : positionedObject.toItems? = some positionedItems := by rfl
  have hback : TurnedBack positionedObject positionedItems :=
    (fold_turnedBack.2.1 positionedObject ascending).2 positionedItems hitems
  exact ⟨ascending, hitems, hback, hback.fold_differs ⟨_, List.mem_cons_self, rfl⟩⟩

/-- A numeral with a leading zero is no position. -/
example : (Object.map [("0", .scalar .null), ("01", .scalar .null)]).toItems? = none := by rfl

end LenientJson
