import LenientJson.Object
import LenientJson.Proofs.Values.Lookup
import Mathlib.Data.Finmap

/-!
# Objects as finite maps

Objects are put into, read, changed and counted in any order. A map answers and changes as a finite
map does. A scalar answers as if it held nothing until the first `put` makes a map of it, which
starts from the scalar if it has a key.
-/
namespace LenientJson

abbrev MemberMap := Finmap fun _ : String => Value

inductive Access where
  | get (key : String)
  /-- The value of a key is changed where it is. -/
  | modify (key : String) (f : Value → Value)
  | remove (key : String)
  | contains (key : String)
  | size

inductive Operation where
  | put (key : String) (value : Value)
  | access (step : Access)

inductive Answer where
  /-- The value that the key had, if any. -/
  | found (value : Option Value)
  | truth (value : Bool)
  | count (value : Nat)

namespace Object

def takeMembers : StateM Object (List (String × Value)) := do
  let o ← get
  set Object.empty
  return o.toMembers

/-- Stores a value; what is not a map is emptied and becomes the map of what was taken out. -/
def putInPlace (key : String) (value : Value) : StateM Object (Option Value) := do
  if let .map members ← get then
    set (Object.map (Members.insert key value members))
    return Members.get? key members
  let members ← takeMembers
  set (Object.map (Members.insert key value members))
  return Members.get? key members

/-- Members that are moved out and back are where they were. -/
theorem putInPlace_eq (o : Object) (key : String) (value : Value) :
    putInPlace key value o = (o.replaced? key, o.put key value) := by
  cases o with
  | scalar name value => rfl
  | map members => rfl

/-- The finite map that an object stands for. -/
def contents : Object → MemberMap
  | .scalar (some key) value => .singleton key (.scalar value)
  | .scalar none _ => ∅
  | .map members => List.toFinmap (members.map fun member => ⟨member.1, member.2⟩)

end Object

def Access.onObject : Access → StateM Object Answer
  | .get key => fun o => (.found (o.get? key), o)
  | .modify key f => fun o => (.found (o.get? key), o.modify key f)
  | .remove key => fun o => (.found (o.get? key), o.erase key)
  | .contains key => fun o => (.truth (o.contains key), o)
  | .size => fun o => (.count o.size, o)

def Access.onMap : Access → StateM MemberMap Answer
  | .get key => fun map => (.found (map.lookup key), map)
  | .modify key f => fun map =>
    (.found (map.lookup key), (map.lookup key).elim map fun value => map.insert key (f value))
  | .remove key => fun map => (.found (map.lookup key), map.erase key)
  | .contains key => fun map => (.truth (decide (key ∈ map)), map)
  | .size => fun map => (.count map.keys.card, map)

def Access.onScalar : Access → Answer
  | .get _ | .modify _ _ | .remove _ => .found none
  | .contains _ => .truth false
  | .size => .count 1

def Operation.onObject : Operation → StateM Object Answer
  | .put key value => .found <$> Object.putInPlace key value
  | .access step => step.onObject

def Operation.onMap : Operation → StateM MemberMap Answer
  | .put key value => fun map => (.found (map.lookup key), map.insert key value)
  | .access step => step.onMap

def Operation.changes? : Operation → Option String
  | .put key _ | .access (.modify key _) | .access (.remove key) => some key
  | .access _ => none

/-- The answers to operations one after the other, each of which finds what the last one left. -/
def runAll {σ : Type} (step : Operation → StateM σ Answer) (operations : List Operation) :
    StateM σ (List Answer) :=
  operations.mapM step

structure FollowsMap (map : MemberMap) (operations : List Operation)
    (outcome : List Answer × Object) : Prop where
  answers : outcome.1 = (runAll Operation.onMap operations map).1
  isMap : outcome.2.isMap = true
  contents : outcome.2.contents = (runAll Operation.onMap operations map).2
  untouched : ∀ key, (∀ operation ∈ operations, operation.changes? ≠ some key) →
    outcome.2.contents.lookup key = map.lookup key

/-- How an object behaves under any operations one after the other. -/
structure BehavesAsMap (o : Object) : Prop where
  put : ∀ key value, ∃ behind,
    runAll Operation.onObject [.put key value] o = ([.found (o.contents.lookup key)], behind) ∧
      behind.isMap = true ∧ behind.contents = o.contents.insert key value
  ofMap : o.isMap = true → ∀ operations,
    FollowsMap o.contents operations (runAll Operation.onObject operations o)
  ofScalar : o.isScalar = true → ∀ accesses : List Access,
    runAll Operation.onObject (accesses.map .access) o = (accesses.map Access.onScalar, o)
  fromPut : o.isScalar = true → ∀ (accesses : List Access) key value operations, ∃ later behind,
    runAll Operation.onObject (accesses.map .access ++ .put key value :: operations) o =
        (accesses.map Access.onScalar ++ .found (o.contents.lookup key) :: later, behind) ∧
      FollowsMap (o.contents.insert key value) operations (later, behind)

section Runs

variable {σ : Type} (step : Operation → StateM σ Answer)

theorem runAll_cons (operation : Operation) (operations : List Operation) (state : σ) :
    runAll step (operation :: operations) state =
      ((step operation state).1 :: (runAll step operations (step operation state).2).1,
        (runAll step operations (step operation state).2).2) := by
  rw [runAll, List.mapM_cons]
  rfl

theorem runAll_append (front back : List Operation) (state : σ) :
    runAll step (front ++ back) state =
      ((runAll step front state).1 ++ (runAll step back (runAll step front state).2).1,
        (runAll step back (runAll step front state).2).2) := by
  rw [runAll, List.mapM_append]
  rfl

end Runs

namespace MemberMap

theorem lookup_onMap {operation : Operation} {key : String} (map : MemberMap)
    (h : operation.changes? ≠ some key) :
    (operation.onMap map).2.lookup key = map.lookup key := by
  match operation with
  | .put name value =>
    have hne : key ≠ name := fun hname => h (congrArg some hname.symm)
    exact Finmap.lookup_insert_of_ne map hne
  | .access (.modify name f) =>
    have hne : key ≠ name := fun hname => h (congrArg some hname.symm)
    change ((map.lookup name).elim map fun value => map.insert name (f value)).lookup key = _
    cases map.lookup name with
    | none => rfl
    | some value => exact Finmap.lookup_insert_of_ne map hne
  | .access (.remove name) =>
    have hne : key ≠ name := fun hname => h (congrArg some hname.symm)
    exact Finmap.lookup_erase_ne hne
  | .access (.get _) | .access (.contains _) | .access .size => rfl

/-- A key that no operation changes has its value to the end. -/
theorem lookup_runAll {operations : List Operation} {key : String} (map : MemberMap)
    (h : ∀ operation ∈ operations, operation.changes? ≠ some key) :
    (runAll Operation.onMap operations map).2.lookup key = map.lookup key := by
  induction operations generalizing map with
  | nil => rfl
  | cons operation operations ih =>
    rw [List.forall_mem_cons] at h
    rw [runAll_cons, ih _ h.2, lookup_onMap map h.1]

end MemberMap

namespace Object

section Contents

variable {o : Object}

theorem dlookup_members (key : String) (members : List (String × Value)) :
    List.dlookup key (members.map fun member => (⟨member.1, member.2⟩ : Σ _, Value)) =
      Members.get? key members := by
  induction members with
  | nil => rfl
  | cons member members ih =>
    obtain ⟨name, value⟩ := member
    rw [List.map_cons, Members.get?]
    by_cases h : name = key
    · subst h
      rw [if_pos rfl, List.dlookup_cons_eq]
    · have hne : key ≠ (⟨name, value⟩ : Σ _ : String, Value).1 := Ne.symm h
      rw [if_neg h, List.dlookup_cons_ne _ _ hne, ih]

/-- A key has in the finite map what a `put` of the key would replace. -/
theorem lookup_contents (o : Object) (key : String) :
    o.contents.lookup key = o.replaced? key := by
  match o with
  | .scalar none _ => rfl
  | .scalar (some name) value =>
    by_cases h : name = key
    · subst h
      simp [contents, replaced?, toMembers, Members.get?]
    · have habsent : key ∉ Finmap.singleton (β := fun _ => Value) name (.scalar value) := by
        simpa using Ne.symm h
      rw [contents, Finmap.lookup_eq_none.mpr habsent]
      simp [replaced?, toMembers, Members.get?, h]
  | .map members =>
    rw [contents, Finmap.dlookup_list_toFinmap, dlookup_members]
    rfl

theorem get?_eq_lookup (h : o.isMap = true) (key : String) :
    o.get? key = o.contents.lookup key := by
  cases o with
  | scalar name value => cases h
  | map members => exact (lookup_contents (.map members) key).symm

theorem contains_eq_decide_mem (h : o.isMap = true) (key : String) :
    o.contains key = decide (key ∈ o.contents) := by
  rw [contains, get?_eq_lookup h, Bool.eq_iff_iff, decide_eq_true_iff, Finmap.lookup_isSome]

/-- Keys that ascend are counted once each. -/
theorem size_eq_card (h : o.isMap = true) (ordered : Members.Ascending o.toMembers) :
    o.size = o.contents.keys.card := by
  cases o with
  | scalar name value => cases h
  | map members =>
    have hnodup : (members.map Prod.fst).Nodup := Members.Ascending.nodup_keys ordered
    have hkeys : (contents (.map members)).keys = (members.map Prod.fst).toFinset := by
      ext key
      rw [Finmap.mem_keys, ← Finmap.lookup_isSome, lookup_contents, List.mem_toFinset]
      exact Members.isSome_get?_iff
    rw [hkeys, List.toFinset_card_of_nodup hnodup, List.length_map, size]

theorem contents_put (o : Object) (key : String) (value : Value) :
    (o.put key value).contents = o.contents.insert key value := by
  apply Finmap.ext_lookup
  intro name
  rw [← get?_eq_lookup (isMap_put o key value), get?_put]
  by_cases h : key = name
  · rw [if_pos h, h, Finmap.lookup_insert]
  · rw [if_neg h, Finmap.lookup_insert_of_ne _ (Ne.symm h), lookup_contents]

theorem isMap_erase (h : o.isMap = true) (key : String) : (o.erase key).isMap = true := by
  cases o with
  | scalar name value => cases h
  | map members => rfl

theorem contents_erase (h : o.isMap = true) (key : String) :
    (o.erase key).contents = o.contents.erase key := by
  apply Finmap.ext_lookup
  intro name
  rw [← get?_eq_lookup (isMap_erase h key), get?_erase]
  by_cases hname : key = name
  · rw [if_pos hname, hname, Finmap.lookup_erase]
  · rw [if_neg hname, Finmap.lookup_erase_ne (Ne.symm hname), get?_eq_lookup h]

end Contents

section Steps

variable {o : Object} {map : MemberMap}

structure Represents (o : Object) (map : MemberMap) : Prop where
  isMap : o.isMap = true
  ordered : Members.Ascending o.toMembers
  contents : o.contents = map

theorem represents_put (ordered : Members.Ascending o.toMembers) (key : String) (value : Value) :
    Represents (o.put key value) (o.contents.insert key value) where
  isMap := isMap_put o key value
  ordered := Members.ascending_insert key value ordered
  contents := contents_put o key value

theorem onObject_put (o : Object) (key : String) (value : Value) :
    (Operation.put key value).onObject o = (.found (o.replaced? key), o.put key value) := by
  have hmap : (Operation.put key value).onObject o =
      StateT.map Answer.found (putInPlace key value) o := rfl
  rw [hmap, StateT.map, putInPlace_eq]
  rfl

namespace Represents

theorem get? (h : Represents o map) (key : String) : o.get? key = map.lookup key := by
  rw [get?_eq_lookup h.isMap, h.contents]

theorem put (h : Represents o map) (key : String) (value : Value) :
    Represents (o.put key value) (map.insert key value) := by
  have hput := represents_put h.ordered key value
  rwa [h.contents] at hput

theorem erase (h : Represents o map) (key : String) :
    Represents (o.erase key) (map.erase key) where
  isMap := isMap_erase h.isMap key
  ordered := by
    obtain ⟨hmap, ordered, -⟩ := h
    cases o with
    | scalar name value => cases hmap
    | map members => exact Members.ascending_erase key ordered
  contents := by rw [contents_erase h.isMap, h.contents]

theorem modify (h : Represents o map) (key : String) (f : Value → Value) :
    Represents (o.modify key f)
      ((map.lookup key).elim map fun value => map.insert key (f value)) := by
  rw [Object.modify, h.get?]
  cases map.lookup key with
  | none => exact h
  | some value => exact h.put key (f value)

/-- A map answers an access as its contents do, which stay alike. -/
theorem access (h : Represents o map) (step : Access) :
    (step.onObject o).1 = (step.onMap map).1 ∧
      Represents (step.onObject o).2 (step.onMap map).2 := by
  cases step with
  | get key => exact ⟨congrArg Answer.found (h.get? key), h⟩
  | modify key f => exact ⟨congrArg Answer.found (h.get? key), h.modify key f⟩
  | remove key => exact ⟨congrArg Answer.found (h.get? key), h.erase key⟩
  | contains key =>
    refine ⟨congrArg Answer.truth ?_, h⟩
    rw [contains_eq_decide_mem h.isMap, h.contents]
  | size =>
    refine ⟨congrArg Answer.count ?_, h⟩
    rw [size_eq_card h.isMap h.ordered, h.contents]

theorem operation (h : Represents o map) (operation : Operation) :
    (operation.onObject o).1 = (operation.onMap map).1 ∧
      Represents (operation.onObject o).2 (operation.onMap map).2 := by
  cases operation with
  | access step => exact h.access step
  | put key value =>
    rw [onObject_put, ← lookup_contents, h.contents]
    exact ⟨rfl, h.put key value⟩

end Represents

end Steps

section Outcomes

variable {o : Object} {map : MemberMap}

theorem runAll_put (o : Object) (key : String) (value : Value) (operations : List Operation) :
    runAll Operation.onObject (.put key value :: operations) o =
      (.found (o.contents.lookup key) ::
          (runAll Operation.onObject operations (o.put key value)).1,
        (runAll Operation.onObject operations (o.put key value)).2) := by
  rw [runAll_cons, onObject_put, lookup_contents]

theorem Represents.outcome (h : Represents o map) (operations : List Operation) :
    (runAll Operation.onObject operations o).1 = (runAll Operation.onMap operations map).1 ∧
      Represents (runAll Operation.onObject operations o).2
        (runAll Operation.onMap operations map).2 := by
  induction operations generalizing o map with
  | nil => exact ⟨rfl, h⟩
  | cons operation operations ih =>
    obtain ⟨hanswer, hnext⟩ := h.operation operation
    obtain ⟨hanswers, hbehind⟩ := ih hnext
    rw [runAll_cons, runAll_cons]
    exact ⟨congrArg₂ List.cons hanswer hanswers, hbehind⟩

/-- A scalar answers every access alike and stays what it is. -/
theorem onObject_scalar (h : o.isScalar = true) (step : Access) :
    step.onObject o = (step.onScalar, o) := by
  cases o with
  | map members => cases h
  | scalar name value => cases step <;> rfl

theorem runAll_scalar (h : o.isScalar = true) (accesses : List Access) :
    runAll Operation.onObject (accesses.map .access) o = (accesses.map Access.onScalar, o) := by
  induction accesses with
  | nil => rfl
  | cons step accesses ih =>
    have hstep : (Operation.access step).onObject o = (step.onScalar, o) := onObject_scalar h step
    rw [List.map_cons, List.map_cons, runAll_cons, hstep, ih]

end Outcomes

end Object

theorem Object.Represents.followsMap {o : Object} {map : MemberMap} (h : Represents o map)
    (operations : List Operation) :
    FollowsMap map operations (runAll Operation.onObject operations o) := by
  obtain ⟨hanswers, hbehind⟩ := h.outcome operations
  refine ⟨hanswers, hbehind.isMap, hbehind.contents, fun key hkey => ?_⟩
  rw [hbehind.contents, MemberMap.lookup_runAll map hkey]

/-- From its first `put` on, and a map from the start, an object is one finite map, whatever is done
to it. Until then a scalar counts as one, holds nothing under any key and does not change. -/
theorem behavesAsMap (o : Object) (ordered : Members.Ascending o.toMembers) :
    BehavesAsMap o where
  put key value := by
    refine ⟨o.put key value, ?_, o.isMap_put key value, o.contents_put key value⟩
    rw [Object.runAll_put]
    rfl
  ofMap h operations := by
    have hsame : o.Represents o.contents := ⟨h, ordered, rfl⟩
    exact hsame.followsMap operations
  ofScalar h accesses := Object.runAll_scalar h accesses
  fromPut h accesses key value operations := by
    refine ⟨_, _, ?_, (Object.represents_put ordered key value).followsMap operations⟩
    rw [runAll_append, Object.runAll_scalar h, Object.runAll_put]
    rfl

def keyedNumber : Object := .scalar (some "id") (.integer 7)

theorem behavesAsMap_keyedNumber :
    Members.Ascending keyedNumber.toMembers ∧ ∃ behind,
      runAll Operation.onObject [.access (.get "id"), .access .size, .put "b" (.scalar .null),
          .put "id" (.scalar (.boolean true)), .access (.remove "b"), .access (.contains "b"),
          .access .size] keyedNumber =
        ([.found none, .count 1, .found none, .found (some (.scalar (.integer 7))),
          .found (some (.scalar .null)), .truth false, .count 1], behind) ∧
      behind.contents.lookup "id" = some (.scalar (.boolean true)) := by
  have ordered : Members.Ascending keyedNumber.toMembers := List.pairwise_singleton _ _
  obtain ⟨later, behind, hrun, hfollows⟩ := (behavesAsMap keyedNumber ordered).fromPut rfl
    [.get "id", .size] "b" (.scalar .null) [.put "id" (.scalar (.boolean true)),
      .access (.remove "b"), .access (.contains "b"), .access .size]
  obtain rfl : later = [.found (some (.scalar (.integer 7))), .found (some (.scalar .null)),
    .truth false, .count 1] := hfollows.answers
  refine ⟨ordered, behind, hrun, ?_⟩
  rw [hfollows.contents]
  rfl

end LenientJson
