import LenientJson.Proofs.Values.Reordering

/-!
# Maps by look-up

A list of entries with distinct keys is known by what is found in it, whatever its order, and two
lists in key order in which the same is found are the same list.
-/
namespace LenientJson.Members

variable {α : Type} {entries listed onto : List (String × α)} {key : String} {value : α}

theorem isSome_get?_iff : (get? key entries).isSome = true ↔ key ∈ entries.map Prod.fst := by
  induction entries with
  | nil => simp [get?]
  | cons entry rest ih =>
    obtain ⟨name, v⟩ := entry
    by_cases h : name = key
    · simp [get?, h]
    · simp [get?, h, ih, Ne.symm h]

theorem get?_eq_none_iff : get? key entries = none ↔ key ∉ entries.map Prod.fst := by
  rw [← isSome_get?_iff, Option.not_isSome_iff_eq_none]

theorem mem_of_get? (h : get? key entries = some value) : (key, value) ∈ entries := by
  induction entries with
  | nil => cases h
  | cons entry rest ih =>
    obtain ⟨name, v⟩ := entry
    rw [get?] at h
    split at h
    next hname =>
      rw [← hname, ← Option.some.inj h]
      exact List.mem_cons_self
    next => exact List.mem_cons_of_mem _ (ih h)

theorem get?_eq_some_iff (distinct : (entries.map Prod.fst).Nodup) :
    get? key entries = some value ↔ (key, value) ∈ entries := by
  refine ⟨mem_of_get?, fun hmem => ?_⟩
  induction entries with
  | nil => cases hmem
  | cons entry rest ih =>
    rw [List.map_cons, List.nodup_cons] at distinct
    rcases List.mem_cons.mp hmem with rfl | hmem
    · rw [get?, if_pos rfl]
    · have hne : entry.1 ≠ key := fun h => distinct.1 (h ▸ List.mem_map_of_mem hmem)
      rw [get?, if_neg hne]
      exact ih distinct.2 hmem

theorem get?_map {β : Type} (f : α → β) (key : String) (entries : List (String × α)) :
    get? key (entries.map fun entry => (entry.1, f entry.2)) = (get? key entries).map f := by
  induction entries with
  | nil => rfl
  | cons entry rest ih =>
    obtain ⟨name, v⟩ := entry
    by_cases h : name = key
    · simp [get?, h]
    · simp [get?, h, ih]

theorem get?_of_perm (distinct : (entries.map Prod.fst).Nodup) (order : entries.Perm listed) :
    get? key listed = get? key entries := by
  have hlisted : (listed.map Prod.fst).Nodup := (order.map Prod.fst).nodup_iff.mp distinct
  ext value
  rw [get?_eq_some_iff hlisted, get?_eq_some_iff distinct, order.mem_iff]

/-- Each key has its value from the entries, and every other key has the value it had. -/
theorem get?_insertAll (distinct : (entries.map Prod.fst).Nodup) (key : String) :
    get? key (insertAll entries onto) = (get? key entries).or (get? key onto) := by
  induction entries generalizing onto with
  | nil => rfl
  | cons entry rest ih =>
    obtain ⟨name, v⟩ := entry
    rw [List.map_cons, List.nodup_cons] at distinct
    have hrest : get? key (insertAll rest (insert name v onto)) =
        (get? key rest).or (get? key (insert name v onto)) := ih distinct.2
    change get? key (insertAll rest (insert name v onto)) = _
    rw [hrest, get?_insert]
    by_cases h : name = key
    · subst h
      simp [get?, get?_eq_none_iff.mpr distinct.1]
    · simp [get?, h]

theorem get?_ofList (distinct : (entries.map Prod.fst).Nodup) (key : String) :
    get? key (ofList entries) = get? key entries := by
  rw [ofList, get?_insertAll distinct, get?, Option.or_none]

theorem Ascending.ext (h : Ascending entries) (h' : Ascending listed)
    (same : ∀ key, get? key entries = get? key listed) : entries = listed := by
  have hmem (entry : String × α) : entry ∈ entries ↔ entry ∈ listed := by
    obtain ⟨key, value⟩ := entry
    rw [← get?_eq_some_iff h.nodup_keys, ← get?_eq_some_iff h'.nodup_keys, same]
  have horder : entries.Perm listed :=
    (List.perm_ext_iff_of_nodup h.nodup_keys.of_map h'.nodup_keys.of_map).mpr hmem
  refine List.Perm.eq_of_pairwise ?_ h h' horder
  intro a b _ _ hab hba
  exact absurd hba (String.lt_asymm hab)

/-- The order in which entries with distinct keys are stored does not matter. -/
theorem insertAll_of_perm (distinct : (entries.map Prod.fst).Nodup) (order : entries.Perm listed)
    (h : Ascending onto) : insertAll listed onto = insertAll entries onto := by
  have hlisted : (listed.map Prod.fst).Nodup := (order.map Prod.fst).nodup_iff.mp distinct
  apply (ascending_insertAll listed h).ext (ascending_insertAll entries h)
  intro key
  rw [get?_insertAll hlisted, get?_insertAll distinct, get?_of_perm distinct order]

theorem insertAll_insertAll (distinct : (entries.map Prod.fst).Nodup) (h : Ascending onto) :
    insertAll entries (insertAll entries onto) = insertAll entries onto := by
  apply (ascending_insertAll entries (ascending_insertAll entries h)).ext
    (ascending_insertAll entries h)
  intro key
  rw [get?_insertAll distinct, get?_insertAll distinct, ← Option.or_assoc, Option.or_self]

end LenientJson.Members
