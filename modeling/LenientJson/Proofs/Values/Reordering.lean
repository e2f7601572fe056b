import LenientJson.Proofs.Values.Normal

/-!
# Members in another order

A map may be listed in any order of its members. Listing it again in key order gives one list,
whatever the order was.
-/
namespace LenientJson

namespace Members

variable {α : Type}

theorem perm_insert {key : String} {value : α} {entries : List (String × α)}
    (h : key ∉ entries.map Prod.fst) :
    (insert key value entries).Perm ((key, value) :: entries) := by
  induction entries with
  | nil => exact .refl _
  | cons first rest ih =>
    obtain ⟨name, v⟩ := first
    rw [List.map_cons, List.mem_cons, not_or] at h
    rw [insert]
    split
    · exact .refl _
    · rw [if_neg h.1]
      exact ((ih h.2).cons (name, v)).trans (.swap _ _ _)

theorem perm_insertAll {entries onto : List (String × α)}
    (h : ((entries ++ onto).map Prod.fst).Nodup) :
    (insertAll entries onto).Perm (entries ++ onto) := by
  induction entries generalizing onto with
  | nil => exact .refl _
  | cons first rest ih =>
    rw [List.cons_append, List.map_cons, List.nodup_cons] at h
    have honto : (insert first.1 first.2 onto).Perm (first :: onto) := by
      apply perm_insert
      intro hmem
      apply h.1
      rw [List.map_append, List.mem_append]
      exact .inr hmem
    have hall : (rest ++ insert first.1 first.2 onto).Perm (first :: (rest ++ onto)) :=
      (honto.append_left rest).trans List.perm_middle
    refine (ih ?_).trans hall
    rw [(hall.map Prod.fst).nodup_iff, List.map_cons, List.nodup_cons]
    exact h

theorem Ascending.nodup_keys {entries : List (String × α)} (h : Ascending entries) :
    (entries.map Prod.fst).Nodup := by
  unfold List.Nodup
  rw [List.pairwise_map]
  exact List.Pairwise.imp (fun hlt => String.ne_of_lt hlt) h

/-- Entries in ascending key order are what any list of the same entries is made into. -/
theorem ofList_of_perm {entries listed : List (String × α)} (h : Ascending entries)
    (hperm : entries.Perm listed) : ofList listed = entries := by
  have hnodup : ((listed ++ []).map Prod.fst).Nodup := by
    rw [List.append_nil, ← (hperm.map Prod.fst).nodup_iff]
    exact h.nodup_keys
  have hlisted := perm_insertAll hnodup
  rw [List.append_nil] at hlisted
  refine List.Perm.eq_of_pairwise ?_ (ascending_ofList listed) h (hlisted.trans hperm.symm)
  intro a b _ _ hab hba
  exact absurd hba (String.lt_asymm hab)

end Members

section Forall₂

variable {α β : Type} {R S : α → β → Prop} {l : List α} {l' : List β}

theorem forall₂_imp_of_mem (h : List.Forall₂ R l l')
    (himp : ∀ a b, a ∈ l → b ∈ l' → R a b → S a b) : List.Forall₂ S l l' := by
  induction h with
  | nil => exact .nil
  | cons hab _ ih =>
    exact .cons (himp _ _ List.mem_cons_self List.mem_cons_self hab)
      (ih fun a b ha hb => himp a b (List.mem_cons_of_mem _ ha) (List.mem_cons_of_mem _ hb))

theorem exists_of_mem_right (h : List.Forall₂ R l l') {b : β} (hb : b ∈ l') :
    ∃ a ∈ l, R a b := by
  induction h with
  | nil => cases hb
  | cons hab _ ih =>
    rcases List.mem_cons.mp hb with rfl | hb
    · exact ⟨_, List.mem_cons_self, hab⟩
    · obtain ⟨a, ha, hab⟩ := ih hb
      exact ⟨a, List.mem_cons_of_mem _ ha, hab⟩

end Forall₂

mutual

/-- A value with the members of its maps listed in some other order. -/
inductive Value.Reordered : Value → Value → Prop
  | scalar (s : Scalar) : Value.Reordered (.scalar s) (.scalar s)
  | object {o p : Object} (h : Object.Reordered o p) : Value.Reordered (.object o) (.object p)
  | array {items listed : List Object} (h : List.Forall₂ Object.Reordered items listed) :
      Value.Reordered (.array items) (.array listed)

inductive Object.Reordered : Object → Object → Prop
  | scalar (key : Option String) (s : Scalar) : Object.Reordered (.scalar key s) (.scalar key s)
  | map {members moved listed : List (String × Value)} (order : members.Perm moved)
      (h : List.Forall₂ MemberReordered moved listed) :
      Object.Reordered (.map members) (.map listed)

inductive MemberReordered : String × Value → String × Value → Prop
  | mk {key : String} {v w : Value} (h : Value.Reordered v w) : MemberReordered (key, v) (key, w)

end

/-- Members may be left in their order. -/
theorem Value.reordered_self (v : Value) : v.Reordered v := by
  induction v using Value.induction with
  | scalar s => exact .scalar s
  | literal key s => exact .object (.scalar key s)
  | map members ih =>
    exact .object (.map (.refl _) (List.forall₂_same.mpr fun member hmem => ⟨ih member hmem⟩))
  | array items ih =>
    refine .array (List.forall₂_same.mpr fun o hmem => ?_)
    cases ih o hmem with
    | object h => exact h

/-- The members of a map may be taken in any order. -/
theorem Object.reordered_of_perm {members listed : List (String × Value)}
    (order : members.Perm listed) : (Object.map members).Reordered (.map listed) :=
  .map order (List.forall₂_same.mpr fun member _ => ⟨member.2.reordered_self⟩)

theorem Members.ascending_normalMembers {members : List (String × Value)} (h : Ascending members) :
    Ascending (normalMembers members) := by
  rw [normalMembers_eq_map]
  exact h.map _ fun _ _ hlt => hlt

end LenientJson
