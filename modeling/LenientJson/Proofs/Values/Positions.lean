import LenientJson.Indexed
import LenientJson.Proofs.Values.Lookup

/-!
# Positions as keys

The keys of a folded array are the numerals of its positions, no two of which are the same. So the
element at a position is what is found under its key, and as many keys as an object has members
are its keys and no others.
-/
namespace LenientJson

theorem indexKey_injective : Function.Injective indexKey := by
  intro i j h
  have hdigits : Digits.ofNat i = Digits.ofNat j := String.ofList_injective h
  rw [← Digits.value_ofNat i, hdigits, Digits.value_ofNat]

def positionKeys (n : Nat) : List String := (List.range n).map indexKey

theorem mem_positionKeys_iff {n : Nat} {key : String} :
    key ∈ positionKeys n ↔ ∃ i < n, key = indexKey i := by
  simp [positionKeys, eq_comm]

theorem nodup_positionKeys (n : Nat) : (positionKeys n).Nodup :=
  List.nodup_range.map indexKey_injective

/-- Keys among which are those of all positions up to their number are these and no others. -/
theorem forall_mem_iff_positions {keys : List String} :
    (∀ i < keys.length, indexKey i ∈ keys) ↔
      ∀ key, key ∈ keys ↔ ∃ i < keys.length, key = indexKey i := by
  constructor
  · intro h key
    have hsubset : positionKeys keys.length ⊆ keys := by
      intro key hkey
      obtain ⟨i, hi, rfl⟩ := mem_positionKeys_iff.mp hkey
      exact h i hi
    have hperm : (positionKeys keys.length).Perm keys :=
      ((nodup_positionKeys _).subperm hsubset).perm_of_length_le (by simp [positionKeys])
    rw [← hperm.mem_iff, mem_positionKeys_iff]
  · intro h i hi
    exact (h _).mpr ⟨i, hi, rfl⟩

namespace Items

theorem keys_indexed (first : Nat) (items : List Object) :
    (indexed first items).map Prod.fst = (List.range' first items.length).map indexKey := by
  induction items generalizing first with
  | nil => rfl
  | cons o rest ih => simp [indexed, List.range'_succ, ih]

theorem distinct_indexed (items : List Object) : ((indexed 0 items).map Prod.fst).Nodup := by
  rw [keys_indexed, ← List.range_eq_range']
  exact nodup_positionKeys items.length

theorem get?_indexed (first i : Nat) (items : List Object) :
    Members.get? (indexKey (first + i)) (indexed first items) = items[i]?.map Object.toMember := by
  induction items generalizing first i with
  | nil => rfl
  | cons o rest ih =>
    cases i with
    | zero => simp [indexed, Members.get?]
    | succ i =>
      have hne : indexKey first ≠ indexKey (first + (i + 1)) := fun h => by
        have := indexKey_injective h
        omega
      have hshift : first + (i + 1) = first + 1 + i := by omega
      rw [indexed, Members.get?, if_neg hne, hshift, ih]
      rfl

def foldedMembers (items : List Object) : List (String × Value) := Members.ofList (indexed 0 items)

theorem fold_eq (items : List Object) : fold items = .map (foldedMembers items) := rfl

theorem ascending_foldedMembers (items : List Object) :
    Members.Ascending (foldedMembers items) := Members.ascending_ofList _

theorem get?_foldedMembers (i : Nat) (items : List Object) :
    Members.get? (indexKey i) (foldedMembers items) = items[i]?.map Object.toMember := by
  rw [foldedMembers, Members.get?_ofList (distinct_indexed items), ← get?_indexed 0, Nat.zero_add]

theorem perm_foldedMembers (items : List Object) :
    (foldedMembers items).Perm (indexed 0 items) := by
  have hdistinct : ((indexed 0 items ++ []).map Prod.fst).Nodup := by
    rw [List.append_nil]
    exact distinct_indexed items
  have hperm := Members.perm_insertAll hdistinct
  rwa [List.append_nil] at hperm

theorem keys_foldedMembers (items : List Object) :
    ((foldedMembers items).map Prod.fst).Perm (positionKeys items.length) := by
  have hkeys := (perm_foldedMembers items).map Prod.fst
  rwa [keys_indexed, ← List.range_eq_range'] at hkeys

theorem length_foldedMembers (items : List Object) :
    (foldedMembers items).length = items.length := by
  have hlength := (keys_foldedMembers items).length_eq
  simpa [positionKeys] using hlength

end Items

end LenientJson
