/-!
# Members in key order

A map from names to values is the list of its entries in strictly ascending key order, so that
equal maps are equal lists. Keys are ordered by code point, which is also the order of their
UTF-8 bytes. Every operation keeps the order, and `get?` is the view through which each is known.
-/
namespace LenientJson.Members

variable {α : Type}

def Ascending (entries : List (String × α)) : Prop := entries.Pairwise fun a b => a.1 < b.1

def get? (key : String) : List (String × α) → Option α
  | [] => none
  | (k, v) :: rest => if k = key then some v else get? key rest

/-- Stores a value; an earlier value of the key is lost. -/
def insert (key : String) (value : α) : List (String × α) → List (String × α)
  | [] => [(key, value)]
  | (k, v) :: rest =>
    if key < k then (key, value) :: (k, v) :: rest
    else if key = k then (key, value) :: rest
    else (k, v) :: insert key value rest

def erase (key : String) (entries : List (String × α)) : List (String × α) :=
  entries.filter fun entry => entry.1 != key

/-- Stores entries from left to right, so the last value of a key wins. -/
def insertAll (entries onto : List (String × α)) : List (String × α) :=
  entries.foldl (fun map entry => insert entry.1 entry.2 map) onto

def ofList (entries : List (String × α)) : List (String × α) := insertAll entries []

theorem get?_insert (key k : String) (value : α) (entries : List (String × α)) :
    get? k (insert key value entries) = if key = k then some value else get? k entries := by
  induction entries with
  | nil => simp [insert, get?]
  | cons entry rest ih =>
    obtain ⟨name, v⟩ := entry
    by_cases hlt : key < name
    · simp [insert, hlt, get?]
    · by_cases heq : key = name
      · subst heq
        by_cases hk : key = k <;> simp [insert, get?, hk]
      · by_cases hk : name = k
        · subst hk
          simp [insert, hlt, heq, get?]
        · simp [insert, hlt, heq, get?, hk, ih]

theorem mem_insert {key : String} {value : α} {entries : List (String × α)}
    {entry : String × α} (h : entry ∈ insert key value entries) :
    entry = (key, value) ∨ entry ∈ entries := by
  induction entries with
  | nil => simpa [insert] using h
  | cons first rest ih =>
    obtain ⟨name, v⟩ := first
    simp only [insert] at h
    split at h
    · simpa using h
    · split at h
      · rcases List.mem_cons.mp h with rfl | h
        · exact .inl rfl
        · exact .inr (List.mem_cons_of_mem _ h)
      · rcases List.mem_cons.mp h with rfl | h
        · exact .inr List.mem_cons_self
        · exact (ih h).imp_right (List.mem_cons_of_mem _)

theorem ascending_insert {entries : List (String × α)} (key : String) (value : α)
    (h : Ascending entries) : Ascending (insert key value entries) := by
  induction entries with
  | nil => simp [insert, Ascending]
  | cons first rest ih =>
    obtain ⟨name, v⟩ := first
    obtain ⟨hfirst, hrest⟩ := List.pairwise_cons.mp h
    simp only [insert]
    split
    next hlt =>
      refine List.pairwise_cons.mpr ⟨fun entry he => ?_, h⟩
      rcases List.mem_cons.mp he with rfl | he
      · exact hlt
      · exact String.lt_trans hlt (hfirst entry he)
    next hlt =>
      split
      next heq => exact List.pairwise_cons.mpr ⟨heq ▸ hfirst, hrest⟩
      next hne =>
        refine List.pairwise_cons.mpr ⟨fun entry he => ?_, ih hrest⟩
        rcases mem_insert he with rfl | he
        · exact Std.lt_of_le_of_ne (Std.not_lt.mp hlt) (Ne.symm hne)
        · exact hfirst entry he

theorem ascending_erase {entries : List (String × α)} (key : String) (h : Ascending entries) :
    Ascending (erase key entries) := h.filter _

theorem ascending_insertAll (entries : List (String × α)) {onto : List (String × α)}
    (h : Ascending onto) : Ascending (insertAll entries onto) := by
  induction entries generalizing onto with
  | nil => exact h
  | cons entry rest ih => exact ih (ascending_insert entry.1 entry.2 h)

theorem ascending_ofList (entries : List (String × α)) : Ascending (ofList entries) :=
  ascending_insertAll entries .nil

theorem get?_erase (key k : String) (entries : List (String × α)) :
    get? k (erase key entries) = if key = k then none else get? k entries := by
  induction entries with
  | nil => simp [erase, get?]
  | cons entry rest ih =>
    obtain ⟨name, v⟩ := entry
    unfold erase at ih ⊢
    by_cases hn : name = key
    · subst hn
      by_cases hk : name = k <;> simp_all [get?]
    · by_cases hk : name = k
      · subst hk
        simp [hn, get?, Ne.symm hn]
      · simp [hn, get?, hk, ih]

end LenientJson.Members
