import LenientJson.Proofs.FreshMerge
import LenientJson.Proofs.Values.Lookup

/-!
# Merging all or nothing

An object that is read into is changed member by member, in whatever order the members that were
read are visited. Yet a merge has its whole effect or none, and the order does not show: when
reading fails nothing has been done, and otherwise each key that was read has its new value and
every other key the value it had.
-/
namespace LenientJson

/-- Reads into the object that is the state. What has been done before a fault stays done. -/
def Object.mergeInPlace (visit : List (String × Value) → List (String × Value)) (text : List Char)
    (options : Options) : EStateM Error Object Unit := do
  unless text.all Text.isWhiteSpace do
    match ← MonadExcept.ofExcept (Object.parse text options) with
    | .map members => forM (visit members) fun member => modifyThe Object (·.put member.1 member.2)
    | literal => set literal

def Items.mergeInPlace (text : List Char) (options : Options) :
    EStateM Error (List Object) Unit := do
  forM (← MonadExcept.ofExcept (Items.parse text options)) fun o =>
    modifyThe (List Object) (· ++ [o])

/-- What a merge leaves behind: the merged value, or the one before if there is none. -/
def settle {α : Type} (before : α) : Except Error α → EStateM.Result Error α Unit
  | .ok after => .ok () after
  | .error e => .error e before

def stateBehind {ε σ α : Type} : EStateM.Result ε σ α → σ
  | .ok _ s | .error _ s => s

/-- An order in which members may be visited. -/
def Reorders (visit : List (String × Value) → List (String × Value)) : Prop :=
  ∀ members, List.Perm members (visit members)

/-- The ways in which a merge into an object ends. -/
inductive MergeEnds (o : Object) (text : List Char) (options : Options) :
    EStateM.Result Error Object Unit → Prop
  | white (h : text.all Text.isWhiteSpace = true) : MergeEnds o text options (.ok () o)
  | failed {e : Error} (h : text.all Text.isWhiteSpace = false)
      (read : Object.parse text options = .error e) : MergeEnds o text options (.error e o)
  | literal {key : Option String} {s : Scalar} (h : text.all Text.isWhiteSpace = false)
      (read : Object.parse text options = .ok (.scalar key s)) :
      MergeEnds o text options (.ok () (.scalar key s))
  | empty (h : text.all Text.isWhiteSpace = false)
      (read : Object.parse text options = .ok (.map [])) : MergeEnds o text options (.ok () o)
  | members {members all : List (String × Value)} (h : text.all Text.isWhiteSpace = false)
      (read : Object.parse text options = .ok (.map members)) (nonempty : members ≠ [])
      (ascending : Members.Ascending all)
      (values : ∀ key, Members.get? key all =
        (Members.get? key members).or (Members.get? key o.toMembers)) :
      MergeEnds o text options (.ok () (.map all))

section Run

variable {ε σ α β : Type} {s t : σ}

theorem run_bind_ok {x : EStateM ε σ α} {a : α} (f : α → EStateM ε σ β)
    (h : x.run s = .ok a t) : (x >>= f).run s = (f a).run t := by
  change EStateM.bind x f s = _
  rw [EStateM.bind, show x s = _ from h]
  rfl

/-- A list of changes is made from left to right. -/
theorem run_forM_modify (l : List α) (f : α → σ → σ) (s : σ) :
    (forM l fun a => (modifyThe σ (f a) : EStateM ε σ PUnit)).run s =
      .ok () (l.foldl (fun s a => f a s) s) := by
  induction l generalizing s with
  | nil => rfl
  | cons a l ih =>
    rw [List.forM_cons, List.foldl_cons, ← ih]
    exact run_bind_ok _ rfl

end Run

section Merge

variable {o : Object} {text : List Char} {options : Options}
  {visit : List (String × Value) → List (String × Value)}

namespace Object

def absorb (o : Object) : Object → Object
  | .map members => o.putAll members
  | literal => literal

theorem merge_of_read (o : Object) (h : text.all Text.isWhiteSpace = false) :
    o.merge text options = (Object.parse text options).map o.absorb := by
  rw [merge, h]
  rfl

theorem putAll_of_ne_nil {members : List (String × Value)} (o : Object) (h : members ≠ []) :
    o.putAll members = .map (Members.insertAll members o.toMembers) := by
  cases members with
  | nil => exact absurd rfl h
  | cons member rest => exact putAll_map rest (Members.insert member.1 member.2 o.toMembers)

theorem putAll_visit {members : List (String × Value)} (order : members.Perm (visit members))
    (distinct : (members.map Prod.fst).Nodup) (ordered : Members.Ascending o.toMembers) :
    o.putAll (visit members) = o.putAll members := by
  by_cases h : members = []
  · subst h
    rw [List.nil_perm.mp order]
  · have hvisited : visit members ≠ [] := fun hnil => h (List.perm_nil.mp (hnil ▸ order))
    rw [putAll_of_ne_nil o hvisited, putAll_of_ne_nil o h,
      Members.insertAll_of_perm distinct order ordered]

/-- A merge in place comes out as the merge that gives a new object. -/
theorem run_mergeInPlace (order : Reorders visit) (ordered : Members.Ascending o.toMembers) :
    (mergeInPlace visit text options).run o = settle o (o.merge text options) := by
  cases hwhite : text.all Text.isWhiteSpace with
  | true =>
    rw [mergeInPlace, merge_of_whiteSpace o options hwhite, hwhite]
    rfl
  | false =>
    rw [mergeInPlace, merge_of_read o hwhite, hwhite]
    cases hread : Object.parse text options with
    | error e => rfl
    | ok parsed =>
      cases parsed with
      | scalar key s => rfl
      | map members =>
        have hdistinct := (Reader.ascending_of_parse hread).nodup_keys
        calc (forM (visit members) fun member =>
                (modifyThe Object (·.put member.1 member.2) : EStateM Error Object PUnit)).run o
            = .ok () (o.putAll (visit members)) := run_forM_modify (visit members) _ o
          _ = .ok () (o.putAll members) := by rw [putAll_visit (order members) hdistinct ordered]

theorem absorb_absorb {parsed : Object} (h : Object.parse text options = .ok parsed)
    (ordered : Members.Ascending o.toMembers) :
    (o.absorb parsed).absorb parsed = o.absorb parsed := by
  cases parsed with
  | scalar key s => rfl
  | map members =>
    by_cases hempty : members = []
    · subst hempty
      rfl
    · have hdistinct := (Reader.ascending_of_parse h).nodup_keys
      change (o.putAll members).putAll members = o.putAll members
      rw [putAll_of_ne_nil o hempty, putAll_map,
        Members.insertAll_insertAll hdistinct ordered]

/-- What a text has been merged into does not change when it is merged again. -/
theorem merge_merge {after : Object} (ordered : Members.Ascending o.toMembers)
    (h : o.merge text options = .ok after) : after.merge text options = .ok after := by
  cases hwhite : text.all Text.isWhiteSpace with
  | true => exact merge_of_whiteSpace after options hwhite
  | false =>
    rw [merge_of_read _ hwhite] at h ⊢
    cases hread : Object.parse text options with
    | error e => rw [hread] at h; cases h
    | ok parsed =>
      rw [hread] at h
      obtain rfl : o.absorb parsed = after := Except.ok.inj h
      exact congrArg Except.ok (absorb_absorb hread ordered)

end Object

theorem mergeEnds_settle (ordered : Members.Ascending o.toMembers) :
    MergeEnds o text options (settle o (o.merge text options)) := by
  cases hwhite : text.all Text.isWhiteSpace with
  | true =>
    rw [Object.merge_of_whiteSpace o options hwhite]
    exact .white hwhite
  | false =>
    rw [o.merge_of_read hwhite]
    cases hread : Object.parse text options with
    | error e => exact .failed hwhite hread
    | ok parsed =>
      cases parsed with
      | scalar key s => exact .literal hwhite hread
      | map members =>
        by_cases hempty : members = []
        · subst hempty
          exact .empty hwhite hread
        · have hdistinct := (Reader.ascending_of_parse hread).nodup_keys
          have hends : MergeEnds o text options
              (.ok () (.map (Members.insertAll members o.toMembers))) :=
            .members hwhite hread hempty (Members.ascending_insertAll members ordered)
              (Members.get?_insertAll hdistinct)
          rwa [← o.putAll_of_ne_nil hempty] at hends

/-- A merge keeps members in key order. -/
theorem MergeEnds.ascending {ending : EStateM.Result Error Object Unit}
    (h : MergeEnds o text options ending) (ordered : Members.Ascending o.toMembers) :
    Members.Ascending (stateBehind ending).toMembers := by
  cases h with
  | white => exact ordered
  | failed => exact ordered
  | @literal key s =>
    cases key with
    | none => exact .nil
    | some key => exact List.pairwise_singleton _ _
  | empty => exact ordered
  | members _ _ _ ascending => exact ascending

theorem stateBehind_settle_settle (ordered : Members.Ascending o.toMembers) :
    stateBehind (settle (stateBehind (settle o (o.merge text options)))
        ((stateBehind (settle o (o.merge text options))).merge text options)) =
      stateBehind (settle o (o.merge text options)) := by
  cases hmerge : o.merge text options with
  | error e =>
    change stateBehind (settle o (o.merge text options)) = o
    rw [hmerge]
    rfl
  | ok after =>
    change stateBehind (settle after (after.merge text options)) = after
    rw [Object.merge_merge ordered hmerge]
    rfl

theorem Items.run_mergeInPlace (items : List Object) : (mergeInPlace text options).run items =
    settle items (Items.merge items text options) := by
  rw [mergeInPlace, Items.merge]
  cases Items.parse text options with
  | error e => rfl
  | ok more =>
    calc (forM more fun o =>
            (modifyThe (List Object) (· ++ [o]) : EStateM Error (List Object) PUnit)).run items
        = .ok () (more.foldl (fun items o => items ++ [o]) items) := run_forM_modify more _ items
      _ = .ok () (items ++ more) := by
        rw [List.foldl_append_eq_append, ← List.flatMap_def, List.flatMap_singleton']

end Merge

/-- A merge into an object ends in one of the ways, whatever the order in which members are
visited, and when the same text is merged again the object stays as it is. A merge into an array
appends what is read, or else nothing. -/
theorem merge_atomic (text : List Char) (options : Options) :
    (∀ visit again : List (String × Value) → List (String × Value),
      Reorders visit → Reorders again → ∀ o : Object, Members.Ascending o.toMembers →
        (Object.mergeInPlace visit text options).run o = settle o (o.merge text options) ∧
        MergeEnds o text options ((Object.mergeInPlace visit text options).run o) ∧
        stateBehind ((Object.mergeInPlace again text options).run
            (stateBehind ((Object.mergeInPlace visit text options).run o))) =
          stateBehind ((Object.mergeInPlace visit text options).run o)) ∧
    ∀ items : List Object,
      (Items.mergeInPlace text options).run items =
        settle items (Items.merge items text options) ∧
      (∀ more, Items.parse text options = .ok more →
        (Items.mergeInPlace text options).run items = .ok () (items ++ more)) ∧
      ∀ e, Items.parse text options = .error e →
        (Items.mergeInPlace text options).run items = .error e items := by
  constructor
  · intro visit again order orderAgain o ordered
    have hends : MergeEnds o text options (settle o (o.merge text options)) :=
      mergeEnds_settle ordered
    rw [Object.run_mergeInPlace order ordered,
      Object.run_mergeInPlace orderAgain (hends.ascending ordered)]
    exact ⟨rfl, hends, stateBehind_settle_settle ordered⟩
  · intro items
    have hrun : (Items.mergeInPlace text options).run items =
        settle items (Items.merge items text options) := Items.run_mergeInPlace items
    refine ⟨hrun, fun more h => ?_, fun e h => ?_⟩
    · rw [hrun, Items.merge, h]
      rfl
    · rw [hrun, Items.merge, h]
      rfl

def mergedText : List Char := "\x7bk:null,a:true\x7d".toList

theorem merge_atomic_keyedScalar :
    (Reorders List.reverse ∧ Reorders id ∧
      Members.Ascending (Object.scalar (some "j") (.integer 1)).toMembers) ∧
    (Object.mergeInPlace List.reverse mergedText ⟨.legacy, some 1⟩).run
        (.scalar (some "j") (.integer 1)) =
      .ok () (.map [("a", .scalar (.boolean true)), ("j", .scalar (.integer 1)),
        ("k", .scalar .null)]) ∧
    MergeEnds (.scalar (some "j") (.integer 1)) mergedText ⟨.legacy, some 1⟩
      (.ok () (.map [("a", .scalar (.boolean true)), ("j", .scalar (.integer 1)),
        ("k", .scalar .null)])) := by
  have reversed : Reorders List.reverse := fun members => members.reverse_perm.symm
  have kept : Reorders id := fun members => .refl members
  have ordered : Members.Ascending (Object.scalar (some "j") (.integer 1)).toMembers :=
    List.pairwise_singleton _ _
  obtain ⟨hrun, hends, -⟩ :=
    (merge_atomic mergedText ⟨.legacy, some 1⟩).1 List.reverse id reversed kept _ ordered
  have hmerge : (Object.scalar (some "j") (.integer 1)).merge mergedText ⟨.legacy, some 1⟩ =
      .ok (.map [("a", .scalar (.boolean true)), ("j", .scalar (.integer 1)),
        ("k", .scalar .null)]) := by cbv
  rw [hmerge, settle] at hrun
  rw [hrun] at hends
  exact ⟨⟨reversed, kept, ordered⟩, hrun, hends⟩

end LenientJson
