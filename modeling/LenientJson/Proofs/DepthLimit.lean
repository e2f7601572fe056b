import LenientJson.Proofs.Reading.Documents
import LenientJson.Proofs.Reading.Levels

/-!
# The limit of nesting

A limit does nothing but refuse. A document is read under it as it would be read without one, or
is refused for its depth; a higher limit changes nothing about what a lower one reads; and what is
read nests no deeper than the limit.
-/
namespace LenientJson

/-- A limit of nesting that is exact for the reader of one text: `outcome` gives what is read
under each limit, and `depth` measures the values. -/
structure ExactLimit {α : Type} (text : List Char) (depth : α → Nat)
    (outcome : Option Nat → Except Error α) : Prop where
  unlimited : ∀ limit location, outcome none ≠ .error (.depthLimit limit location)
  agrees : ∀ m, outcome (some m) = outcome none ∨
    ∃ location, outcome (some m) = .error (.depthLimit m location)
  monotone : ∀ m m', m ≤ m' →
    (∀ limit location, outcome (some m) ≠ .error (.depthLimit limit location)) →
      outcome (some m') = outcome (some m)
  bound : ∀ m value, text.all Text.isBlank = false → outcome (some m) = .ok value → depth value ≤ m

namespace Reader

variable {α : Type} {text : List Char}

theorem Refused.depthLimit {limit : Nat} {x : Except Fault α} (h : Refused limit x)
    (text : List Char) :
    ∃ location, x.mapError (Error.ofFault text) = .error (.depthLimit limit location) := by
  obtain ⟨offset, rfl⟩ := h
  exact ⟨_, rfl⟩

theorem ofFault_ne_depthLimit {fault : Fault} (h : IsMalformed fault) (limit : Nat)
    (location : Option Location) : Error.ofFault text fault ≠ .depthLimit limit location := by
  obtain ⟨malformation, hcause⟩ := h
  simp [Error.ofFault, hcause]

/-- The faults of a reader of documents are enough to know about its limit. -/
theorem exactLimit_of_results {depth : α → Nat} {result : Option Nat → Except Fault α}
    (levels : Option Nat → Nat) (hlevels : ∀ m, levels (some m) = m)
    (refines : ∀ a b, levels a ≤ levels b → RefusedOr (levels a) (result a) (result b))
    (unlimited : Outcome (fun _ => True) IsMalformed (result none))
    (bound : text.all Text.isBlank = false → ∀ limit,
      Outcome (fun value => depth value ≤ levels limit) (fun _ => True) (result limit)) :
    ExactLimit text depth fun limit => (result limit).mapError (Error.ofFault text) := by
  have hnone (limit : Nat) (location : Option Location) :
      (result none).mapError (Error.ofFault text) ≠ .error (.depthLimit limit location) := by
    cases hresult : result none with
    | ok value => exact fun h => by cases h
    | error fault =>
      rw [hresult] at unlimited
      intro h
      exact ofFault_ne_depthLimit unlimited limit location (Except.error.inj h)
  constructor
  case unlimited => exact hnone
  case agrees =>
    intro m
    rcases le_total (levels (some m)) (levels none) with h | h
    · rcases refines _ _ h with hrefused | heq
      · rw [hlevels] at hrefused
        exact .inr (hrefused.depthLimit text)
      · exact .inl (congrArg _ heq)
    · rcases refines _ _ h with hrefused | heq
      · obtain ⟨location, hlocation⟩ := hrefused.depthLimit text
        exact absurd hlocation (hnone _ _)
      · exact .inl (congrArg _ heq.symm)
  case monotone =>
    intro m m' hm h
    have hle : levels (some m) ≤ levels (some m') := by rw [hlevels, hlevels]; exact hm
    rcases refines _ _ hle with hrefused | heq
    · obtain ⟨location, hlocation⟩ := hrefused.depthLimit text
      exact absurd hlocation (h _ _)
    · exact congrArg _ heq.symm
  case bound =>
    intro m value hblank h
    have hbound := bound hblank (some m)
    cases hresult : result (some m) with
    | error fault => rw [hresult] at h; cases h
    | ok value' =>
      rw [hresult] at h hbound
      obtain rfl : value' = value := Except.ok.inj h
      rw [hlevels] at hbound
      exact hbound

variable {mode : ScanMode}

theorem refusedOr_readObject (text : List Char) {a b : Option Nat}
    (h : levels ⟨mode, a⟩ text ≤ levels ⟨mode, b⟩ text) :
    RefusedOr (levels ⟨mode, a⟩ text) (readObject ⟨mode, a⟩ text).result
      (readObject ⟨mode, b⟩ text).result := by
  cases hs : (Span.ofText text).trim.chars with
  | nil =>
    rw [readObject_nil hs, readObject_nil hs]
    exact .inr rfl
  | cons c cs =>
    cases ha : levels ⟨mode, a⟩ text with
    | zero => exact .inl ⟨_, readObject_result_zero hs ha⟩
    | succ below =>
      obtain ⟨below', hb⟩ : ∃ below', levels ⟨mode, b⟩ text = below' + 1 :=
        Nat.exists_eq_add_one_of_ne_zero (by omega)
      rw [readObject_result_cons hs ha, readObject_result_cons hs hb]
      rw [ha, hb] at h
      split
      · exact .inr rfl
      · split
        · exact RefusedOr.bind (.inr rfl) fun part => (Level.refines_ofDepth h).object part
        · exact .inr rfl

theorem refusedOr_readArray (text : List Char) {a b : Option Nat}
    (h : levels ⟨mode, a⟩ text ≤ levels ⟨mode, b⟩ text) :
    RefusedOr (levels ⟨mode, a⟩ text) (readArray ⟨mode, a⟩ text).result
      (readArray ⟨mode, b⟩ text).result := by
  cases hs : (Span.ofText text).trim.chars with
  | nil =>
    rw [readArray_nil hs, readArray_nil hs]
    exact .inr rfl
  | cons c cs =>
    cases ha : levels ⟨mode, a⟩ text with
    | zero => exact .inl ⟨_, readArray_result_zero hs ha⟩
    | succ below =>
      obtain ⟨below', hb⟩ : ∃ below', levels ⟨mode, b⟩ text = below' + 1 :=
        Nat.exists_eq_add_one_of_ne_zero (by omega)
      rw [readArray_result_cons hs ha, readArray_result_cons hs hb]
      rw [ha, hb] at h
      split
      · exact RefusedOr.bind (.inr rfl) fun part => (Level.refines_ofDepth h).array part
      · split
        · exact RefusedOr.items fun part _ =>
            (Level.refines_ofDepth (Nat.le_of_succ_le_succ h)).object part
        · exact .inr rfl

/-- Without a limit nothing is refused: a part has fewer characters than there are levels. -/
theorem outcome_readObject_unlimited (mode : ScanMode) (text : List Char) :
    Outcome (fun _ => True) IsMalformed (readObject ⟨mode, none⟩ text).result := by
  cases objectRead ⟨mode, none⟩ text with
  | blank _ eq => rw [eq]; trivial
  | refused _ level _ => cases level
  | lone _ _ eq => rw [eq]; trivial
  | malformed fault form eq => rw [eq]; exact form
  | part part _ shorter eq =>
    rw [eq]
    exact ((Level.suffices_ofDepth _).object part (Nat.lt_succ_of_lt shorter)).mono
      (fun _ _ => trivial) fun _ h => h

theorem outcome_readArray_unlimited (mode : ScanMode) (text : List Char) :
    Outcome (fun _ => True) IsMalformed (readArray ⟨mode, none⟩ text).result := by
  cases arrayRead ⟨mode, none⟩ text with
  | blank _ eq => rw [eq]; trivial
  | refused _ level _ => cases level
  | malformed fault form eq => rw [eq]; exact form
  | part part shorter eq =>
    rw [eq]
    exact ((Level.suffices_ofDepth _).array part (Nat.lt_succ_of_lt shorter)).mono
      (fun _ _ => trivial) fun _ h => h
  | stream below level eq =>
    obtain rfl : text.length = below := Nat.succ.inj level
    have hshorter : ∀ part ∈ (outlineStream mode (Span.ofText text).trim).items,
        part.inside.length < text.length :=
      invariant_takeStreamed.items (length_trim_ofText_le text)
    rw [eq]
    exact (Reading.outcome_items (fun part hpart =>
      (Level.suffices_ofDepth _).object part (hshorter part hpart))
        fun _ => isMalformed_outlineStream).mono (fun _ _ => trivial) fun _ h => h

theorem depth_readObject (mode : ScanMode) {text : List Char}
    (hblank : text.all Text.isBlank = false) (limit : Option Nat) :
    Outcome (fun o => o.depth ≤ levels ⟨mode, limit⟩ text) (fun _ => True)
      (readObject ⟨mode, limit⟩ text).result := by
  cases objectRead ⟨mode, limit⟩ text with
  | blank blanks _ => rw [hblank] at blanks; cases blanks
  | refused _ _ eq => rw [eq]; trivial
  | lone _ level eq => rw [eq]; exact level
  | malformed _ _ eq => rw [eq]; trivial
  | part part level _ eq =>
    rw [eq]
    exact ((Level.nesting_ofDepth _).object part trivial).mono (fun o ho => max_le ho.1 level)
      fun _ h => h

theorem depth_readArray (mode : ScanMode) {text : List Char}
    (hblank : text.all Text.isBlank = false) (limit : Option Nat) :
    Outcome (fun items => Items.depth items ≤ levels ⟨mode, limit⟩ text) (fun _ => True)
      (readArray ⟨mode, limit⟩ text).result := by
  cases arrayRead ⟨mode, limit⟩ text with
  | blank blanks _ => rw [hblank] at blanks; cases blanks
  | refused _ _ eq => rw [eq]; trivial
  | malformed _ _ eq => rw [eq]; trivial
  | part part _ eq =>
    rw [eq]
    exact ((Level.nesting_ofDepth _).array part trivial).mono (fun _ hitems => hitems.1)
      fun _ h => h
  | stream below level eq =>
    rw [eq, level]
    exact (Reading.outcome_items (fun part _ => (Level.nesting_ofDepth below).object part trivial)
      fun _ _ => trivial).mono (fun items hitems => Value.nesting_array_le_iff.mpr fun o ho =>
        (hitems o ho).1) fun _ h => h

end Reader

/-- The limit of nesting is exact for objects and for arrays, in both modes and for every text. -/
theorem exactLimit_parse (mode : ScanMode) (text : List Char) :
    ExactLimit text Object.depth (fun limit => Object.parse text ⟨mode, limit⟩) ∧
      ExactLimit text Items.depth (fun limit => Items.parse text ⟨mode, limit⟩) := by
  constructor
  · exact Reader.exactLimit_of_results (fun limit => Reader.levels ⟨mode, limit⟩ text)
      (fun _ => rfl) (fun _ _ => Reader.refusedOr_readObject text)
      (Reader.outcome_readObject_unlimited mode text) (Reader.depth_readObject mode)
  · exact Reader.exactLimit_of_results (fun limit => Reader.levels ⟨mode, limit⟩ text)
      (fun _ => rfl) (fun _ _ => Reader.refusedOr_readArray text)
      (Reader.outcome_readArray_unlimited mode text) (Reader.depth_readArray mode)

example : Items.parse "[[1]]".toList ⟨.legacy, some 1⟩ =
    .error (.depthLimit 1 (some ⟨1, 1, 2⟩)) := by cbv

example : Items.parse "[[1]]".toList ⟨.legacy, some 2⟩ =
    .ok [.map [("0", .scalar (.integer 1))]] := by cbv

end LenientJson
