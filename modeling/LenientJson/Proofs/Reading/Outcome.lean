import LenientJson.Reader.Level
import Mathlib.Data.List.Forall2

/-!
# Outcomes of readings

The result of a reading is that of its parts, taken in order until one fails. An outcome states
what holds of the value and what holds of the fault, and passes through every way in which
readings are put together.
-/
namespace LenientJson.Reader

variable {α β : Type}

/-- What holds of the value, or else of the fault. -/
def Outcome (value : α → Prop) (fault : Fault → Prop) : Except Fault α → Prop
  | .ok v => value v
  | .error f => fault f

theorem Outcome.mono {P P' : α → Prop} {Q Q' : Fault → Prop} {x : Except Fault α}
    (h : Outcome P Q x) (hP : ∀ v, P v → P' v) (hQ : ∀ f, Q f → Q' f) : Outcome P' Q' x := by
  cases x with
  | ok v => exact hP v h
  | error f => exact hQ f h

theorem Outcome.bind {P : α → Prop} {P' : β → Prop} {Q : Fault → Prop} {x : Except Fault α}
    {f : α → Except Fault β} (h : Outcome P Q x) (hf : ∀ v, P v → Outcome P' Q (f v)) :
    Outcome P' Q (x >>= f) := by
  cases x with
  | ok v => exact hf v h
  | error fault => exact h

theorem Outcome.mapM {P : β → Prop} {Q : Fault → Prop} {f : α → Except Fault β} {l : List α}
    (h : ∀ x ∈ l, Outcome P Q (f x)) : Outcome (fun values => ∀ v ∈ values, P v) Q (l.mapM f) := by
  induction l with
  | nil => exact fun v hv => absurd hv List.not_mem_nil
  | cons x l ih =>
    rw [List.mapM_cons]
    apply (h x List.mem_cons_self).bind
    intro v hv
    apply (ih fun y hy => h y (List.mem_cons_of_mem x hy)).bind
    intro values hvalues
    exact List.forall_mem_cons.mpr ⟨hv, hvalues⟩

theorem Outcome.of_eq_ok {P : α → Prop} {Q : Fault → Prop} {x : Except Fault α} {value : α}
    (hx : Outcome P Q x) (h : x = .ok value) : P value := by
  rw [h] at hx
  exact hx

theorem mapError_eq_ok_iff {ε δ : Type} {f : δ → ε} {x : Except δ α} {value : α} :
    x.mapError f = .ok value ↔ x = .ok value := by
  cases x <;> simp [Except.mapError]

theorem bind_eq_ok_iff {ε : Type} {x : Except ε α} {f : α → Except ε β} {value : β} :
    x >>= f = .ok value ↔ ∃ a, x = .ok a ∧ f a = .ok value := by
  cases x <;> simp [bind, Except.bind]

theorem mapM_eq_ok_iff {f : α → Except Fault β} {l : List α} {values : List β} :
    l.mapM f = .ok values ↔ List.Forall₂ (fun x v => f x = .ok v) l values := by
  induction l generalizing values with
  | nil => simp [pure, Except.pure, eq_comm]
  | cons x l ih =>
    rw [List.mapM_cons, List.forall₂_cons_left_iff]
    simp only [bind_eq_ok_iff, ih, pure, Except.pure, Except.ok.injEq]
    constructor
    · rintro ⟨v, hv, rest, hrest, rfl⟩
      exact ⟨v, rest, hv, hrest, rfl⟩
    · rintro ⟨v, rest, hv, hrest, rfl⟩
      exact ⟨v, hv, rest, hrest, rfl⟩

namespace Reading

theorem result_mapM (read : α → Reading β) (l : List α) :
    (l.mapM read).result = l.mapM fun x => (read x).result := by
  induction l with
  | nil => rfl
  | cons x l ih =>
    rw [List.mapM_cons, List.mapM_cons, result_bind]
    congr 1
    funext v
    rw [result_bind, ih]
    rfl

def unlessFault (fault : Option Fault) (values : List β) : Except Fault (List β) :=
  match fault with
  | none => .ok values
  | some fault => .error fault

/-- The items come first and the fault of the outline behind them. -/
theorem result_items (o : Outline α) (read : α → Reading β) : (items o read).result =
    (o.items.mapM fun x => (read x).result) >>= unlessFault o.fault := by
  obtain ⟨list, fault⟩ := o
  rw [items, result_bind, result_mapM]
  cases fault <;> rfl

/-- All items are read if each of them is and the outline is complete. -/
theorem items_eq_ok_iff {o : Outline α} {read : α → Reading β} {values : List β} :
    (items o read).result = .ok values ↔
      o.fault = none ∧ List.Forall₂ (fun x v => (read x).result = .ok v) o.items values := by
  rw [result_items, bind_eq_ok_iff]
  cases h : o.fault with
  | none => simp [unlessFault, mapM_eq_ok_iff]
  | some fault => simp [unlessFault]

theorem mapM_congr {read read' : α → Reading β} {l : List α} (h : ∀ x ∈ l, read x = read' x) :
    l.mapM read = l.mapM read' := by
  induction l with
  | nil => rfl
  | cons x l ih =>
    rw [List.mapM_cons, List.mapM_cons, h x List.mem_cons_self,
      ih fun y hy => h y (List.mem_cons_of_mem x hy)]

theorem items_congr {o : Outline α} {read read' : α → Reading β}
    (h : ∀ x ∈ o.items, read x = read' x) : items o read = items o read' := by
  obtain ⟨list, fault⟩ := o
  rw [items, items, mapM_congr h]

theorem outcome_items {P : β → Prop} {Q : Fault → Prop} {o : Outline α} {read : α → Reading β}
    (hitems : ∀ x ∈ o.items, Outcome P Q (read x).result)
    (hfault : ∀ fault, o.fault = some fault → Q fault) :
    Outcome (fun values => ∀ v ∈ values, P v) Q (items o read).result := by
  rw [result_items]
  apply (Outcome.mapM hitems).bind
  intro values hvalues
  cases h : o.fault with
  | none => exact hvalues
  | some fault => exact hfault fault h

end Reading

namespace Level

@[simp] theorem result_member_quoted (below : Level) (text : List Char) :
    (member below (.quoted text)).result =
      .ok (.scalar (.string (.ofList (Text.unescape text)))) := rfl

@[simp] theorem result_member_word (below : Level) (text : List Char) :
    (member below (.word text)).result = .ok (.scalar (.ofWord text)) := rfl

@[simp] theorem result_member_curly (below : Level) (part : Enclosed) :
    (member below (.enclosed .curly part)).result =
      (below.object part).result >>= fun o => .ok (.object o) := Reading.result_bind _ _

@[simp] theorem result_member_square (below : Level) (part : Enclosed) :
    (member below (.enclosed .square part)).result =
      (below.array part).result >>= fun items => .ok (.array items) := Reading.result_bind _ _

@[simp] theorem result_element_quoted (below : Level) (text : List Char) :
    (element below (.quoted text)).result = .ok (.scalar none (.string (.ofList text))) := rfl

@[simp] theorem result_element_word (below : Level) (text : List Char) :
    (element below (.word text)).result = .ok (.scalar none (.ofWord text)) := rfl

@[simp] theorem result_element_square (below : Level) (part : Enclosed) :
    (element below (.enclosed .square part)).result =
      (below.array part).result >>= fun items => .ok (Items.fold items) :=
  Reading.result_bind _ _

@[simp] theorem result_namedMember (below : Level) (name : String) (piece : Piece) :
    (namedMember below (name, piece)).result =
      (member below piece).result >>= fun v => .ok (name, v) := Reading.result_bind _ _

theorem result_above_object (mode : ScanMode) (below : Level) (part : Enclosed) :
    ((above mode below).object part).result =
      (Reading.items (outlineMembers mode part.body) below.namedMember).result >>= fun members =>
        .ok (.map (Members.ofList members)) := Reading.result_bind _ _

theorem above_array (mode : ScanMode) (below : Level) (part : Enclosed) :
    (above mode below).array part =
      Reading.items (outlineElements mode part.body) below.element := rfl

end Level

end LenientJson.Reader
