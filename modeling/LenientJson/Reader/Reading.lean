import LenientJson.Notice
import LenientJson.Reader.Outline

/-!
# Readings

A reading is the outcome of a part of the work: the notices made on the way, and a result or the
fault that ended it. Notices made before a fault are kept.
-/
namespace LenientJson.Reader

structure Reading (α : Type) where
  notices : List Notice := []
  result : Except Fault α

namespace Reading

variable {α β γ : Type}

def ok (value : α) : Reading α := { result := .ok value }

def fail (fault : Fault) : Reading α := { result := .error fault }

def ofExcept (result : Except Fault α) : Reading α := { result := result }

/-- A value with notices about it. -/
def noted (notices : List Notice) (value : α) : Reading α := ⟨notices, .ok value⟩

def bind (x : Reading α) (f : α → Reading β) : Reading β :=
  match x.result with
  | .ok value => ⟨x.notices ++ (f value).notices, (f value).result⟩
  | .error fault => ⟨x.notices, .error fault⟩

instance : Monad Reading where
  pure := ok
  bind := bind

theorem result_bind (x : Reading α) (f : α → Reading β) :
    (x >>= f).result = x.result >>= fun value => (f value).result := by
  change (x.bind f).result = x.result.bind _
  cases h : x.result <;> simp [bind, h, Except.bind]

instance : LawfulMonad Reading := LawfulMonad.mk' Reading
  (by
    intro α x
    obtain ⟨notices, result⟩ := x
    cases result <;> simp [Functor.map, bind, ok])
  (by
    intro α β value f
    simp [Bind.bind, Pure.pure, bind, ok])
  (by
    intro α β γ x f g
    obtain ⟨notices, result⟩ := x
    cases result with
    | error fault => rfl
    | ok value => cases h : (f value).result <;> simp [Bind.bind, bind, h])

/-- Reads the items of an outline in order; its own fault comes behind those of the items. -/
def items : Outline α → (α → Reading β) → Reading (List β)
  | ⟨items, fault⟩, read => do
    let values ← items.mapM read
    match fault with
    | none => return values
    | some fault => fail fault

end Reading

end LenientJson.Reader
