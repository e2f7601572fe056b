import LenientJson.Proofs.Reading.Documents
import LenientJson.Proofs.Reading.Levels
import LenientJson.Proofs.Values.Canonical

/-!
# What is read is canonical

Every level gives canonical values: members are put in key order, words stand for scalars in normal
form, and an array within an array is folded.
-/
namespace LenientJson.Reader

variable {mode : ScanMode} {limit : Nat}

theorem canonicalElement_of_canonical {o : Object} (h : Canonical (.object o)) :
    CanonicalElement o := h.element_of_part (.self _)

theorem Level.canonical_ofDepth (depth : Nat) : (ofDepth mode limit depth).Gives (fun _ => True)
    (fun _ => True) Canonical CanonicalElement := by
  apply gives_ofDepth (V := fun _ => Canonical) (E := fun _ => CanonicalElement)
  case scalars =>
    exact fun _ => ⟨fun _ => ⟨.scalar rfl, rfl, rfl⟩,
      fun text => ⟨.scalar (Scalar.normal_ofWord text), rfl, Scalar.normal_ofWord text⟩⟩
  case map =>
    intro _ members hmembers
    have hmap : Canonical (.object (.map (Members.ofList members))) :=
      .map (Members.ascending_ofList _) fun member hmem =>
        hmembers member (Members.mem_ofList hmem)
    exact ⟨hmap, hmap⟩
  case array =>
    intro _ items hitems
    have harray := canonical_array_iff.mpr hitems
    exact ⟨harray, canonicalElement_of_canonical (canonical_fold harray)⟩

/-- What an object is read as: a lone string, or a canonical map. -/
def CanonicalDocument (o : Object) : Prop :=
  (∃ text, o = .scalar none (.string text)) ∨ Canonical (.object o)

theorem canonical_readObject (options : Options) (text : List Char) :
    Outcome CanonicalDocument (fun _ => True) (readObject options text).result := by
  cases objectRead options text with
  | blank _ eq => rw [eq]; exact .inr (.map .nil (by simp))
  | refused _ _ eq => rw [eq]; trivial
  | lone string _ eq => rw [eq]; exact .inl ⟨string, rfl⟩
  | malformed _ _ eq => rw [eq]; trivial
  | part part _ _ eq =>
    rw [eq]
    exact ((Level.canonical_ofDepth _).object part trivial).mono (fun _ ho => .inr ho.1)
      fun _ h => h

theorem canonical_readArray (options : Options) (text : List Char) :
    Outcome (fun items => Canonical (.array items)) (fun _ => True)
      (readArray options text).result := by
  cases arrayRead options text with
  | blank _ eq => rw [eq]; exact canonical_array_iff.mpr (by simp)
  | refused _ _ eq => rw [eq]; trivial
  | malformed _ _ eq => rw [eq]; trivial
  | part part _ eq =>
    rw [eq]
    exact ((Level.canonical_ofDepth _).array part trivial).mono (fun _ hitems => hitems.1)
      fun _ h => h
  | stream below _ eq =>
    rw [eq]
    exact (Reading.outcome_items (fun part _ => (Level.canonical_ofDepth below).object part trivial)
      fun _ _ => trivial).mono (fun items hitems => canonical_array_iff.mpr fun o ho =>
        (hitems o ho).2) fun _ h => h

end LenientJson.Reader
