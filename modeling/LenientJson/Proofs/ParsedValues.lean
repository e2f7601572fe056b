import LenientJson.Proofs.Reading.Canonical

/-!
# The form of what is read

Whatever the text, a value that is read has a form on which later work can rely: an object that is
a member is a map, an element is a map or a scalar without a key, a double is finite, and an
integer is kept wide only beyond 64 bits. An object as a whole is a scalar for a lone string alone.
-/
namespace LenientJson

structure Scalar.Proper (s : Scalar) : Prop where
  finite : ∀ x, s = .double x → x.isFinite = true
  wide : ∀ n, s = .bigInteger n → n < -0x8000000000000000 ∨ 0x8000000000000000 ≤ n

/-- The scalar stands somewhere in the value, as a member or in an object that holds it. -/
def HasScalar (s : Scalar) (v : Value) : Prop :=
  PartOf (.scalar s) v ∨ ∃ key, PartOf (.object (.scalar key s)) v

/-- The form that a value has on every level. -/
structure ParsedForm (v : Value) : Prop where
  members : ∀ members, PartOf (.object (.map members)) v →
    ∀ member ∈ members, ∀ o, member.2 = .object o → o.isMap = true
  elements : ∀ items, PartOf (.array items) v →
    ∀ o ∈ items, o.isMap = true ∨ ∃ s, o = .scalar none s
  keyless : ∀ key s, PartOf (.object (.scalar key s)) v → key = none
  scalars : ∀ s, HasScalar s v → s.Proper

/-- The form that an object has as a whole: it is a scalar exactly if its text begins with a quote
behind the blanks, and then it is a string without a key. -/
structure ParsedObject (text : List Char) (o : Object) : Prop where
  form : ParsedForm (.object o)
  scalar_iff : o.isScalar = true ↔ (Text.trim Text.isBlank text).head? = some '"'
  string : o.isScalar = true → ∃ content, o = .scalar none (.string content)

theorem Scalar.proper_of_normal {s : Scalar} (h : s.normal = s) : s.Proper where
  finite x hs := by
    subst hs
    cases hx : x.isFinite with
    | true => rfl
    | false => simp [normal, hx] at h
  wide n hs := by
    subst hs
    by_contra hrange
    have hnarrow : Numeral.int64? n = some (.ofInt n) := if_pos (by omega)
    simp [normal, hnarrow] at h

theorem Scalar.normal_of_proper {s : Scalar} (h : s.Proper) : s.normal = s := by
  cases s with
  | bigInteger n =>
    have hwide : Numeral.int64? n = none := if_neg (by have := h.wide n rfl; omega)
    rw [normal, hwide]
    rfl
  | double x => rw [normal, if_pos (h.finite x rfl)]
  | _ => rfl

theorem CanonicalPart.parsedForm {v : Value} (h : CanonicalPart v) : ParsedForm v where
  members members hpart member hmem o ho := by
    cases canonicalPart_object_iff.mp (h.part hpart) with
    | map ascending values =>
      have hmember := values member hmem
      rw [ho] at hmember
      cases hmember
      rfl
  elements items hpart o ho := by
    rcases h.part hpart with harray | ⟨s, heq, -⟩
    · have helement := canonical_array_iff.mp harray o ho
      cases o with
      | scalar key s =>
        obtain ⟨rfl, -⟩ := helement
        exact .inr ⟨s, rfl⟩
      | map members => exact .inl rfl
    · cases heq
  keyless key s hpart := (canonicalPart_object_iff.mp (h.part hpart)).1
  scalars s hpart := by
    apply Scalar.proper_of_normal
    rcases hpart with hpart | ⟨key, hpart⟩
    · rcases h.part hpart with ⟨⟨normal⟩⟩ | ⟨s', heq, -⟩
      · exact normal
      · cases heq
    · exact (canonicalPart_object_iff.mp (h.part hpart)).2

namespace Reader

variable {options : Options} {text : List Char} {o : Object}

theorem CanonicalDocument.element (h : CanonicalDocument o) : CanonicalElement o := by
  rcases h with ⟨text, rfl⟩ | h
  · exact ⟨rfl, rfl⟩
  · exact canonicalElement_of_canonical h

theorem Level.isScalar_object {mode : ScanMode} {limit depth : Nat} {part : Enclosed}
    (h : ((ofDepth mode limit depth).object part).result = .ok o) : o.isScalar = false := by
  cases depth with
  | zero => cases h
  | succ depth =>
    rw [ofDepth_succ, result_above_object, bind_eq_ok_iff] at h
    obtain ⟨members, -, ho⟩ := h
    cases ho
    rfl

theorem isScalar_iff_of_readObject (h : (readObject options text).result = .ok o) :
    o.isScalar = true ↔ (Text.trim Text.isBlank text).head? = some '"' := by
  change _ ↔ (Span.ofText text).trim.chars.head? = some '"'
  cases hs : (Span.ofText text).trim.chars with
  | nil =>
    rw [readObject_nil hs] at h
    cases h
    simp [Object.isScalar, Object.empty]
  | cons c cs =>
    cases hl : levels options text with
    | zero => rw [readObject_result_zero hs hl] at h; cases h
    | succ below =>
      rw [readObject_result_cons hs hl] at h
      split at h
      next hc =>
        cases h
        simp [Object.isScalar, hc]
      next hc =>
        have hmap : o.isScalar = false := by
          split at h
          · obtain ⟨part, -, hpart⟩ := bind_eq_ok_iff.mp h
            exact Level.isScalar_object hpart
          · cases h
        simp [hmap, hc]

end Reader

open Reader in
/-- Every object and every array that is read has the form, under all options. -/
theorem parsedForm_parse (text : List Char) (options : Options) :
    (∀ o, Object.parse text options = .ok o → ParsedObject text o) ∧
      ∀ items, Items.parse text options = .ok items → ParsedForm (.array items) := by
  constructor
  · intro o h
    have hread := mapError_eq_ok_iff.mp h
    have hdocument := (canonical_readObject options text).of_eq_ok hread
    constructor
    case form => exact CanonicalPart.parsedForm (canonicalPart_object_iff.mpr hdocument.element)
    case scalar_iff => exact isScalar_iff_of_readObject hread
    case string =>
      intro hscalar
      rcases hdocument with hstring | hmap
      · exact hstring
      · cases hmap
        cases hscalar
  · intro items h
    have harray := (canonical_readArray options text).of_eq_ok (mapError_eq_ok_iff.mp h)
    exact CanonicalPart.parsedForm (.inl harray)

def arrayInArray : List Char := "[[1,9223372036854775808],x]".toList

def arrayInArrayItems : List Object :=
  [.map [("0", .scalar (.integer 1)), ("1", .scalar (.bigInteger 9223372036854775808))],
    .scalar none (.string "x")]

def loneText : List Char := [' ', '"', 'a', '"', 'b']

theorem parsedForm_parse_arrayInArray :
    (Items.parse arrayInArray ⟨.legacy, some 2⟩ = .ok arrayInArrayItems ∧
      ParsedForm (.array arrayInArrayItems)) ∧
    (Object.parse loneText ⟨.stringAware, none⟩ = .ok (.scalar none (.string "a\"b")) ∧
      ParsedObject loneText (.scalar none (.string "a\"b"))) := by
  have hitems : Items.parse arrayInArray ⟨.legacy, some 2⟩ = .ok arrayInArrayItems := by cbv
  have hlone : Object.parse loneText ⟨.stringAware, none⟩ =
      .ok (.scalar none (.string "a\"b")) := by cbv
  exact ⟨⟨hitems, (parsedForm_parse arrayInArray _).2 _ hitems⟩,
    ⟨hlone, (parsedForm_parse loneText _).1 _ hlone⟩⟩

end LenientJson
