import LenientJson.Proofs.Scan.Balance
import LenientJson.Proofs.Values.Reordering
import LenientJson.Wire

/-!
# Balance of the wire form

A scan passes the text of a value without a trace if the strings that are written as they are
leave none. Then every map and array in it ends at its own closer.
-/
namespace LenientJson.Reader

/-- Every map and array of a value is balanced where it is written. -/
structure Closed (mode : ScanMode) (w : Value) : Prop where
  map : ∀ members, PartOf (.object (.map members)) w →
    Balanced mode .curly (Text.commaSeparated (wireMembers members))
  array : ∀ items, PartOf (.array items) w →
    Balanced mode .square (Text.commaSeparated (wireItems items))

/-- The strings that are written as they are, those of objects that hold a scalar, are safe. -/
def SafeLiterals (mode : ScanMode) (v : Value) : Prop :=
  ∀ key text, PartOf (.object (.scalar key (.string text))) v → SafeIn mode text.toList

variable {mode : ScanMode} {bracket : Bracket}

section Parts

variable {members : List (String × Value)} {items : List Object} {m : String × Value} {o : Object}

theorem Closed.member (h : Closed mode (.object (.map members))) (hmem : m ∈ members) :
    Closed mode m.2 :=
  ⟨fun _ hpart => h.map _ (.member hmem hpart), fun _ hpart => h.array _ (.member hmem hpart)⟩

theorem Closed.element (h : Closed mode (.array items)) (hmem : o ∈ items) :
    Closed mode (.object o) :=
  ⟨fun _ hpart => h.map _ (.element hmem hpart), fun _ hpart => h.array _ (.element hmem hpart)⟩

theorem closed_map (h : ∀ m ∈ members, Closed mode m.2)
    (inside : Balanced mode .curly (Text.commaSeparated (wireMembers members))) :
    Closed mode (.object (.map members)) where
  map listed hpart := by
    rcases partOf_map_iff.mp hpart with heq | ⟨m, hmem, hpart⟩
    · cases heq
      exact inside
    · exact (h m hmem).map listed hpart
  array items hpart := by
    rcases partOf_map_iff.mp hpart with heq | ⟨m, hmem, hpart⟩
    · cases heq
    · exact (h m hmem).array items hpart

theorem closed_array (h : ∀ o ∈ items, Closed mode (.object o))
    (inside : Balanced mode .square (Text.commaSeparated (wireItems items))) :
    Closed mode (.array items) where
  map members hpart := by
    rcases partOf_array_iff.mp hpart with heq | ⟨o, hmem, hpart⟩
    · cases heq
    · exact (h o hmem).map members hpart
  array listed hpart := by
    rcases partOf_array_iff.mp hpart with heq | ⟨o, hmem, hpart⟩
    · cases heq
      exact inside
    · exact (h o hmem).array listed hpart

end Parts

theorem wire_of_isString_eq_false {s : Scalar} (hs : s.isString = false)
    (content : List Char → List Char) : s.wire content = s.text := by
  cases s with
  | string text => cases hs
  | _ => rfl

theorem wireMembers_eq_map (members : List (String × Value)) : wireMembers members =
    members.map fun member =>
      '"' :: Text.escape member.1.toList ++ '"' :: ':' :: member.2.wire := by
  induction members with
  | nil => simp [wireMembers]
  | cons member rest ih =>
    obtain ⟨key, value⟩ := member
    rw [wireMembers, ih, List.map_cons]

theorem isInert_of_isPlain {c : Char} (h : Word.isPlain c = true) : isInert c = true := by
  cases hinert : isInert c with
  | true => rfl
  | false =>
    simp only [isInert, isBracket, Bool.not_eq_false', Bool.or_eq_true, beq_iff_eq] at hinert
    rcases hinert with (rfl | rfl) | (((rfl | rfl) | rfl) | rfl) <;> cases h

theorem isInert_of_isBlank {c : Char} (h : Text.isBlank c = true) : isInert c = true := by
  simp only [Text.isBlank, Bool.or_eq_true, beq_iff_eq] at h
  rcases h with (((rfl | rfl) | rfl) | rfl) | rfl <;> rfl

theorem neutral_text {s : Scalar} (hs : s.isString = false) : Neutral mode bracket s.text :=
  neutral_of_isInert fun _ hc => isInert_of_isPlain (Word.isPlain_of_mem_text hs hc)

theorem neutral_scalar (s : Scalar) : Neutral mode bracket (s.wire Text.escape) := by
  cases hs : s.isString with
  | false => rw [wire_of_isString_eq_false hs]; exact neutral_text hs
  | true =>
    obtain ⟨text, rfl⟩ := Scalar.exists_of_isString hs
    exact neutral_quote_escape _

theorem neutral_literal {s : Scalar} (h : ∀ text, s = .string text → SafeIn mode text.toList) :
    Neutral mode bracket (s.wire id) := by
  cases hs : s.isString with
  | false => rw [wire_of_isString_eq_false hs]; exact neutral_text hs
  | true =>
    obtain ⟨text, rfl⟩ := Scalar.exists_of_isString hs
    exact (h text rfl).neutral_quote

theorem neutral_commaSeparated {parts : List (List Char)}
    (h : ∀ part ∈ parts, Neutral mode bracket part) :
    Neutral mode bracket (Text.commaSeparated parts) := by
  induction parts with
  | nil => exact neutral_nil
  | cons part rest ih =>
    have hpart := h part List.mem_cons_self
    cases rest with
    | nil => exact hpart
    | cons next more =>
      have hcomma : Neutral mode bracket [','] := neutral_of_isInert (by simp [isInert, isBracket])
      exact hpart.append (hcomma.append (ih fun p hp => h p (List.mem_cons_of_mem _ hp)))

theorem neutral_member {key : String} {text : List Char} (h : Neutral mode bracket text) :
    Neutral mode bracket ('"' :: Text.escape key.toList ++ '"' :: ':' :: text) := by
  have hcolon : Neutral mode bracket [':'] := neutral_of_isInert (by simp [isInert, isBracket])
  have hmember := (neutral_quote_escape key.toList).append (hcolon.append h)
  rw [List.append_assoc] at hmember
  exact hmember

/-- Safe strings leave the whole text of a value neutral, in whatever order it is listed. -/
theorem neutral_wire {v w : Value} (reordered : v.Reordered w) (safe : SafeLiterals mode v) :
    (∀ bracket, Neutral mode bracket w.wire) ∧ Closed mode w := by
  induction v using Value.induction generalizing w with
  | scalar s =>
    cases reordered
    refine ⟨fun bracket => neutral_scalar s, ⟨fun _ hpart => ?_, fun _ hpart => ?_⟩⟩
    · cases partOf_scalar_iff.mp hpart
    · cases partOf_scalar_iff.mp hpart
  | literal key s =>
    rcases reordered with _ | ⟨⟨⟩⟩ | _
    refine ⟨fun bracket => neutral_literal fun text hs => safe key text ?_,
      ⟨fun _ hpart => ?_, fun _ hpart => ?_⟩⟩
    · rw [hs]
      exact .self _
    · cases partOf_literal_iff.mp hpart
    · cases partOf_literal_iff.mp hpart
  | map members ih =>
    rcases reordered with _ | ⟨_ | @⟨_, moved, listed, order, hlisted⟩⟩ | _
    have hparts (b : String × Value) (hb : b ∈ listed) :
        (∀ bracket, Neutral mode bracket b.2.wire) ∧ Closed mode b.2 := by
      obtain ⟨a, ha, ⟨hab⟩⟩ := exists_of_mem_right hlisted hb
      have hmem := order.mem_iff.mpr ha
      exact ih _ hmem hab fun key text hpart => safe key text (.member hmem hpart)
    have hinside (bracket : Bracket) :
        Neutral mode bracket (Text.commaSeparated (wireMembers listed)) := by
      apply neutral_commaSeparated
      intro part hpart
      rw [wireMembers_eq_map] at hpart
      obtain ⟨b, hb, rfl⟩ := List.mem_map.mp hpart
      exact neutral_member ((hparts b hb).1 bracket)
    exact ⟨fun bracket => (hinside bracket).enclose .curly,
      closed_map (fun b hb => (hparts b hb).2) (hinside .curly).balanced⟩
  | array items ih =>
    rcases reordered with _ | _ | @⟨_, listed, hlisted⟩
    have hparts (p : Object) (hp : p ∈ listed) :
        (∀ bracket, Neutral mode bracket p.wire) ∧ Closed mode (.object p) := by
      obtain ⟨o, ho, hop⟩ := exists_of_mem_right hlisted hp
      exact ih o ho (.object hop) fun key text hpart => safe key text (.element ho hpart)
    have hinside (bracket : Bracket) :
        Neutral mode bracket (Text.commaSeparated (wireItems listed)) := by
      apply neutral_commaSeparated
      intro part hpart
      rw [wireItems_eq_map] at hpart
      obtain ⟨p, hp, rfl⟩ := List.mem_map.mp hpart
      exact (hparts p hp).1 bracket
    exact ⟨fun bracket => (hinside bracket).enclose .square,
      closed_array (fun p hp => (hparts p hp).2) (hinside .square).balanced⟩

end LenientJson.Reader
