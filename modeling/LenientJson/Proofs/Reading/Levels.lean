import LenientJson.Proofs.Reading.Outcome
import LenientJson.Proofs.Reading.Outlines
import LenientJson.Proofs.Values.Nesting

/-!
# Reading with more or fewer levels

What fewer levels read, more levels read in the same way; as many levels as a part has characters
never refuse it; and a value nests no deeper than the levels it is read with. Each is proved for
the level on top of another and from that for every number of levels.
-/
namespace LenientJson.Reader

variable {α β : Type}

def Refused (limit : Nat) (x : Except Fault α) : Prop :=
  ∃ offset, x = .error ⟨.tooDeep limit, offset⟩

def RefusedOr (limit : Nat) (x y : Except Fault α) : Prop := Refused limit x ∨ x = y

theorem RefusedOr.bind {limit : Nat} {x y : Except Fault α} {f g : α → Except Fault β}
    (h : RefusedOr limit x y) (hf : ∀ v, RefusedOr limit (f v) (g v)) :
    RefusedOr limit (x >>= f) (y >>= g) := by
  rcases h with ⟨offset, rfl⟩ | rfl
  · exact .inl ⟨offset, rfl⟩
  · cases x with
    | ok v => exact hf v
    | error fault => exact .inr rfl

theorem RefusedOr.mapM {limit : Nat} {f g : α → Except Fault β} {l : List α}
    (h : ∀ x ∈ l, RefusedOr limit (f x) (g x)) : RefusedOr limit (l.mapM f) (l.mapM g) := by
  induction l with
  | nil => exact .inr rfl
  | cons x l ih =>
    rw [List.mapM_cons, List.mapM_cons]
    apply (h x List.mem_cons_self).bind
    intro v
    exact (ih fun y hy => h y (List.mem_cons_of_mem x hy)).bind fun values => .inr rfl

theorem RefusedOr.items {limit : Nat} {o : Outline α} {read read' : α → Reading β}
    (h : ∀ x ∈ o.items, RefusedOr limit (read x).result (read' x).result) :
    RefusedOr limit (Reading.items o read).result (Reading.items o read').result := by
  rw [Reading.result_items, Reading.result_items]
  exact (RefusedOr.mapM h).bind fun values => .inr rfl

namespace Level

/-- A level that does what the other does, except that it may refuse. -/
structure Refines (limit : Nat) (lower upper : Level) : Prop where
  object : ∀ part, RefusedOr limit (lower.object part).result (upper.object part).result
  array : ∀ part, RefusedOr limit (lower.array part).result (upper.array part).result

variable {mode : ScanMode} {limit limit' : Nat} {lower upper : Level}

theorem Refines.member (h : Refines limit lower upper) (piece : Piece) :
    RefusedOr limit (lower.member piece).result (upper.member piece).result := by
  cases piece with
  | quoted text => exact .inr rfl
  | word text => exact .inr rfl
  | enclosed bracket part =>
    cases bracket with
    | curly =>
      rw [result_member_curly, result_member_curly]
      exact (h.object part).bind fun o => .inr rfl
    | square =>
      rw [result_member_square, result_member_square]
      exact (h.array part).bind fun items => .inr rfl

theorem Refines.element (h : Refines limit lower upper) (piece : Piece) :
    RefusedOr limit (lower.element piece).result (upper.element piece).result := by
  cases piece with
  | quoted text => exact .inr rfl
  | word text => exact .inr rfl
  | enclosed bracket part =>
    cases bracket with
    | curly => exact h.object part
    | square =>
      rw [result_element_square, result_element_square]
      exact (h.array part).bind fun items => .inr rfl

theorem Refines.namedMember (h : Refines limit lower upper) (member : String × Piece) :
    RefusedOr limit (lower.namedMember member).result (upper.namedMember member).result := by
  obtain ⟨name, piece⟩ := member
  rw [result_namedMember, result_namedMember]
  exact (h.member piece).bind fun v => .inr rfl

theorem Refines.above (h : Refines limit lower upper) :
    Refines limit (above mode lower) (above mode upper) where
  object part := by
    rw [result_above_object, result_above_object]
    exact (RefusedOr.items fun member _ => h.namedMember member).bind fun members => .inr rfl
  array part := RefusedOr.items fun piece _ => h.element piece

theorem refines_refuse : Refines limit (refuse limit) upper where
  object part := .inl ⟨part.opener, rfl⟩
  array part := .inl ⟨part.opener, rfl⟩

/-- More levels read what fewer levels read. -/
theorem refines_ofDepth {depth depth' : Nat} (h : depth ≤ depth') :
    Refines limit (ofDepth mode limit depth) (ofDepth mode limit' depth') := by
  induction depth generalizing depth' with
  | zero => exact refines_refuse
  | succ depth ih =>
    obtain ⟨below, rfl⟩ := Nat.exists_eq_add_of_lt h
    rw [show depth + below + 1 = (depth + below) + 1 from rfl, ofDepth_succ, ofDepth_succ]
    exact (ih (Nat.le_add_right depth below)).above

end Level

section Size

variable {mode : ScanMode} {limit n : Nat}

/-- The parts of an outline are shorter than what it is the outline of. -/
theorem invariant_length {take : Span → Except Fault (α × Span)} (consumes : Consumes take)
    {Item : α → Prop}
    (item : ∀ s item rest, s.chars.length ≤ n → take s = .ok (item, rest) → Item item) :
    Invariant take (fun s => s.chars.length ≤ n) (fun s => s.chars.length ≤ n) Item where
  skip s h _ := (Span.length_skipWhile_le _ s).trans h
  item := item
  step s item rest h htake _ :=
    (Span.length_skipWhile_le _ rest).trans ((consumes s item rest htake).le.trans h)

theorem Taken.shorter {s rest : Span} {piece : Piece} (h : Taken mode s piece rest)
    (hs : s.chars.length ≤ n) : piece.PartIn fun part => part.inside.length < n := by
  cases h with
  | quoted chars quotable => trivial
  | word chars first inside behind nonempty => trivial
  | enclosed chars balanced =>
    rw [chars, List.length_cons, List.length_append, List.length_cons] at hs
    simp only [Piece.PartIn]
    omega

theorem invariant_takePiece : Invariant (takePiece mode) (fun s => s.chars.length ≤ n)
    (fun s => s.chars.length ≤ n) (Piece.PartIn fun part => part.inside.length < n) :=
  invariant_length (consumes_takePiece mode) fun _ _ _ hs htake =>
    (takePiece_eq_ok_iff.mp htake).shorter hs

theorem invariant_takeMember : Invariant (takeMember mode) (fun s => s.chars.length ≤ n)
    (fun s => s.chars.length ≤ n)
    (fun member => member.2.PartIn fun part => part.inside.length < n) :=
  invariant_length (consumes_takeMember mode) fun s member rest hs htake => by
    obtain ⟨name, piece⟩ := member
    obtain ⟨key, behindKey, behindColon, hkey, -, hcolon, hpiece⟩ := takeMember_eq_ok_iff.mp htake
    have hk := length_of_takeKey (takeKey_eq_ok_iff.mpr hkey)
    have hc := length_of_takeColon hcolon
    have hb := Span.length_skipWhile_le Text.isBlank behindKey
    have hv := Span.length_skipWhile_le Text.isBlank behindColon
    exact hpiece.shorter (by omega)

theorem invariant_takeStreamed : Invariant (takeStreamed mode) (fun s => s.chars.length ≤ n)
    (fun s => s.chars.length ≤ n) (fun part => part.inside.length < n) :=
  invariant_length (consumes_takeStreamed mode) fun _ _ _ hs htake =>
    (takeStreamed_eq_ok_iff.mp htake).shorter hs

theorem isMalformed_outlineMembers {s : Span} {fault : Fault}
    (h : (outlineMembers mode s).fault = some fault) : IsMalformed fault :=
  isMalformed_outline (fun _ _ => isMalformed_takeMember) h

theorem isMalformed_outlineElements {s : Span} {fault : Fault}
    (h : (outlineElements mode s).fault = some fault) : IsMalformed fault :=
  isMalformed_outline (fun _ _ => isMalformed_takePiece) h

theorem isMalformed_outlineStream {s : Span} {fault : Fault}
    (h : (outlineStream mode s).fault = some fault) : IsMalformed fault :=
  isMalformed_outline (fun _ _ => isMalformed_takeStreamed) h

end Size

structure OfScalars (V : Value → Prop) (E : Object → Prop) : Prop where
  string : ∀ text, V (.scalar (.string text)) ∧ E (.scalar none (.string text))
  word : ∀ text, V (.scalar (.ofWord text)) ∧ E (.scalar none (.ofWord text))

namespace Level

variable {mode : ScanMode} {limit : Nat} {below : Level} {S S' : Enclosed → Prop}
  {Q : Fault → Prop} {V V' : Value → Prop} {E E' : Object → Prop}

/-- What holds of the objects and arrays that a level reads from the parts in `S`, of an array also
when it is folded, and what holds of its faults. -/
structure Gives (level : Level) (S : Enclosed → Prop) (Q : Fault → Prop) (V : Value → Prop)
    (E : Object → Prop) : Prop where
  object : ∀ part, S part → Outcome (fun o => V (.object o) ∧ E o) Q (level.object part).result
  array : ∀ part, S part →
    Outcome (fun items => V (.array items) ∧ E (Items.fold items)) Q (level.array part).result

theorem Gives.member (h : below.Gives S Q V E) (scalars : OfScalars V E) {piece : Piece}
    (hpiece : piece.PartIn S) : Outcome V Q (below.member piece).result := by
  cases piece with
  | quoted text => exact (scalars.string _).1
  | word text => exact (scalars.word text).1
  | enclosed bracket part =>
    cases bracket with
    | curly =>
      rw [result_member_curly]
      exact (h.object part hpiece).bind fun o ho => ho.1
    | square =>
      rw [result_member_square]
      exact (h.array part hpiece).bind fun items hitems => hitems.1

theorem Gives.element (h : below.Gives S Q V E) (scalars : OfScalars V E) {piece : Piece}
    (hpiece : piece.PartIn S) : Outcome E Q (below.element piece).result := by
  cases piece with
  | quoted text => exact (scalars.string _).2
  | word text => exact (scalars.word text).2
  | enclosed bracket part =>
    cases bracket with
    | curly => exact (h.object part hpiece).mono (fun _ ho => ho.2) fun _ h => h
    | square =>
      rw [result_element_square]
      exact (h.array part hpiece).bind fun items hitems => hitems.2

/-- What passes from members to maps and from elements to arrays passes to the level above, if the
faults of the outlines are such as the level may have. -/
theorem Gives.above_of_outlines (h : below.Gives S Q V E) (scalars : OfScalars V E)
    (outlines : ∀ part, S' part →
      ((∀ member ∈ (outlineMembers mode part.body).items, member.2.PartIn S) ∧
        ∀ fault, (outlineMembers mode part.body).fault = some fault → Q fault) ∧
      (∀ piece ∈ (outlineElements mode part.body).items, piece.PartIn S) ∧
        ∀ fault, (outlineElements mode part.body).fault = some fault → Q fault)
    (map : ∀ members, (∀ member ∈ members, V member.2) →
      V' (.object (.map (Members.ofList members))) ∧ E' (.map (Members.ofList members)))
    (array : ∀ items, (∀ o ∈ items, E o) → V' (.array items) ∧ E' (Items.fold items)) :
    (above mode below).Gives S' Q V' E' where
  object part hpart := by
    obtain ⟨⟨hparts, hfaults⟩, -⟩ := outlines part hpart
    have hmembers (member : String × Piece)
        (hmember : member ∈ (outlineMembers mode part.body).items) :
        Outcome (fun named => V named.2) Q (below.namedMember member).result := by
      obtain ⟨name, piece⟩ := member
      rw [result_namedMember]
      exact (h.member scalars (hparts _ hmember)).bind fun v hv => hv
    rw [result_above_object]
    exact (Reading.outcome_items hmembers hfaults).bind map
  array part hpart := by
    obtain ⟨-, hparts, hfaults⟩ := outlines part hpart
    have hitems (piece : Piece) (hpiece : piece ∈ (outlineElements mode part.body).items) :
        Outcome E Q (below.element piece).result := h.element scalars (hparts piece hpiece)
    rw [above_array]
    exact (Reading.outcome_items hitems hfaults).mono array fun _ h => h

theorem Gives.above (h : below.Gives S Q V E) (scalars : OfScalars V E)
    (malformed : ∀ fault, IsMalformed fault → Q fault)
    (parts : ∀ part, S' part →
      (∀ member ∈ (outlineMembers mode part.body).items, member.2.PartIn S) ∧
        ∀ piece ∈ (outlineElements mode part.body).items, piece.PartIn S)
    (map : ∀ members, (∀ member ∈ members, V member.2) →
      V' (.object (.map (Members.ofList members))) ∧ E' (.map (Members.ofList members)))
    (array : ∀ items, (∀ o ∈ items, E o) → V' (.array items) ∧ E' (Items.fold items)) :
    (above mode below).Gives S' Q V' E' := by
  refine h.above_of_outlines scalars (fun part hpart => ?_) map array
  obtain ⟨hmembers, hitems⟩ := parts part hpart
  exact ⟨⟨hmembers, fun fault hfault => malformed fault (isMalformed_outlineMembers hfault)⟩,
    hitems, fun fault hfault => malformed fault (isMalformed_outlineElements hfault)⟩

/-- As many levels as a part has characters, and one more, do not refuse it. -/
theorem suffices_ofDepth (depth : Nat) : (ofDepth mode limit depth).Gives
    (fun part => part.inside.length < depth) IsMalformed (fun _ => True) (fun _ => True) := by
  induction depth with
  | zero =>
    exact ⟨fun part hpart => absurd hpart (Nat.not_lt_zero _),
      fun part hpart => absurd hpart (Nat.not_lt_zero _)⟩
  | succ depth ih =>
    rw [ofDepth_succ]
    apply ih.above
    case scalars => exact ⟨fun _ => ⟨trivial, trivial⟩, fun _ => ⟨trivial, trivial⟩⟩
    case malformed => exact fun _ h => h
    case parts =>
      intro part hpart
      have hbody : part.body.chars.length ≤ depth := Nat.le_of_lt_succ hpart
      exact ⟨invariant_takeMember.items hbody, invariant_takePiece.items hbody⟩
    case map => exact fun _ _ => ⟨trivial, trivial⟩
    case array => exact fun _ _ => ⟨trivial, trivial⟩

/-- A property that passes from members to maps and from elements to arrays holds of all that is
read; it may depend on the number of levels. -/
theorem gives_ofDepth {V : Nat → Value → Prop} {E : Nat → Object → Prop}
    (scalars : ∀ depth, OfScalars (V depth) (E depth))
    (map : ∀ depth members, (∀ member ∈ members, V depth member.2) →
      V (depth + 1) (.object (.map (Members.ofList members))) ∧
        E (depth + 1) (.map (Members.ofList members)))
    (array : ∀ depth items, (∀ o ∈ items, E depth o) →
      V (depth + 1) (.array items) ∧ E (depth + 1) (Items.fold items)) (depth : Nat) :
    (ofDepth mode limit depth).Gives (fun _ => True) (fun _ => True) (V depth) (E depth) := by
  induction depth with
  | zero => exact ⟨fun _ _ => trivial, fun _ _ => trivial⟩
  | succ depth ih =>
    rw [ofDepth_succ]
    apply ih.above
    case scalars => exact scalars depth
    case malformed => exact fun _ _ => trivial
    case parts =>
      exact fun _ _ => ⟨fun member _ => member.2.partIn_true, fun piece _ => piece.partIn_true⟩
    case map => exact map depth
    case array => exact array depth

/-- Every level gives values that nest no deeper than there are levels. -/
theorem nesting_ofDepth (depth : Nat) : (ofDepth mode limit depth).Gives (fun _ => True)
    (fun _ => True) (fun v => v.nesting ≤ depth) (fun o => o.nesting ≤ depth) := by
  apply gives_ofDepth (V := fun depth v => v.nesting ≤ depth)
    (E := fun depth o => o.nesting ≤ depth)
  case scalars =>
    exact fun depth => ⟨fun _ => ⟨Nat.zero_le _, Nat.zero_le _⟩,
      fun _ => ⟨Nat.zero_le _, Nat.zero_le _⟩⟩
  case map =>
    intro depth members hmembers
    have hnesting : (Object.map (Members.ofList members)).nesting ≤ depth + 1 :=
      Object.nesting_map_le_iff.mpr fun member hmem => hmembers member (Members.mem_ofList hmem)
    exact ⟨hnesting, hnesting⟩
  case array =>
    intro depth items hitems
    have hnesting := Value.nesting_array_le_iff.mpr hitems
    exact ⟨hnesting, (Items.nesting_fold_le items).trans hnesting⟩

end Level

end LenientJson.Reader
