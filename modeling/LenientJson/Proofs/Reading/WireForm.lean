import LenientJson.Proofs.Reading.Levels
import LenientJson.Proofs.Reading.Written
import LenientJson.Proofs.Scan.Closed

/-!
# Reading the wire form

The text of a value is read as its normal form where there are levels enough for its nesting, and
is refused where there are not. The induction is on the value, and the inside of each map and array
is read on the level on top of the one for its members or elements.
-/
namespace LenientJson.Reader

/-- A reading that gives the value where it fits, and is refused for its depth where not. -/
structure Guarded {α : Type} (limit : Nat) (fits : Prop) (value : α) (x : Except Fault α) :
    Prop where
  read : fits → x = .ok value
  refused : ¬fits → Refused limit x

section Guarded

variable {α β : Type} {limit : Nat} {fits fits' : Prop} {value : α} {x : Except Fault α}

theorem guarded_ok (h : fits) : Guarded limit fits value (.ok value) :=
  ⟨fun _ => rfl, fun hn => absurd h hn⟩

theorem Guarded.congr (h : Guarded limit fits value x) (hiff : fits ↔ fits') :
    Guarded limit fits' value x :=
  ⟨fun hf => h.read (hiff.mpr hf), fun hf => h.refused fun hfits => hf (hiff.mp hfits)⟩

theorem Guarded.map (h : Guarded limit fits value x) (f : α → β) :
    Guarded limit fits (f value) (x >>= fun v => .ok (f v)) where
  read hf := by rw [h.read hf]; rfl
  refused hf := by
    obtain ⟨offset, rfl⟩ := h.refused hf
    exact ⟨offset, rfl⟩

/-- A list of items fits if each of them does; the first that does not is the one refused. -/
theorem Guarded.mapM {γ : Type} {fits : γ → Prop} {value : γ → β} {read : α → Except Fault β}
    {l : List γ} {items : List α}
    (h : List.Forall₂ (fun c item => Guarded limit (fits c) (value c) (read item)) l items) :
    Guarded limit (∀ c ∈ l, fits c) (l.map value) (items.mapM read) := by
  induction h with
  | nil => exact guarded_ok (by simp)
  | @cons c item l items hc hl ih =>
    rw [List.mapM_cons]
    constructor
    · intro hfits
      rw [hc.read (hfits c List.mem_cons_self),
        ih.read fun d hd => hfits d (List.mem_cons_of_mem c hd)]
      rfl
    · intro hfits
      by_cases hfit : fits c
      · obtain ⟨offset, heq⟩ := ih.refused fun hrest =>
          hfits (List.forall_mem_cons.mpr ⟨hfit, hrest⟩)
        rw [hc.read hfit, heq]
        exact ⟨offset, rfl⟩
      · obtain ⟨offset, heq⟩ := hc.refused hfit
        rw [heq]
        exact ⟨offset, rfl⟩

theorem Guarded.items {γ : Type} {fits : γ → Prop} {value : γ → β} {read : α → Reading β}
    {l : List γ} {items : List α}
    (h : List.Forall₂ (fun c item => Guarded limit (fits c) (value c) (read item).result) l items) :
    Guarded limit (∀ c ∈ l, fits c) (l.map value) (Reading.items ⟨items, none⟩ read).result := by
  rw [Reading.result_items]
  exact (Guarded.mapM h).map id

end Guarded

/-- The strings that are written as they are, those of objects that hold a scalar, can stand
between quotes. -/
def QuotableLiterals (v : Value) : Prop :=
  ∀ key text, PartOf (.object (.scalar key (.string text))) v → Quotable text.toList

variable {mode : ScanMode} {v w : Value}

/-- The inside of the text of `w` is read as the normal form of `v`. -/
def ReadsInside (mode : ScanMode) : Value → Value → Prop
  | .object (.map members), .object (.map listed) => ∀ opener limit depth,
      Guarded limit ((Object.map members).nesting ≤ depth) (.map (normalMembers members))
        ((Level.ofDepth mode limit depth).object
          ⟨opener, Text.commaSeparated (wireMembers listed)⟩).result
  | .array items, .array listed => ∀ opener limit depth,
      Guarded limit ((Value.array items).nesting ≤ depth) (normalItems items)
        ((Level.ofDepth mode limit depth).array
          ⟨opener, Text.commaSeparated (wireItems listed)⟩).result
  | _, _ => True

def ReadsMember (mode : ScanMode) (v : Value) (piece : Piece) : Prop :=
  ∀ limit depth, Guarded limit (v.nesting ≤ depth) v.normal
    ((Level.ofDepth mode limit depth).member piece).result

def ReadsElement (mode : ScanMode) (o : Object) (piece : Piece) : Prop :=
  ∀ limit depth, Guarded limit (o.nesting ≤ depth) o.normal
    ((Level.ofDepth mode limit depth).element piece).result

theorem readsMember_word {s : Scalar} (hs : s.isString = false) :
    ReadsMember mode (.scalar s) (.word s.text) := by
  intro limit depth
  rw [Level.result_member_word, Scalar.ofWord_text hs]
  exact guarded_ok (Nat.zero_le _)

/-- A string may have any content that is read as it. -/
theorem readsMember_quoted {content : List Char} {text : String}
    (h : Text.unescape content = text.toList) :
    ReadsMember mode (.scalar (.string text)) (.quoted content) := by
  intro limit depth
  rw [Level.result_member_quoted, h, String.ofList_toList]
  exact guarded_ok (Nat.zero_le _)

theorem readsElement_word {s : Scalar} (key : Option String) (hs : s.isString = false) :
    ReadsElement mode (.scalar key s) (.word s.text) := by
  intro limit depth
  rw [Level.result_element_word, Scalar.ofWord_text hs]
  exact guarded_ok (Nat.zero_le _)

theorem readsElement_quoted (key : Option String) (text : String) :
    ReadsElement mode (.scalar key (.string text)) (.quoted text.toList) := by
  intro limit depth
  rw [Level.result_element_quoted, String.ofList_toList]
  exact guarded_ok (Nat.zero_le _)

theorem yields_scalar (s : Scalar) :
    Yields (takePiece mode) (s.wire Text.escape) (ReadsMember mode (.scalar s)) := by
  cases hs : s.isString with
  | false =>
    rw [wire_of_isString_eq_false hs]
    exact yields_word hs (readsMember_word hs)
  | true =>
    obtain ⟨text, rfl⟩ := Scalar.exists_of_isString hs
    exact yields_quoted (quotable_escape _) (readsMember_quoted (Text.unescape_escape _))

/-- The text of a lone scalar is read as a plain scalar among members, and without its key among
elements. -/
theorem yields_literal {key : Option String} {s : Scalar}
    (h : ∀ text, s = .string text → Quotable text.toList) :
    Yields (takePiece mode) (s.wire id) fun piece =>
      ReadsMember mode (.object (.scalar key s)) piece ∧
        ReadsElement mode (.scalar key s) piece := by
  cases hs : s.isString with
  | false =>
    rw [wire_of_isString_eq_false hs]
    have hunescaped : s.unescaped = s.normal := by
      cases s with
      | string text => cases hs
      | _ => rfl
    refine yields_word hs ⟨fun limit depth => ?_, readsElement_word key hs⟩
    rw [Level.result_member_word, Scalar.ofWord_text hs, ← hunescaped]
    exact guarded_ok (Nat.zero_le _)
  | true =>
    obtain ⟨text, rfl⟩ := Scalar.exists_of_isString hs
    refine yields_quoted (h text rfl) ⟨fun limit depth => ?_, readsElement_quoted key text⟩
    rw [Level.result_member_quoted]
    exact guarded_ok (Nat.zero_le _)

/-- No level is enough for nothing: a map or array needs one for itself. -/
theorem guarded_refuse {α : Type} {limit nesting opener : Nat} {value : α} :
    Guarded limit (nesting + 1 ≤ 0) value (.error ⟨.tooDeep limit, opener⟩) :=
  ⟨fun h => absurd h (Nat.not_succ_le_zero _), fun _ => ⟨opener, rfl⟩⟩

section Listed

variable {γ : Type} {nesting : γ → Nat} {l : List γ} {inside : List Char}

/-- Listed members are read as an object on the level on top of the one for their values. -/
theorem guarded_object_of_listed {key : γ → String} {value : γ → Value}
    (h : Listed (takeMember mode) (fun c member => member.1 = key c ∧
      ∀ limit depth, Guarded limit (nesting c ≤ depth) (value c)
        ((Level.ofDepth mode limit depth).member member.2).result) l inside)
    (opener limit depth : Nat) :
    Guarded limit (∀ c ∈ l, nesting c ≤ depth)
      (.map (Members.ofList (l.map fun c => (key c, value c))))
      ((Level.ofDepth mode limit (depth + 1)).object ⟨opener, inside⟩).result := by
  obtain ⟨items, hitems, hread⟩ := outline_listed h
    (rfl : (⟨opener, inside⟩ : Enclosed).body.chars = inside)
  rw [Level.ofDepth_succ, Level.result_above_object, outlineMembers, hitems]
  refine Guarded.map (Guarded.items (hread.imp fun c member ⟨hname, hmember⟩ => ?_))
    fun members => Object.map (Members.ofList members)
  obtain ⟨name, piece⟩ := member
  obtain rfl : name = key c := hname
  rw [Level.result_namedMember]
  exact (hmember limit depth).map fun v => (key c, v)

theorem guarded_array_of_listed {value : γ → Object}
    (h : Listed (takePiece mode) (fun c piece => ∀ limit depth,
      Guarded limit (nesting c ≤ depth) (value c)
        ((Level.ofDepth mode limit depth).element piece).result) l inside)
    (opener limit depth : Nat) :
    Guarded limit (∀ c ∈ l, nesting c ≤ depth) (l.map value)
      ((Level.ofDepth mode limit (depth + 1)).array ⟨opener, inside⟩).result := by
  obtain ⟨pieces, hpieces, hread⟩ := outline_listed h
    (rfl : (⟨opener, inside⟩ : Enclosed).body.chars = inside)
  rw [Level.ofDepth_succ, Level.above_array, outlineElements, hpieces]
  exact Guarded.items (hread.imp fun c piece hpiece => hpiece limit depth)

end Listed

theorem readsInside_map {members moved listed : List (String × Value)}
    (ascending : Members.Ascending members) (order : members.Perm moved)
    (h : List.Forall₂ (fun a b => a.1 = b.1 ∧
      Yields (takePiece mode) b.2.wire (ReadsMember mode a.2)) moved listed) :
    ReadsInside mode (.object (.map members)) (.object (.map listed)) := by
  intro opener limit depth
  cases depth with
  | zero => exact guarded_refuse
  | succ depth =>
    have hparts : List.Forall₂ (fun a part => Yields (takeMember mode) part fun member =>
        member.1 = a.1 ∧ ReadsMember mode a.2 member.2) moved (wireMembers listed) := by
      rw [wireMembers_eq_map, List.forall₂_map_right_iff]
      apply h.imp
      intro a b hab
      rw [hab.1]
      exact yields_member hab.2
    have hlisted : Listed (takeMember mode)
        (fun (a : String × Value) member => member.1 = a.1 ∧ ReadsMember mode a.2 member.2) moved
        (Text.commaSeparated (wireMembers listed)) :=
      listed_commaSeparated (hparts.imp fun _ _ hpart => hpart.padded)
    have hobject := guarded_object_of_listed hlisted opener limit depth
    have hvalue :
        Members.ofList (moved.map fun a => (a.1, a.2.normal)) = normalMembers members := by
      apply Members.ofList_of_perm (Members.ascending_normalMembers ascending)
      rw [normalMembers_eq_map]
      exact order.map _
    rw [hvalue] at hobject
    apply hobject.congr
    rw [Object.nesting_map_le_iff]
    exact ⟨fun hfits a ha => hfits a (order.mem_iff.mp ha),
      fun hfits a ha => hfits a (order.mem_iff.mpr ha)⟩

theorem readsInside_array {items listed : List Object}
    (h : List.Forall₂ (fun o p => Yields (takePiece mode) p.wire (ReadsElement mode o))
      items listed) : ReadsInside mode (.array items) (.array listed) := by
  intro opener limit depth
  cases depth with
  | zero => exact guarded_refuse
  | succ depth =>
    have hparts : List.Forall₂ (fun o part => TakesPadded (takePiece mode) part
        (ReadsElement mode o)) items (wireItems listed) := by
      rw [wireItems_eq_map, List.forall₂_map_right_iff]
      exact h.imp fun _ _ hpart => hpart.padded
    rw [normalItems_eq_map]
    refine (guarded_array_of_listed (listed_commaSeparated hparts) opener limit depth).congr ?_
    exact Value.nesting_array_le_iff.symm

section Pieces

variable {members listed : List (String × Value)} {items listedItems : List Object}

theorem yields_map (closed : Closed mode (.object (.map listed)))
    (inside : ReadsInside mode (.object (.map members)) (.object (.map listed))) :
    Yields (takePiece mode) (Object.map listed).wire fun piece =>
      ReadsMember mode (.object (.map members)) piece ∧
        ReadsElement mode (.map members) piece := by
  refine yields_enclosed (closed.map listed (.self _)) fun opener =>
    ⟨fun limit depth => ?_, inside opener⟩
  rw [Level.result_member_curly]
  exact (inside opener limit depth).map _

theorem yields_array (closed : Closed mode (.array listedItems))
    (inside : ReadsInside mode (.array items) (.array listedItems)) :
    Yields (takePiece mode) (Value.array listedItems).wire
      (ReadsMember mode (.array items)) := by
  apply yields_enclosed (closed.array listedItems (.self _))
  intro opener limit depth
  rw [Level.result_member_square]
  exact (inside opener limit depth).map _

end Pieces

section Parts

variable {members : List (String × Value)} {items : List Object} {m : String × Value}
  {o : Object}

theorem QuotableLiterals.member (h : QuotableLiterals (.object (.map members)))
    (hmem : m ∈ members) : QuotableLiterals m.2 :=
  fun _ _ hpart => h _ _ (.member hmem hpart)

theorem QuotableLiterals.element (h : QuotableLiterals (.array items)) (hmem : o ∈ items) :
    QuotableLiterals (.object o) :=
  fun _ _ hpart => h _ _ (.element hmem hpart)

end Parts

theorem yields_object {o p : Object} (reordered : o.Reordered p)
    (literals : QuotableLiterals (.object o)) (closed : Closed mode (.object p))
    (inside : ReadsInside mode (.object o) (.object p)) :
    Yields (takePiece mode) p.wire fun piece =>
      ReadsMember mode (.object o) piece ∧ ReadsElement mode o piece := by
  cases reordered with
  | scalar key s =>
    exact yields_literal fun text hs => literals key text (by rw [hs]; exact .self _)
  | map order h => exact yields_map closed inside

theorem yields_value (reordered : v.Reordered w) (literals : QuotableLiterals v)
    (closed : Closed mode w) (inside : ReadsInside mode v w) :
    Yields (takePiece mode) w.wire (ReadsMember mode v) := by
  cases reordered with
  | scalar s => exact yields_scalar s
  | object h => exact (yields_object h literals closed inside).mono fun _ hpiece => hpiece.1
  | array h => exact yields_array closed inside

/-- The inside of every map and array is read, whatever the order of its members. -/
theorem readsInside (reordered : v.Reordered w) (ordered : v.Ordered)
    (literals : QuotableLiterals v) (closed : Closed mode w) : ReadsInside mode v w := by
  induction v using Value.induction generalizing w with
  | scalar s =>
    cases reordered
    trivial
  | literal key s =>
    rcases reordered with _ | ⟨⟨⟩⟩ | _
    trivial
  | map members ih =>
    rcases reordered with _ | ⟨_ | ⟨order, hlisted⟩⟩ | _
    apply readsInside_map (ordered members (.self _)) order
    apply forall₂_imp_of_mem hlisted
    intro a b ha hb hab
    rcases hab with ⟨hab⟩
    have hmem := order.mem_iff.mpr ha
    refine ⟨rfl, yields_value hab (literals.member hmem) (closed.member hb) ?_⟩
    exact ih _ hmem hab (fun _ hpart => ordered _ (.member hmem hpart)) (literals.member hmem)
      (closed.member hb)
  | array items ih =>
    rcases reordered with _ | _ | ⟨hlisted⟩
    apply readsInside_array
    apply forall₂_imp_of_mem hlisted
    intro o p ho hp hop
    have hinside := ih o ho (.object hop) (fun _ hpart => ordered _ (.element ho hpart))
      (literals.element ho) (closed.element hp)
    exact (yields_object hop (literals.element ho) (closed.element hp) hinside).mono
      fun _ hpiece => hpiece.2

end LenientJson.Reader
