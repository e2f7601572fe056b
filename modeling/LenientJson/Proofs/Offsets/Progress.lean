import LenientJson.Offsets.Parser
import LenientJson.Proofs.Offsets.BalancePoints
import LenientJson.Proofs.Reading.Outcome

/-!
# Progress

Every step of a reader that works by offsets takes its cursor on within the span, and every item
takes it on by a byte at least, whatever the calls for the parts in it answer. So the loops over
items come to an end.
-/
namespace LenientJson.Offsets

open Reader

variable {α β : Type}

section Runs

variable {x : Run α} {f g : α → Run β}

theorem bind_eq_pure_iff {b : β} : x >>= f = pure b ↔ ∃ a, x = pure a ∧ f a = pure b := by
  constructor
  · intro h
    rcases x with breach | error | a
    · cases h
    · cases h
    · exact ⟨a, rfl, h⟩
  · rintro ⟨a, rfl, h⟩
    exact h

/-- What follows a run matters only where the run ends in a value. -/
theorem bind_congr_pure (h : ∀ a, x = pure a → f a = g a) : x >>= f = x >>= g := by
  rcases x with breach | error | a
  · rfl
  · rfl
  · exact h a rfl

theorem lift_eq_pure_iff {x : Checked α} {a : α} : (liftM x : Run α) = pure a ↔ x = .ok a := by
  cases x with
  | error breach => exact iff_of_false nofun nofun
  | ok b =>
    constructor
    · rintro h
      cases h
      rfl
    · rintro ⟨⟩
      rfl

theorem malformed_ne_pure {text : List Char} {malformation : Malformation} {offset : Nat} {a : α} :
    malformed text malformation offset ≠ pure a := by
  intro h
  obtain ⟨location, -, h⟩ := bind_eq_pure_iff.mp h
  cases h

end Runs

namespace Cursor

structure Reaches (cursor next : Cursor) : Prop where
  position_le : cursor.position ≤ next.position
  position_le_stop : next.position ≤ next.stop
  stop_eq : next.stop = cursor.stop

/-- Another cursor stands further on in the same span. -/
structure Passes (cursor next : Cursor) : Prop extends cursor.Reaches next where
  position_lt : cursor.position < next.position

variable {cursor next last : Cursor} {bytes : List UInt8}

theorem Reaches.trans (h : cursor.Reaches next) (h' : next.Reaches last) : cursor.Reaches last where
  position_le := h.position_le.trans h'.position_le
  position_le_stop := h'.position_le_stop
  stop_eq := h'.stop_eq.trans h.stop_eq

theorem Reaches.passes (h : cursor.Reaches next) (h' : next.Passes last) : cursor.Passes last where
  toReaches := h.trans h'.toReaches
  position_lt := h.position_le.trans_lt h'.position_lt

theorem Passes.reaches (h : cursor.Passes next) (h' : next.Reaches last) : cursor.Passes last where
  toReaches := h.toReaches.trans h'
  position_lt := h.position_lt.trans_le h'.position_le

theorem eq_of_make {position stop : Nat} (h : make bytes position stop = .ok next) :
    next = ⟨position, stop⟩ ∧ position ≤ stop := by
  rw [make] at h
  split at h
  next hbounds =>
    cases h
    exact ⟨rfl, hbounds.1⟩
  next => cases h

theorem reaches_of_skip {p : Char → Bool} (h : cursor.skip bytes p = .ok next) :
    cursor.Reaches next := by
  obtain ⟨position, stop⟩ := cursor
  rw [skip] at h
  induction hn : stop - position generalizing position with
  | zero =>
    rw [skipFrom] at h
    obtain ⟨made, hmake, h⟩ := bind_eq_ok_iff.mp h
    obtain ⟨rfl, hle⟩ := eq_of_make hmake
    rw [if_neg fun hmore => absurd hmore.1 (by simpa using Nat.sub_eq_zero_iff_le.mp hn)] at h
    cases h
    exact ⟨le_rfl, hle, rfl⟩
  | succ n ih =>
    rw [skipFrom] at h
    obtain ⟨made, hmake, h⟩ := bind_eq_ok_iff.mp h
    obtain ⟨rfl, hle⟩ := eq_of_make hmake
    split at h
    next =>
      have hlater := ih (position + 1) h (by omega)
      exact ⟨(Nat.le_succ position).trans hlater.position_le, hlater.position_le_stop,
        hlater.stop_eq⟩
    next =>
      cases h
      exact ⟨le_rfl, hle, rfl⟩

theorem eq_of_advanceTo {position : Nat} (h : cursor.advanceTo bytes position = .ok next) :
    next = ⟨min position cursor.stop, cursor.stop⟩ := (eq_of_make h).1

theorem passes_of_eat {c : Char} (h : cursor.eat? bytes c = .ok (some next)) :
    cursor.Passes next := by
  rw [eat?] at h
  split at h
  next hpeek =>
    obtain ⟨made, hmake, h⟩ := bind_eq_ok_iff.mp h
    cases h
    obtain ⟨rfl, hle⟩ := eq_of_make hmake
    exact ⟨⟨Nat.le_succ _, hle, rfl⟩, Nat.lt_succ_self _⟩
  next => cases h

theorem bounds_of_find {c : Char} {found : Option Nat} (h : cursor.find? bytes c = .ok found) :
    cursor.position ≤ cursor.stop ∧
      ∀ i, found = some i → cursor.position ≤ i ∧ i < cursor.stop := by
  obtain ⟨ahead, hwindow, h⟩ := bind_eq_ok_iff.mp h
  rw [window] at hwindow
  split at hwindow
  next hbounds =>
    cases hwindow
    cases h
    refine ⟨hbounds.1, fun i hi => ?_⟩
    obtain ⟨k, hk, rfl⟩ := Option.map_eq_some_iff.mp hi
    have hlt := (List.findIdx?_eq_some_iff_getElem.mp hk).choose
    rw [List.length_drop, List.length_take] at hlt
    omega
  next => cases hwindow

/-- A step behind a position of the span. -/
theorem passes_of_advanceTo {position : Nat} (h : cursor.advanceTo bytes (position + 1) = .ok next)
    (hle : cursor.position ≤ position) (hlt : position < cursor.stop) : cursor.Passes next := by
  rw [eq_of_advanceTo h, Nat.min_eq_left hlt]
  exact ⟨⟨hle.trans (Nat.le_succ _), hlt, rfl⟩, Nat.lt_succ_of_le hle⟩

end Cursor

section Items

variable {text : List Char} {options : Options} {calls : Calls} {depth : Nat} {cursor next : Cursor}

theorem findMatching_of_matching {bracket : Bracket} {start stop close : Nat}
    (h : matching text options bracket start stop = pure close) :
    findMatching options.mode bracket.opener bracket.closer (Text.encodeUtf8 text) start stop =
      .ok (some close) := by
  obtain ⟨found, hfind, h⟩ := bind_eq_pure_iff.mp h
  cases found with
  | none => exact absurd h malformed_ne_pure
  | some _ =>
    cases h
    exact lift_eq_pure_iff.mp hfind

theorem bounds_of_closingQuote {start stop close : Nat}
    (h : closingQuote text start stop = pure close) : start < close ∧ close < stop := by
  obtain ⟨_, -, h⟩ := bind_eq_pure_iff.mp h
  obtain ⟨found, hfind, h⟩ := bind_eq_pure_iff.mp h
  cases found with
  | none => exact absurd h malformed_ne_pure
  | some _ =>
    cases h
    have hfirst := isFirst_of_findClosingQuote (lift_eq_pure_iff.mp hfind)
    exact ⟨hfirst.1.1, hfirst.1.2.1⟩

theorem passes_of_quoted {content : List Char} (h : quoted text cursor = pure (content, next)) :
    cursor.Passes next := by
  obtain ⟨close, hclose, h⟩ := bind_eq_pure_iff.mp h
  obtain ⟨behind, hadvance, h⟩ := bind_eq_pure_iff.mp h
  obtain ⟨_, -, h⟩ := bind_eq_pure_iff.mp h
  cases h
  obtain ⟨hstart, hstop⟩ := bounds_of_closingQuote hclose
  exact Cursor.passes_of_advanceTo (lift_eq_pure_iff.mp hadvance) hstart.le hstop

theorem passes_of_nested {bracket : Bracket} {call : (start stop depth : Nat) → Run α} {a : α}
    (h : nested text options bracket call depth cursor = pure (a, next)) : cursor.Passes next := by
  obtain ⟨close, hclose, h⟩ := bind_eq_pure_iff.mp h
  obtain ⟨behind, hadvance, h⟩ := bind_eq_pure_iff.mp h
  obtain ⟨_, -, h⟩ := bind_eq_pure_iff.mp h
  cases h
  have hfirst := isFirst_of_findMatching (findMatching_of_matching hclose)
  exact Cursor.passes_of_advanceTo (lift_eq_pure_iff.mp hadvance) hfirst.1.1.le hfirst.1.2.1

theorem slice_self {text : List Char} {position : Nat} {content : List Char}
    (h : slice text position position = .ok content) : content = [] := by
  unfold slice at h
  simp only at h
  split at h
  next => cases h; simp
  next => cases h

/-- A word is taken only where one stands. -/
theorem passes_of_primitive {scalar : Scalar} (h : primitive text cursor = pure (scalar, next)) :
    cursor.Passes next := by
  obtain ⟨found, hfind, h⟩ := bind_eq_pure_iff.mp h
  obtain ⟨hle, hfound⟩ := Cursor.bounds_of_find (lift_eq_pure_iff.mp hfind)
  obtain ⟨behind, hadvance, h⟩ := bind_eq_pure_iff.mp h
  obtain ⟨content, hslice, h⟩ := bind_eq_pure_iff.mp h
  simp only at hadvance hslice h
  have hstop : cursor.position ≤ found.getD cursor.stop ∧ found.getD cursor.stop ≤ cursor.stop := by
    cases found with
    | none => exact ⟨hle, le_rfl⟩
    | some i => exact (hfound i rfl).imp_right Nat.le_of_lt
  generalize found.getD cursor.stop = stop at hadvance hslice hstop
  split at h
  next => exact absurd h malformed_ne_pure
  next hword =>
    cases h
    have hne : cursor.position ≠ stop := by
      rintro rfl
      rw [slice_self (lift_eq_pure_iff.mp hslice)] at hword
      exact hword rfl
    rw [Cursor.eq_of_advanceTo (lift_eq_pure_iff.mp hadvance), Nat.min_eq_left hstop.2]
    exact ⟨⟨hstop.1, hstop.2, rfl⟩, Nat.lt_of_le_of_ne hstop.1 hne⟩

theorem reaches_of_parseKey {key : String} (h : parseKey text cursor = pure (key, next)) :
    cursor.Reaches next := by
  unfold parseKey at h
  split at h
  next =>
    obtain ⟨⟨content, behind⟩, hquoted, h⟩ := bind_eq_pure_iff.mp h
    obtain ⟨_, -, h⟩ := bind_eq_pure_iff.mp h
    cases h
    exact (passes_of_quoted hquoted).toReaches
  next =>
    obtain ⟨found, hfind, h⟩ := bind_eq_pure_iff.mp h
    obtain ⟨hle, hfound⟩ := Cursor.bounds_of_find (lift_eq_pure_iff.mp hfind)
    cases found with
    | none => exact absurd h malformed_ne_pure
    | some colon =>
      obtain ⟨behind, hadvance, h⟩ := bind_eq_pure_iff.mp h
      obtain ⟨_, -, h⟩ := bind_eq_pure_iff.mp h
      cases h
      rw [Cursor.eq_of_advanceTo (lift_eq_pure_iff.mp hadvance)]
      exact ⟨le_min (hfound colon rfl).1 hle, min_le_right _ _, rfl⟩

theorem passes_of_parseMemberValue {value : Value}
    (h : parseMemberValue text options calls depth cursor = pure (value, next)) :
    cursor.Passes next := by
  unfold parseMemberValue at h
  split at h
  all_goals obtain ⟨⟨_, behind⟩, hpart, h⟩ := bind_eq_pure_iff.mp h
  next =>
    obtain ⟨_, -, h⟩ := bind_eq_pure_iff.mp h
    cases h
    exact passes_of_quoted hpart
  next =>
    cases h
    exact passes_of_nested hpart
  next =>
    cases h
    exact passes_of_nested hpart
  next =>
    cases h
    exact passes_of_primitive hpart

theorem passes_of_parseMember {member : String × Value}
    (h : parseMember text options calls depth cursor = pure (member, next)) :
    cursor.Passes next := by
  obtain ⟨⟨key, behindKey⟩, hkey, h⟩ := bind_eq_pure_iff.mp h
  obtain ⟨atColon, hskip, h⟩ := bind_eq_pure_iff.mp h
  obtain ⟨eaten, heat, h⟩ := bind_eq_pure_iff.mp h
  cases eaten with
  | none => exact absurd h malformed_ne_pure
  | some behindColon =>
    obtain ⟨atValue, hblanks, h⟩ := bind_eq_pure_iff.mp h
    obtain ⟨⟨value, behindValue⟩, hvalue, h⟩ := bind_eq_pure_iff.mp h
    cases h
    have hcolon := (reaches_of_parseKey hkey).trans
      (Cursor.reaches_of_skip (lift_eq_pure_iff.mp hskip))
    have hstart := (Cursor.passes_of_eat (lift_eq_pure_iff.mp heat)).reaches
      (Cursor.reaches_of_skip (lift_eq_pure_iff.mp hblanks))
    exact (hcolon.passes hstart).reaches (passes_of_parseMemberValue hvalue).toReaches

theorem passes_of_parseElement {element : Object}
    (h : parseElement text options calls depth cursor = pure (element, next)) :
    cursor.Passes next := by
  unfold parseElement at h
  split at h
  next =>
    obtain ⟨⟨_, behind⟩, hpart, h⟩ := bind_eq_pure_iff.mp h
    cases h
    exact passes_of_quoted hpart
  next => exact passes_of_nested h
  next =>
    obtain ⟨⟨_, behind⟩, hpart, h⟩ := bind_eq_pure_iff.mp h
    cases h
    exact passes_of_nested hpart
  next =>
    obtain ⟨⟨_, behind⟩, hpart, h⟩ := bind_eq_pure_iff.mp h
    cases h
    exact passes_of_primitive hpart

theorem passes_of_parseStreamed {object : Object}
    (h : parseStreamed text options calls depth cursor = pure (object, next)) :
    cursor.Passes next := by
  unfold parseStreamed at h
  split at h
  next => exact passes_of_nested h
  next => exact absurd h malformed_ne_pure

theorem reaches_of_expectSeparator {siblings : Sibling}
    (h : expectSeparator text siblings cursor = pure next) : cursor.Reaches next := by
  obtain ⟨behind, hskip, h⟩ := bind_eq_pure_iff.mp h
  split at h
  next =>
    cases h
    exact Cursor.reaches_of_skip (lift_eq_pure_iff.mp hskip)
  next => exact absurd h malformed_ne_pure

end Items

section Rounds

variable (text : List Char) (siblings : Sibling) (item : Cursor → Run (α × Cursor))

/-- A round of a loop over items, which does not end it: behind separators an item is taken, and
behind it stands a separator or the end. -/
def Round (cursor next : Cursor) : Prop :=
  ∃ start value behind, cursor.skip (Text.encodeUtf8 text) Text.isSeparator = .ok start ∧
    start.isAtEnd = false ∧ item start = pure (value, behind) ∧
      expectSeparator text siblings behind = pure next

variable {text siblings item} {cursor next : Cursor}

/-- A round takes the cursor on if an item does. -/
theorem passes_of_round
    (hitem : ∀ cursor value next, item cursor = pure (value, next) → cursor.Passes next)
    (h : Round text siblings item cursor next) : cursor.Passes next := by
  obtain ⟨start, value, behind, hskip, -, hvalue, hseparator⟩ := h
  have hpast := (Cursor.reaches_of_skip hskip).passes (hitem start value behind hvalue)
  exact hpast.reaches (reaches_of_expectSeparator hseparator)

/-- There are no more rounds than the cursor has bytes before it. -/
theorem length_le_of_rounds
    (hpasses : ∀ cursor next, Round text siblings item cursor next → cursor.Passes next)
    {cursors : List Cursor} (h : List.IsChain (Round text siblings item) (cursor :: cursors)) :
    cursors.length ≤ cursor.stop - cursor.position := by
  induction cursors generalizing cursor with
  | nil => exact Nat.zero_le _
  | cons next cursors ih =>
    obtain ⟨hround, hrest⟩ := List.isChain_cons_cons.mp h
    have hlength := ih hrest
    obtain ⟨⟨-, hle, hstop⟩, hlt⟩ := hpasses cursor next hround
    rw [List.length_cons]
    omega

end Rounds

end LenientJson.Offsets
