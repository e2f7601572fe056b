import LenientJson.Proofs.DepthLimit
import LenientJson.Proofs.Reading.Framed

/-!
# Documents show their own end

A document between brackets is cut short nowhere unnoticed, and nothing but blanks can be added
behind it: every other text that begins like it is refused as malformed. So no document begins
another one.
-/
namespace LenientJson

variable {α : Type}

/-- A text that begins with the opener, does not end in a blank and is accepted. -/
structure Accepts (parse : List Char → Except Error α) (bracket : Bracket) (text : List Char) :
    Prop where
  opens : text.head? = some bracket.opener
  ends : ∀ c, text.getLast? = some c → Text.isBlank c = false
  reads : ∃ value, parse text = .ok value

def RefusedAsMalformed (outcome : Except Error α) : Prop :=
  ∃ detail location, outcome = .error (.malformed detail (some location))

/-- A reader that notices where a document between brackets ends. -/
structure SelfDelimiting (parse : List Char → Except Error α) (bracket : Bracket) : Prop where
  truncated : ∀ text, Accepts parse bracket text →
    ∀ front, front <+: text → front ≠ [] → front ≠ text → RefusedAsMalformed (parse front)
  continued : ∀ text, Accepts parse bracket text →
    ∀ more, (∃ c ∈ more, Text.isBlank c = false) → RefusedAsMalformed (parse (text ++ more))
  prefixFree : ∀ text longer, Accepts parse bracket text → Accepts parse bracket longer →
    text <+: longer → text = longer

namespace Reader

variable {options : Options} {bracket : Bracket} {result : List Char → Except Fault α}
  {read : Nat → Enclosed → Except Fault α}

theorem IsMalformed.refused {fault : Fault} (h : IsMalformed fault) (text : List Char) :
    RefusedAsMalformed ((.error fault : Except Fault α).mapError (Error.ofFault text)) := by
  obtain ⟨malformation, hcause⟩ := h
  exact ⟨malformation.message, Location.of text fault.offset,
    by simp [Except.mapError, Error.ofFault, hcause]⟩

/-- An accepted text is framed as a whole. -/
theorem framed_of_accepts {text : List Char}
    (reads : ∀ text, text.head? = some bracket.opener →
      FramedRead options bracket text read (result text))
    (h : Accepts (fun text => (result text).mapError (Error.ofFault text)) bracket text) :
    Framed options.mode bracket text ∧ options.maxDepth ≠ some 0 := by
  obtain ⟨value, hvalue⟩ := h.reads
  cases reads text h.opens with
  | refused offset limit eq => rw [eq] at hvalue; cases hvalue
  | malformed fault form eq => rw [eq] at hvalue; cases hvalue
  | part inside blanks chars blank balanced limit eq =>
    have hnil : blanks = [] := by
      by_contra hne
      have hlast : text.getLast? = some (blanks.getLast hne) := by
        rw [chars, List.getLast?_eq_some_getLast (List.cons_ne_nil _ _)]
        simp [hne]
      have hblank := h.ends _ hlast
      rw [blank _ (List.getLast_mem hne)] at hblank
      cases hblank
    exact ⟨⟨inside, by rw [chars, hnil], balanced⟩, limit⟩

/-- A text that agrees with an accepted one as far as both go is malformed, unless it is the
accepted one with blanks behind it. -/
theorem refused_of_append {text other x y : List Char}
    (reads : ∀ text, text.head? = some bracket.opener →
      FramedRead options bracket text read (result text))
    (h : Accepts (fun text => (result text).mapError (Error.ofFault text)) bracket text)
    (opens : other.head? = some bracket.opener) (agree : other ++ x = text ++ y)
    (differs : ∀ blanks, (∀ c ∈ blanks, Text.isBlank c = true) → other ≠ text ++ blanks) :
    RefusedAsMalformed ((result other).mapError (Error.ofFault other)) := by
  obtain ⟨hframed, hlimit⟩ := framed_of_accepts reads h
  cases reads other opens with
  | refused offset limit eq => exact absurd limit hlimit
  | malformed fault form eq => rw [eq]; exact form.refused other
  | part inside blanks chars blank balanced limit eq =>
    have hother : other = (bracket.opener :: (inside ++ [bracket.closer])) ++ blanks := by
      rw [chars]
      simp
    have hsame : bracket.opener :: (inside ++ [bracket.closer]) = text := by
      rw [hother, List.append_assoc] at agree
      exact Framed.eq_of_append ⟨inside, rfl, balanced⟩ hframed agree
    rw [hsame] at hother
    exact absurd hother (differs blanks blank)

theorem selfDelimiting_of_framedRead
    (reads : ∀ text, text.head? = some bracket.opener →
      FramedRead options bracket text read (result text)) :
    SelfDelimiting (fun text => (result text).mapError (Error.ofFault text)) bracket := by
  have htruncated (text : List Char)
      (h : Accepts (fun text => (result text).mapError (Error.ofFault text)) bracket text)
      (front : List Char) (hfront : front <+: text) (hne : front ≠ []) (hproper : front ≠ text) :
      RefusedAsMalformed ((result front).mapError (Error.ofFault front)) := by
    obtain ⟨rest, hrest⟩ := hfront
    have opens : front.head? = some bracket.opener := by
      rw [← h.opens, ← hrest, List.head?_append_of_ne_nil _ hne]
    refine refused_of_append reads h opens (y := []) (by rw [hrest, List.append_nil]) ?_
    intro blanks _ heq
    rw [← hrest, List.append_assoc, List.self_eq_append_right, List.append_eq_nil_iff] at heq
    rw [heq.1, List.append_nil] at hrest
    exact hproper hrest
  constructor
  case truncated => exact htruncated
  case continued =>
    rintro text h more ⟨c, hc, hblank⟩
    have opens : (text ++ more).head? = some bracket.opener := by
      rw [List.head?_append, h.opens]
      rfl
    refine refused_of_append reads h opens (List.append_nil _) ?_
    intro blanks hblanks heq
    obtain rfl := List.append_cancel_left heq
    rw [hblanks c hc] at hblank
    cases hblank
  case prefixFree =>
    intro text longer h hlonger hprefix
    by_contra hne
    have htext : text ≠ [] := by
      rintro rfl
      cases h.opens
    obtain ⟨detail, location, herror⟩ := htruncated longer hlonger text hprefix htext hne
    obtain ⟨value, hvalue⟩ := h.reads
    rw [herror] at hvalue
    cases hvalue

end Reader

/-- Under all options an object in braces and an array in brackets are refused as malformed when
they are cut short or go on, and none of them begins another. -/
theorem selfDelimiting_parse (options : Options) :
    SelfDelimiting (fun text => Object.parse text options) .curly ∧
      SelfDelimiting (fun text => Items.parse text options) .square :=
  ⟨Reader.selfDelimiting_of_framedRead fun _ => Reader.framedRead_object options,
    Reader.selfDelimiting_of_framedRead fun _ => Reader.framedRead_array options⟩

def bracesInString : List Char :=
  ['\x7b', 'a', ':', '"', '\x7b', 'x', '\x7d', '"', '\x7d']

/-- Neither the brace that is in the string nor one that is added behind ends the object. -/
theorem selfDelimiting_parse_bracesInString :
    Accepts (fun text => Object.parse text ⟨.legacy, some 1⟩) .curly bracesInString ∧
      RefusedAsMalformed (Object.parse (bracesInString.take 7) ⟨.legacy, some 1⟩) ∧
      RefusedAsMalformed (Object.parse (bracesInString ++ [' ', '\x7d']) ⟨.legacy, some 1⟩) := by
  have hread : Object.parse bracesInString ⟨.legacy, some 1⟩ =
      .ok (.map [("a", .scalar (.string (.ofList ['\x7b', 'x', '\x7d'])))]) := by cbv
  have hends (c : Char) (hc : bracesInString.getLast? = some c) : Text.isBlank c = false := by
    obtain rfl : '\x7d' = c := Option.some.inj hc
    rfl
  have haccepts : Accepts (fun text => Object.parse text ⟨.legacy, some 1⟩) .curly
      bracesInString := ⟨rfl, hends, ⟨_, hread⟩⟩
  exact ⟨haccepts,
    (selfDelimiting_parse ⟨.legacy, some 1⟩).1.truncated _ haccepts _ (List.take_prefix 7 _)
      (by decide) (by decide),
    (selfDelimiting_parse ⟨.legacy, some 1⟩).1.continued _ haccepts _ ⟨'\x7d', by decide, rfl⟩⟩

end LenientJson
