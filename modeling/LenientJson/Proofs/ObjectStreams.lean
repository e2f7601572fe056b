import LenientJson.Proofs.Reading.Braces
import LenientJson.Proofs.Reading.Written

/-!
# Streams of objects

Texts that are accepted as objects on their own can stand one behind the other with commas between
them. Such a stream is accepted as an array with one level more, and its elements are the objects
of the texts, none lost and no two merged.
-/
namespace LenientJson

/-- Texts that begin with a brace and are accepted as objects, one behind the other. Between two of
them stand blanks and commas, at least one comma among them, and any blanks and commas may stand
behind the last. -/
inductive ObjectStream (mode : ScanMode) (limit : Option Nat) : List Char → List Object → Prop
  | last {text gap : List Char} {o : Object} (opens : text.head? = some '\x7b')
      (accepted : Object.parse text ⟨mode, limit⟩ = .ok o)
      (separators : ∀ c ∈ gap, Text.isSeparator c = true) :
      ObjectStream mode limit (text ++ gap) [o]
  | cons {text gap rest : List Char} {o : Object} {objects : List Object}
      (opens : text.head? = some '\x7b') (accepted : Object.parse text ⟨mode, limit⟩ = .ok o)
      (separators : ∀ c ∈ gap, Text.isSeparator c = true) (comma : ',' ∈ gap)
      (more : ObjectStream mode limit rest objects) :
      ObjectStream mode limit (text ++ (gap ++ rest)) (o :: objects)

namespace ObjectStream

open Reader

variable {mode : ScanMode} {limit : Option Nat} {text : List Char} {objects : List Object}

theorem opens (h : ObjectStream mode limit text objects) : text.head? = some '\x7b' := by
  cases h with
  | last opens accepted separators => rw [List.head?_append, opens, Option.some_or]
  | cons opens accepted separators comma more => rw [List.head?_append, opens, Option.some_or]

/-- An object in its braces, a run of separators and more objects behind. -/
theorem listed_cons {inside gap tail : List Char} {o : Object}
    (hbraced : Braced mode limit inside o) (separators : ∀ c ∈ gap, Text.isSeparator c = true)
    (comma : tail = [] ∨ ',' ∈ gap)
    (rest : Listed (takeStreamed mode) (BracedPart mode limit) objects tail) :
    Listed (takeStreamed mode) (BracedPart mode limit) (o :: objects)
      ((Bracket.curly.opener :: inside ++ [Bracket.curly.closer]) ++ (gap ++ tail)) :=
  rest.cons_gap (fun behind => takesBefore_streamed behind hbraced.balanced fun _ => hbraced)
    separators comma

/-- Each object is taken with its own braces, and it is read between them as it is alone. -/
theorem listed (h : ObjectStream mode limit text objects) :
    Listed (takeStreamed mode) (BracedPart mode limit) objects
      (Text.trimEnd Text.isBlank text) := by
  have hgap {blanks gap : List Char} (hblank : ∀ c ∈ blanks, Text.isBlank c = true)
      (separators : ∀ c ∈ gap, Text.isSeparator c = true) (c : Char) (hc : c ∈ blanks ++ gap) :
      Text.isSeparator c = true :=
    (List.mem_append.mp hc).elim (fun hc => Text.isSeparator_of_isBlank (hblank c hc))
      (separators c)
  induction h with
  | @last text gap o opens accepted separators =>
    obtain ⟨inside, blanks, rfl, hblank, hbraced⟩ := braced_of_parse opens accepted
    have hend (c : Char) (hc : c ∈ Text.trimEnd Text.isBlank (blanks ++ gap)) :
        Text.isSeparator c = true := by
      apply hgap hblank separators
      rw [← Text.trimEnd_append Text.isBlank (blanks ++ gap)]
      exact List.mem_append_left _ hc
    rw [List.append_assoc, Text.trimEnd_concat_append _ _ rfl,
      ← List.append_nil (Text.trimEnd Text.isBlank (blanks ++ gap))]
    exact listed_cons hbraced hend (.inl rfl) (.nil (by simp))
  | @cons text gap rest o objects opens accepted separators comma more ih =>
    obtain ⟨inside, blanks, rfl, hblank, hbraced⟩ := braced_of_parse opens accepted
    rw [List.append_assoc _ blanks, ← List.append_assoc blanks, Text.trimEnd_concat_append _ _ rfl,
      Text.trimEnd_append_of_head? _ more.opens rfl]
    exact listed_cons hbraced (hgap hblank separators) (.inr (List.mem_append_right _ comma)) ih

end ObjectStream

open Reader in
/-- A stream of accepted objects is an accepted array of them. -/
theorem parse_objectStream {mode : ScanMode} {limit : Option Nat} {text : List Char}
    {objects : List Object} (stream : ObjectStream mode limit text objects) :
    Items.parse text ⟨mode, limit.map (· + 1)⟩ = .ok objects := by
  obtain ⟨below, hl, enough⟩ := exists_levels_map_succ mode limit text
  obtain ⟨cs, rfl⟩ := List.head?_eq_some_iff.mp stream.opens
  have hs : (Span.ofText ('\x7b' :: cs)).trim.chars = '\x7b' :: Text.trimEnd Text.isBlank cs :=
    congrArg Span.chars (trim_ofText_cons cs rfl)
  have hchars : (Span.ofText ('\x7b' :: cs)).trim.chars =
      Text.trimEnd Text.isBlank ('\x7b' :: cs) := hs.trans (Text.trimEnd_cons cs rfl).symm
  obtain ⟨parts, hout, hparts⟩ := outline_listed stream.listed hchars
  have hshorter : ∀ part ∈ (outlineStream mode (Span.ofText ('\x7b' :: cs)).trim).items,
      part.inside.length < ('\x7b' :: cs).length :=
    invariant_takeStreamed.items (length_trim_ofText_le ('\x7b' :: cs))
  rw [outlineStream, hout] at hshorter
  apply mapError_eq_ok_iff.mpr
  rw [readArray_result_cons hs hl, if_neg (by decide), if_pos rfl, outlineStream, hout,
    Reading.items_eq_ok_iff]
  refine ⟨rfl, ((List.forall₂_and_left _ _).mpr ⟨hshorter, hparts.flip⟩).imp ?_⟩
  rintro part o ⟨hlt, hbraced⟩
  exact hbraced.reads part.opener _ _ (enough _ hlt)

def bareKeyText : List Char := ['\x7b', 'a', ':', '1', '\x7d']

def bracesInWordText : List Char :=
  ['\x7b', '"', 'b', '"', ':', 'x', '\x7b', '\x7d', 'y', '\x7d', ' ']

def twoObjects : List Char :=
  bareKeyText ++ (['\n', ','] ++ (bracesInWordText ++ [',', ' ', ',']))

theorem parse_objectStream_twoObjects :
    ObjectStream .legacy (some 1) twoObjects [.map [("a", .scalar (.integer 1))],
        .map [("b", .scalar (.string (.ofList ['x', '\x7b', '\x7d', 'y'])))]] ∧
      Items.parse twoObjects ⟨.legacy, some 2⟩ = .ok [.map [("a", .scalar (.integer 1))],
        .map [("b", .scalar (.string (.ofList ['x', '\x7b', '\x7d', 'y'])))]] := by
  have hfirst : Object.parse bareKeyText ⟨.legacy, some 1⟩ =
      .ok (.map [("a", .scalar (.integer 1))]) := by cbv
  have hlast : Object.parse bracesInWordText ⟨.legacy, some 1⟩ =
      .ok (.map [("b", .scalar (.string (.ofList ['x', '\x7b', '\x7d', 'y'])))]) := by cbv
  have hgap : ∀ c ∈ ['\n', ','], Text.isSeparator c = true := List.all_eq_true.mp rfl
  have hend : ∀ c ∈ [',', ' ', ','], Text.isSeparator c = true := List.all_eq_true.mp rfl
  have stream := ObjectStream.cons rfl hfirst hgap (by decide) (.last rfl hlast hend)
  exact ⟨stream, parse_objectStream stream⟩

end LenientJson
