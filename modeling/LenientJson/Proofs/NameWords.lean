import LenientJson.Proofs.Words.Patterns

/-!
# Words that are names

A word that has no form of a number is true, false or null if its letters spell that name in any
ASCII case, and else a string of its own characters. There is one exception: under simple case
folding the long s is an s, so that false may also be spelled with one.
-/
namespace LenientJson

namespace Text

/-- The characters spell the word, each letter of it in either ASCII case. -/
def SpelledAs (word : String) (cs : List Char) : Prop :=
  List.Forall₂ (fun letter c => c = letter ∨ c = letter.toUpper) word.toList cs

def FalseWithLongS (cs : List Char) : Prop :=
  ∃ front back, SpelledAs "fal" front ∧ SpelledAs "e" back ∧ cs = front ++ '\u017f' :: back

section Letters

variable {letter c : Char}

/-- A lower-case letter is what its two ASCII cases are lowered to. -/
theorem toLower_eq_iff (h : letter.isLower = true) :
    c.toLower = letter ↔ c = letter ∨ c = letter.toUpper := by
  constructor
  · rintro rfl
    by_cases hc : c.isUpper = true
    · right
      rw [Char.toUpper_toLower_eq_toUpper,
        Char.toUpper_eq_of_not_isLower (Char.not_isLower_of_isUpper hc)]
    · left
      exact (Char.toLower_eq_of_not_isUpper hc).symm
  · have hlower : letter.toLower = letter :=
      Char.toLower_eq_of_not_isUpper (Char.not_isUpper_of_isLower h)
    rintro (rfl | rfl)
    · exact hlower
    · rw [Char.toLower_toUpper_eq_toLower, hlower]

/-- Folding finds the two ASCII cases of a letter, and for two letters one character more. -/
theorem foldCase_eq_iff (h : letter.isLower = true) :
    foldCase c = letter ↔ (c = letter ∨ c = letter.toUpper) ∨
      letter = 's' ∧ c = '\u017f' ∨ letter = 'k' ∧ c = '\u212a' := by
  have hlong : ¬('\u017f' = letter ∨ '\u017f' = letter.toUpper) := by
    rw [← toLower_eq_iff h]
    rintro rfl
    revert h
    decide
  have hkelvin : ¬('\u212a' = letter ∨ '\u212a' = letter.toUpper) := by
    rw [← toLower_eq_iff h]
    rintro rfl
    revert h
    decide
  unfold foldCase
  split
  next hc =>
    subst hc
    rw [or_iff_right hlong]
    simp [eq_comm]
  next hs =>
    split
    next hc =>
      subst hc
      rw [or_iff_right hkelvin]
      simp [eq_comm]
    next hk => simp [toLower_eq_iff h, hs, hk]

end Letters

section Spelling

variable {word : String} {cs : List Char}

variable (word) in
theorem map_toLower_iff (h : word.toList.all Char.isLower = true) :
    cs.map Char.toLower = word.toList ↔ SpelledAs word cs := by
  unfold SpelledAs
  generalize word.toList = letters at h
  induction letters generalizing cs with
  | nil => simp
  | cons letter letters ih =>
    rw [List.all_cons, Bool.and_eq_true] at h
    rw [List.forall₂_cons_left_iff, List.map_eq_cons_iff]
    simp only [toLower_eq_iff h.1, ih h.2]
    constructor
    · rintro ⟨c, rest, rfl, hc, hrest⟩
      exact ⟨c, rest, hc, hrest, rfl⟩
    · rintro ⟨c, rest, hc, hrest, rfl⟩
      exact ⟨c, rest, rfl, hc, hrest⟩

variable (word) in
/-- Without the two letters that have a further form, folding is lowering. -/
theorem map_foldCase_iff (h : word.toList.all Char.isLower = true) (hs : 's' ∉ word.toList)
    (hk : 'k' ∉ word.toList) : cs.map foldCase = word.toList ↔ SpelledAs word cs := by
  rw [← map_toLower_iff word h]
  generalize word.toList = letters at h hs hk
  induction letters generalizing cs with
  | nil => simp
  | cons letter letters ih =>
    rw [List.all_cons, Bool.and_eq_true] at h
    rw [List.mem_cons, not_or] at hs hk
    have hletter (c : Char) : foldCase c = letter ↔ c.toLower = letter := by
      rw [foldCase_eq_iff h.1, toLower_eq_iff h.1]
      simp [Ne.symm hs.1, Ne.symm hk.1]
    simp only [List.map_eq_cons_iff, hletter, ih h.2 hs.2 hk.2]

theorem spells_iff (h : word.toList.all Char.isLower = true) :
    spells word cs = true ↔ SpelledAs word cs := by
  rw [spells, beq_iff_eq, map_toLower_iff word h]

theorem spellsFolded_true : spellsFolded "true" cs = true ↔ SpelledAs "true" cs := by
  rw [spellsFolded, beq_iff_eq, map_foldCase_iff "true" (by decide) (by decide) (by decide)]

/-- The fourth letter of false is the only one with a further form. -/
theorem spellsFolded_false :
    spellsFolded "false" cs = true ↔ SpelledAs "false" cs ∨ FalseWithLongS cs := by
  have hword : "false".toList = "fal".toList ++ 's' :: "e".toList := rfl
  have hs (c : Char) : foldCase c = 's' ↔ c.toLower = 's' ∨ c = '\u017f' := by
    rw [foldCase_eq_iff (by decide), toLower_eq_iff (by decide)]
    simp
  rw [spellsFolded, beq_iff_eq, ← map_toLower_iff "false" (by decide), hword,
    List.map_eq_append_iff, List.map_eq_append_iff]
  simp only [List.map_eq_cons_iff, hs, map_toLower_iff "fal" (by decide),
    map_toLower_iff "e" (by decide), map_foldCase_iff "fal" (by decide) (by decide) (by decide),
    map_foldCase_iff "e" (by decide) (by decide) (by decide)]
  constructor
  · rintro ⟨front, _, rfl, hfront, s, back, rfl, hs | rfl, hback⟩
    · exact .inl ⟨front, _, rfl, hfront, s, back, rfl, hs, hback⟩
    · exact .inr ⟨front, back, hfront, hback, rfl⟩
  · rintro (⟨front, _, rfl, hfront, s, back, rfl, hs, hback⟩ | ⟨front, back, hfront, hback, rfl⟩)
    · exact ⟨front, _, rfl, hfront, s, back, rfl, .inl hs, hback⟩
    · exact ⟨front, _, rfl, hfront, _, back, rfl, .inr rfl, hback⟩

/-- A text spells one word at most. -/
theorem SpelledAs.unique {word' : String} (h : word.toList.all Char.isLower = true)
    (h' : word'.toList.all Char.isLower = true) (hcs : SpelledAs word cs)
    (hcs' : SpelledAs word' cs) : word = word' := by
  rw [← map_toLower_iff word h] at hcs
  rw [← map_toLower_iff word' h', hcs] at hcs'
  exact String.toList_inj.mp hcs'

/-- What spells a word are letters. -/
theorem SpelledAs.isLower_toLower {c : Char} (h : word.toList.all Char.isLower = true)
    (hcs : SpelledAs word cs) (hc : c ∈ cs) : c.toLower.isLower = true := by
  rw [← map_toLower_iff word h] at hcs
  exact List.all_eq_true.mp h _ (hcs ▸ List.mem_map_of_mem hc)

/-- With a long s no word of ASCII letters is spelled. -/
theorem FalseWithLongS.not_spelledAs (hlong : FalseWithLongS cs)
    (h : word.toList.all Char.isLower = true) : ¬SpelledAs word cs := by
  obtain ⟨front, back, -, -, rfl⟩ := hlong
  intro hcs
  have hlower := hcs.isLower_toLower h (List.mem_append_right front List.mem_cons_self)
  revert hlower
  decide

theorem FalseWithLongS.isLower_toLower {c : Char} (hlong : FalseWithLongS cs) (hc : c ∈ cs) :
    c = '\u017f' ∨ c.toLower.isLower = true := by
  obtain ⟨front, back, hfront, hback, rfl⟩ := hlong
  rcases List.mem_append.mp hc with hc | hc
  · exact .inr (hfront.isLower_toLower (by decide) hc)
  · rcases List.mem_cons.mp hc with hc | hc
    · exact .inl hc
    · exact .inr (hback.isLower_toLower (by decide) hc)

end Spelling

end Text

/-- What a value tells of the word that it stands for: which of the three names the word spells in
ASCII letters of either case, or else the word itself. -/
structure Scalar.Names (word : List Char) (value : Scalar) : Prop where
  true_iff : value = .boolean true ↔ Text.SpelledAs "true" word
  false_iff : value = .boolean false ↔ Text.SpelledAs "false" word
  null_iff : value = .null ↔ Text.SpelledAs "null" word
  otherwise : ¬Text.SpelledAs "true" word → ¬Text.SpelledAs "false" word →
    ¬Text.SpelledAs "null" word → value = .string (.ofList word)

namespace Word
open Text Scalar

variable {word : List Char}

theorem name_of_true (h : SpelledAs "true" word) : name word = .boolean true := by
  rw [name, spellsFolded_true.mpr h, (spells_iff (by decide)).mpr h]
  rfl

theorem name_of_false (h : SpelledAs "false" word ∨ FalseWithLongS word) :
    name word = .boolean false := by
  have htrue : spells "true" word = false := by
    rw [Bool.eq_false_iff, ne_eq, spells_iff (by decide)]
    intro htrue
    rcases h with h | h
    · exact absurd (h.unique (by decide) (by decide) htrue) (by decide)
    · exact h.not_spelledAs (by decide) htrue
  rw [name, spellsFolded_false.mpr h, htrue, Bool.or_true, if_pos rfl]

section Others

variable (htrue : ¬SpelledAs "true" word) (hfalse : ¬SpelledAs "false" word)
  (hlong : ¬FalseWithLongS word)
include htrue hfalse hlong

theorem name_of_others : name word =
    if spells "null" word then .null else .string (.ofList word) := by
  have htrue' : spellsFolded "true" word = false := by
    rwa [Bool.eq_false_iff, ne_eq, spellsFolded_true]
  have hfalse' : spellsFolded "false" word = false := by
    rw [Bool.eq_false_iff, ne_eq, spellsFolded_false, not_or]
    exact ⟨hfalse, hlong⟩
  rw [name, htrue', hfalse']
  rfl

theorem name_of_null (h : SpelledAs "null" word) : name word = .null := by
  rw [name_of_others htrue hfalse hlong, (spells_iff (by decide)).mpr h, if_pos rfl]

theorem name_of_no_name (h : ¬SpelledAs "null" word) : name word = .string (.ofList word) := by
  rw [name_of_others htrue hfalse hlong, if_neg fun hnull => h ((spells_iff (by decide)).mp hnull)]

end Others

/-- No name has a point. -/
theorem name_of_point (h : '.' ∈ word) : name word = .string (.ofList word) := by
  have hlower : ¬Char.isLower (Char.toLower '.') = true := by decide
  have hspelled {other : String} (hother : other.toList.all Char.isLower = true) :
      ¬SpelledAs other word := fun hcs => hlower (hcs.isLower_toLower hother h)
  have hlong : ¬FalseWithLongS word := by
    intro hcs
    rcases hcs.isLower_toLower h with hc | hc
    · revert hc
      decide
    · exact hlower hc
  exact name_of_no_name (hspelled (by decide)) (hspelled (by decide)) hlong
    (hspelled (by decide))

/-- The value of a word tells which name the word spells, unless the word is false with a long
s. -/
theorem names_name_iff : Names word (name word) ↔ ¬FalseWithLongS word := by
  constructor
  · intro h hlong
    exact hlong.not_spelledAs (by decide) (h.false_iff.mp (name_of_false (.inr hlong)))
  · intro hlong
    have exclusive {a b : String} (ha : a.toList.all Char.isLower = true)
        (hb : b.toList.all Char.isLower = true) (hne : a ≠ b) (h : SpelledAs a word) :
        ¬SpelledAs b word := fun h' => hne (h.unique ha hb h')
    by_cases htrue : SpelledAs "true" word
    · have hfalse := exclusive (by decide) (by decide) (by decide : "true" ≠ "false") htrue
      have hnull := exclusive (by decide) (by decide) (by decide : "true" ≠ "null") htrue
      rw [name_of_true htrue]
      constructor <;> simp [htrue, hfalse, hnull]
    by_cases hfalse : SpelledAs "false" word
    · have hnull := exclusive (by decide) (by decide) (by decide : "false" ≠ "null") hfalse
      rw [name_of_false (.inl hfalse)]
      constructor <;> simp [htrue, hfalse, hnull]
    by_cases hnull : SpelledAs "null" word
    · rw [name_of_null htrue hfalse hlong hnull]
      constructor <;> simp [htrue, hfalse, hnull]
    · rw [name_of_no_name htrue hfalse hlong hnull]
      constructor <;> simp [htrue, hfalse, hnull]

theorem ofWord_eq_name (hinteger : word ∉ Pattern.integer.matches')
    (hdouble : word ∉ Pattern.double.matches') : ofWord word = name word := by
  rw [← isInteger_iff] at hinteger
  rw [← isDouble_iff] at hdouble
  rw [ofWord, number?, if_neg hinteger, if_neg hdouble, Option.getD_none]

end Word

open Word in
/-- A word that matches neither pattern of numbers is true, false or null exactly if it spells that
name in ASCII letters of either case, and else a string of its characters, except for false with a
long s, which is false too. -/
theorem ofWord_name {word : List Char} (hinteger : word ∉ Pattern.integer.matches')
    (hdouble : word ∉ Pattern.double.matches') :
    (Scalar.Names word (.ofWord word) ↔ ¬Text.FalseWithLongS word) ∧
      (Text.FalseWithLongS word → Scalar.ofWord word = .boolean false) := by
  rw [ofWord_eq_name hinteger hdouble]
  exact ⟨names_name_iff, fun hlong => name_of_false (.inr hlong)⟩

def longFalse : List Char := ['F', 'A', 'L', '\u017f', 'E']

theorem ofWord_name_longFalse :
    longFalse ∉ Pattern.integer.matches' ∧ longFalse ∉ Pattern.double.matches' ∧
      ¬Scalar.Names longFalse (.ofWord longFalse) ∧ Scalar.ofWord longFalse = .boolean false := by
  have hinteger : longFalse ∉ Pattern.integer.matches' := by
    rw [← Word.isInteger_iff]
    decide
  have hdouble : longFalse ∉ Pattern.double.matches' := by
    rw [← Word.isDouble_iff]
    decide
  have hlong : Text.FalseWithLongS longFalse := by
    refine ⟨['F', 'A', 'L'], ['E'], ?_, ?_, rfl⟩
    · exact (Text.spells_iff (by decide)).mp (by decide)
    · exact (Text.spells_iff (by decide)).mp (by decide)
  obtain ⟨hnames, hfalse⟩ := ofWord_name hinteger hdouble
  exact ⟨hinteger, hdouble, fun h => hnames.mp h hlong, hfalse hlong⟩

/-- A word that spells no name in ASCII letters can be false all the same. -/
theorem ofWord_longS :
    ['f', 'a', 'l', '\u017f', 'e'] ∉ Pattern.integer.matches' ∧
      ['f', 'a', 'l', '\u017f', 'e'] ∉ Pattern.double.matches' ∧
      ¬Text.SpelledAs "false" ['f', 'a', 'l', '\u017f', 'e'] ∧
      Scalar.ofWord ['f', 'a', 'l', '\u017f', 'e'] = .boolean false := by
  rw [← Word.isInteger_iff, ← Word.isDouble_iff, ← Text.spells_iff (by decide)]
  decide

end LenientJson
