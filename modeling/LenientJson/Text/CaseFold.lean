/-!
# Comparing words without regard to case

Two comparisons with an ASCII word are used. The ASCII one lowers the letters A to Z. The Unicode
one uses simple case folding, under which two characters beyond ASCII fold to ASCII letters: the
long s and the Kelvin sign.
-/
namespace LenientJson.Text

/-- Simple case folding, as far as it leads to ASCII letters. -/
def foldCase (c : Char) : Char :=
  if c = '\u017f' then 's' else if c = '\u212a' then 'k' else c.toLower

/-- Whether the characters spell a lower-case ASCII word, up to ASCII case. -/
def spells (word : String) (cs : List Char) : Bool := cs.map Char.toLower == word.toList

/-- Whether the characters spell a lower-case ASCII word, up to simple case folding. -/
def spellsFolded (word : String) (cs : List Char) : Bool := cs.map foldCase == word.toList

end LenientJson.Text
