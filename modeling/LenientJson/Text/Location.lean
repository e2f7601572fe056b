/-!
# Locations in a text

An offset counts bytes of the UTF-8 form; a line and a column count line feeds and characters
from one. An offset inside a character counts that character, and an offset beyond the end is
the end.
-/
namespace LenientJson

namespace Text

/-- The number of bytes of the UTF-8 form. -/
def byteLength : List Char → Nat
  | [] => 0
  | c :: cs => c.utf8Size + byteLength cs

@[simp] theorem byteLength_nil : byteLength [] = 0 := rfl

@[simp] theorem byteLength_cons (c : Char) (cs : List Char) :
    byteLength (c :: cs) = c.utf8Size + byteLength cs := rfl

@[simp] theorem byteLength_append (as bs : List Char) :
    byteLength (as ++ bs) = byteLength as + byteLength bs := by
  induction as with
  | nil => simp
  | cons c as ih => simp [ih, Nat.add_assoc]

/-- The characters that begin before an offset. -/
def before (offset : Nat) : List Char → List Char
  | [] => []
  | c :: cs => if offset = 0 then [] else c :: before (offset - c.utf8Size) cs

theorem before_append (as bs : List Char) : before (byteLength as) (as ++ bs) = as := by
  induction as with
  | nil => cases bs <;> simp [before]
  | cons c as ih =>
    have hc := c.utf8Size_pos
    simp [before, ih]
    omega

end Text

structure Location where
  offset : Nat
  line : Nat
  column : Nat
  deriving DecidableEq, Repr

namespace Location

/-- The location of a byte offset within a text. -/
def of (text : List Char) (offset : Nat) : Location :=
  let before := Text.before offset text
  { offset := min offset (Text.byteLength text)
    line := before.count '\n' + 1
    column := (before.reverse.takeWhile (· != '\n')).length + 1 }

def message (l : Location) : String :=
  "line " ++ toString l.line ++ ", column " ++ toString l.column

end Location

end LenientJson
