import LenientJson.Indexed
import LenientJson.Reader.Reading
import LenientJson.Word

/-!
# Levels of nesting

A level reads bracketed parts. It rests on the level below it, by which the parts within are read,
and the lowest level refuses every part. So the number of levels is at once the limit of nesting
and the measure by which reading ends.
-/
namespace LenientJson.Reader

structure Level where
  object : Enclosed → Reading Object
  array : Enclosed → Reading (List Object)

namespace Level

/-- No part may be nested here. -/
def refuse (limit : Nat) : Level where
  object part := .fail ⟨.tooDeep limit, part.opener⟩
  array part := .fail ⟨.tooDeep limit, part.opener⟩

def word (text : List Char) : Reading Scalar := .noted (Scalar.noticesOfWord text) (.ofWord text)

/-- A member of an object; the text of a string is unescaped. -/
def member (below : Level) : Piece → Reading Value
  | .quoted text => .ok (.scalar (.string (.ofList (Text.unescape text))))
  | .word text => return .scalar (← word text)
  | .enclosed .curly part => return .object (← below.object part)
  | .enclosed .square part => return .array (← below.array part)

/-- An element of an array; the text of a string is taken as it is, and an array is folded. -/
def element (below : Level) : Piece → Reading Object
  | .quoted text => .ok (.scalar none (.string (.ofList text)))
  | .word text => return .scalar none (← word text)
  | .enclosed .curly part => below.object part
  | .enclosed .square part => do
    let items ← below.array part
    .noted (Items.foldNotices items) (Items.fold items)

def namedMember (below : Level) : String × Piece → Reading (String × Value)
  | (name, piece) => return (name, ← below.member piece)

/-- The level on top of another. -/
def above (mode : ScanMode) (below : Level) : Level where
  object part := do
    let members ← Reading.items (outlineMembers mode part.body) below.namedMember
    return .map (Members.ofList members)
  array part := Reading.items (outlineElements mode part.body) below.element

/-- The level under which the given number of parts may be nested, the first included. -/
def ofDepth (mode : ScanMode) (limit : Nat) : Nat → Level
  | 0 => refuse limit
  | depth + 1 =>
    -- The levels below are built only when a part is read.
    { object := fun part => (above mode (ofDepth mode limit depth)).object part
      array := fun part => (above mode (ofDepth mode limit depth)).array part }

theorem ofDepth_succ (mode : ScanMode) (limit depth : Nat) :
    ofDepth mode limit (depth + 1) = above mode (ofDepth mode limit depth) := rfl

end Level

end LenientJson.Reader
