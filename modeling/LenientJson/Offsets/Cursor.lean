import LenientJson.Offsets.Checked
import LenientJson.Text.Blank

/-!
# Cursors

A cursor is a position within a span of the text. Every cursor that is made is checked: it does not
stand beyond the end of its span, which does not reach beyond the text.
-/
namespace LenientJson.Offsets

structure Cursor where
  position : Nat
  stop : Nat
  deriving DecidableEq, Repr

namespace Cursor

def make (bytes : List UInt8) (position stop : Nat) : Checked Cursor :=
  if position ≤ stop ∧ stop ≤ bytes.length then .ok ⟨position, stop⟩
  else .error (.cursor position stop)

def isAtEnd (cursor : Cursor) : Bool := cursor.stop ≤ cursor.position

def peek (bytes : List UInt8) (cursor : Cursor) : Option Char :=
  if cursor.isAtEnd then none else bytes[cursor.position]?.map asChar

def advanceTo (bytes : List UInt8) (cursor : Cursor) (position : Nat) : Checked Cursor :=
  make bytes (min position cursor.stop) cursor.stop

/-- The cursor behind the character, if that is the next one. -/
def eat? (bytes : List UInt8) (cursor : Cursor) (c : Char) : Checked (Option Cursor) :=
  if cursor.peek bytes = some c then do
    return some (← make bytes (cursor.position + 1) cursor.stop)
  else return none

def skipFrom (bytes : List UInt8) (p : Char → Bool) (position stop : Nat) : Checked Cursor := do
  let cursor ← make bytes position stop
  if position < stop ∧ (cursor.peek bytes).any p = true then skipFrom bytes p (position + 1) stop
  else return cursor
termination_by stop - position

/-- Skips characters of a kind. -/
def skip (bytes : List UInt8) (p : Char → Bool) (cursor : Cursor) : Checked Cursor :=
  skipFrom bytes p cursor.position cursor.stop

/-- The position of the next character that is the given one. -/
def find? (bytes : List UInt8) (cursor : Cursor) (c : Char) : Checked (Option Nat) := do
  let ahead ← window bytes cursor.position cursor.stop
  return (ahead.findIdx? (asChar · == c)).map (cursor.position + ·)

end Cursor

end LenientJson.Offsets
