import LenientJson.Error
import LenientJson.Text.Utf8

/-!
# Checked access by offsets

A text can also be read in place, by byte offsets into its UTF-8 form, without a copy of any part
of it. Here every access of such a reader is checked: one beyond the bytes or within a character
is a breach, which ends the run and is told apart from the errors of a document.
-/
namespace LenientJson.Offsets

/-- What a reader by offsets must never do. -/
inductive Breach where
  | index (i : Nat)
  | window (start stop : Nat)
  | slice (start stop : Nat)
  | cursor (position stop : Nat)
  | opener (i : Nat)
  | underflow
  | standstill (position : Nat)
  | nesting
  deriving DecidableEq, Repr

abbrev Checked := Except Breach

/-- A run that may also end in an error of the document. -/
abbrev Run := ExceptT Error Checked

/-- A byte as the character of its code. Only ASCII characters are compared in this way, and no
byte of another character is equal to one. -/
def asChar (byte : UInt8) : Char := Char.ofNat byte.toNat

def byteAt (bytes : List UInt8) (i : Nat) : Checked UInt8 :=
  match bytes[i]? with
  | some byte => .ok byte
  | none => .error (.index i)

def window (bytes : List UInt8) (start stop : Nat) : Checked (List UInt8) :=
  if start ≤ stop ∧ stop ≤ bytes.length then .ok ((bytes.take stop).drop start)
  else .error (.window start stop)

/-- Whether a byte continues a character that an earlier one has begun. -/
def isContinuation (byte : UInt8) : Bool := byte &&& 0xC0 == 0x80

/-- Whether a character begins at the offset, or the bytes end there. -/
def isCharBoundary (bytes : List UInt8) (i : Nat) : Bool :=
  i == 0 || i == bytes.length || bytes[i]?.any (!isContinuation ·)

/-- The characters between two offsets. -/
def slice (text : List Char) (start stop : Nat) : Checked (List Char) :=
  let bytes := Text.encodeUtf8 text
  if start ≤ stop ∧ stop ≤ bytes.length ∧ isCharBoundary bytes start ∧
      isCharBoundary bytes stop then
    .ok ((Text.before stop text).drop (Text.before start text).length)
  else .error (.slice start stop)

def minus (a b : Nat) : Checked Nat := if b ≤ a then .ok (a - b) else .error .underflow

/-- A scan has to begin at the opener that it looks for. -/
def expectOpener (bytes : List UInt8) (i : Nat) (c : Char) : Checked Unit :=
  if bytes[i]?.map asChar = some c then .ok () else .error (.opener i)

/-- The position of the last byte that is the character. -/
def findLast? (c : Char) (bytes : List UInt8) : Option Nat :=
  (bytes.reverse.findIdx? (asChar · == c)).map (bytes.length - 1 - ·)

/-- The location of an offset. Line feeds are counted up to it, and the characters of its line are
the bytes that do not continue one. -/
def locate (bytes : List UInt8) (offset : Nat) : Checked Location := do
  let offset := min offset bytes.length
  let front ← window bytes 0 offset
  let lineStart := ((findLast? '\n' front).map (· + 1)).getD 0
  let line ← window front lineStart front.length
  return ⟨offset, front.countP (asChar · == '\n') + 1, line.countP (!isContinuation ·) + 1⟩

end LenientJson.Offsets
