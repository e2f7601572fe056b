/-!
# UTF-8

Bytes are read one at a time. Between characters the next byte must be an ASCII character or lead
a sequence of two to four; within a sequence the bytes still owed are known, and the first of them
has a range of its own, which shuts out overlong forms, surrogates and code points beyond the
last. A fault is reported at the first byte of its sequence.
-/
namespace LenientJson.Text

/-- Where bytes cease to be UTF-8: the offset of the bad sequence and the number of its bytes, or
no number where the bytes end within it. -/
structure Utf8Fault where
  offset : Nat
  length : Option Nat
  deriving DecidableEq, Repr

def Utf8Fault.message (fault : Utf8Fault) : String :=
  match fault.length with
  | some n =>
    "invalid utf-8 sequence of " ++ toString n ++ " bytes from index " ++ toString fault.offset
  | none => "incomplete utf-8 byte sequence from index " ++ toString fault.offset

/-- A sequence that has begun: the bytes still owed, the range of the next one, the bits so far
and the number of bytes taken. -/
structure Utf8Sequence where
  owed : Nat
  least : Nat
  greatest : Nat
  bits : Nat
  taken : Nat

/-- The sequence that a byte leads. -/
def Utf8Sequence.lead? (b : Nat) : Option Utf8Sequence :=
  if 0xC2 ≤ b ∧ b ≤ 0xDF then some ⟨1, 0x80, 0xBF, b - 0xC0, 1⟩
  else if 0xE0 ≤ b ∧ b ≤ 0xEF then
    some ⟨2, if b = 0xE0 then 0xA0 else 0x80, if b = 0xED then 0x9F else 0xBF, b - 0xE0, 1⟩
  else if 0xF0 ≤ b ∧ b ≤ 0xF4 then
    some ⟨3, if b = 0xF0 then 0x90 else 0x80, if b = 0xF4 then 0x8F else 0xBF, b - 0xF0, 1⟩
  else none

/-- The sequence behind one more byte. -/
def Utf8Sequence.extend (s : Utf8Sequence) (b : Nat) : Utf8Sequence :=
  ⟨s.owed - 1, 0x80, 0xBF, s.bits * 64 + (b - 0x80), s.taken + 1⟩

/-- Reads characters from the given offset on, between characters or within a sequence. -/
def decodeFrom (offset : Nat) : Option Utf8Sequence → List UInt8 → Except Utf8Fault (List Char)
  | none, [] => .ok []
  | some _, [] => .error ⟨offset, none⟩
  | none, byte :: rest =>
    if byte.toNat < 0x80 then
      (decodeFrom (offset + 1) none rest).map (Char.ofNat byte.toNat :: ·)
    else
      match Utf8Sequence.lead? byte.toNat with
      | some s => decodeFrom offset (some s) rest
      | none => .error ⟨offset, some 1⟩
  | some s, byte :: rest =>
    if s.least ≤ byte.toNat ∧ byte.toNat ≤ s.greatest then
      let next := s.extend byte.toNat
      if next.owed = 0 then
        (decodeFrom (offset + next.taken) none rest).map (Char.ofNat next.bits :: ·)
      else decodeFrom offset (some next) rest
    else .error ⟨offset, some s.taken⟩

def decodeUtf8 (bytes : List UInt8) : Except Utf8Fault (List Char) := decodeFrom 0 none bytes

def encodeUtf8 (cs : List Char) : List UInt8 := cs.flatMap String.utf8EncodeChar

end LenientJson.Text
