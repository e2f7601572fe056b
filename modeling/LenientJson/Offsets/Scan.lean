import LenientJson.Offsets.Checked
import LenientJson.Options
import LenientJson.Text.Blank

/-!
# Scans over bytes

The ends of quoted texts and of bracketed parts are found by looking at one byte after the other.
Whether a byte is escaped is asked of the bytes before it, each time anew.
-/
namespace LenientJson.Offsets

/-- Whether an odd run of backslashes stands directly before the offset. -/
def isEscaped (bytes : List UInt8) (i : Nat) : Checked Bool := do
  let front ← window bytes 0 i
  return (front.reverse.takeWhile (asChar · == '\\')).length % 2 == 1

/-- What a byte that is not escaped does to the number of open brackets and to the string state of
a scan. Nothing is left where the byte closes the first bracket. -/
def tally (mode : ScanMode) (opener closer c : Char) (depth : Nat) (quoted : Bool) :
    Checked (Option (Nat × Bool)) :=
  if mode = .stringAware ∧ c = '"' then return some (depth, !quoted)
  else if quoted then return some (depth, quoted)
  else if c = opener then return some (depth + 1, quoted)
  else if c = closer then do
    let left ← minus depth 1
    return if left = 0 then none else some (left, quoted)
  else return some (depth, quoted)

def matchFrom (mode : ScanMode) (opener closer : Char) (bytes : List UInt8) (stop i depth : Nat)
    (quoted : Bool) : Checked (Option Nat) :=
  if i < stop then
    match bytes[i]? with
    | none => return none
    | some byte => do
      if ← isEscaped bytes i then matchFrom mode opener closer bytes stop (i + 1) depth quoted
      else
        match ← tally mode opener closer (asChar byte) depth quoted with
        | none => return some i
        | some (depth, quoted) => matchFrom mode opener closer bytes stop (i + 1) depth quoted
  else return none
termination_by stop - i

/-- The position of the closer for the opener at a position, before `stop`. -/
def findMatching (mode : ScanMode) (opener closer : Char) (bytes : List UInt8) (start stop : Nat) :
    Checked (Option Nat) := do
  expectOpener bytes start opener
  matchFrom mode opener closer bytes stop (start + 1) 1 false

/-- The position of the first quote from a position on that is not escaped, before `stop`. -/
def findClosingQuote (bytes : List UInt8) (start stop : Nat) : Checked (Option Nat) :=
  if start < stop then do
    match (← window bytes start stop).findIdx? (asChar · == '"') with
    | none => return none
    | some ahead =>
      if ← isEscaped bytes (start + ahead) then findClosingQuote bytes (start + ahead + 1) stop
      else return some (start + ahead)
  else return none
termination_by stop - start

/-- The first position that is not blank, or `stop`. -/
def skipBlanks (bytes : List UInt8) (start stop : Nat) : Checked Nat :=
  if start < stop then do
    if Text.isBlank (asChar (← byteAt bytes start)) then skipBlanks bytes (start + 1) stop
    else return start
  else return start
termination_by stop - start

/-- The end of what is left when blanks are dropped in front of the given end. -/
def dropBlanks (bytes : List UInt8) (start : Nat) : Nat → Checked Nat
  | 0 => return 0
  | last + 1 =>
    if start < last + 1 then do
      if Text.isBlank (asChar (← byteAt bytes last)) then dropBlanks bytes start last
      else return last + 1
    else return last + 1

def trimSpan (bytes : List UInt8) (start stop : Nat) : Checked (Nat × Nat) := do
  let start ← skipBlanks bytes start stop
  return (start, ← dropBlanks bytes start stop)

end LenientJson.Offsets
