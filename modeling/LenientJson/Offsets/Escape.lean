import LenientJson.Offsets.Checked
import LenientJson.Text.Escape

/-!
# Escaping in place

Text is escaped and unescaped by copying the slices between the characters that are treated.
-/
namespace LenientJson.Offsets

/-- Escapes the rest of a text: `out` is done, and what stands from `start` on is still to be
copied. -/
def escapeFrom (text out : List Char) (start i : Nat) : List UInt8 → Checked (List Char)
  | [] =>
    if start < (Text.encodeUtf8 text).length then do
      return out ++ (← slice text start (Text.encodeUtf8 text).length)
    else return out
  | byte :: rest =>
    if Text.isEscaped (asChar byte) then do
      let copied ← if start < i then slice text start i else pure []
      escapeFrom text (out ++ copied ++ ['\\', asChar byte]) (i + 1) (i + 1) rest
    else escapeFrom text out start (i + 1) rest

def escape (text : List Char) : Checked (List Char) :=
  escapeFrom text [] 0 0 (Text.encodeUtf8 text)

/-- Whether a backslash stands at the position and one of the seven characters behind it. -/
def isEscapePair (bytes : List UInt8) (i : Nat) : Checked Bool := do
  if asChar (← byteAt bytes i) = '\\' ∧ i + 1 < bytes.length then
    return Text.isEscaped (asChar (← byteAt bytes (i + 1)))
  else return false

def unescapeFrom (text out : List Char) (start i : Nat) : Checked (List Char) :=
  if i < (Text.encodeUtf8 text).length then do
    if ← isEscapePair (Text.encodeUtf8 text) i then
      unescapeFrom text (out ++ (← slice text start i)) (i + 1) (i + 2)
    else unescapeFrom text out start (i + 1)
  else do return out ++ (← slice text start (Text.encodeUtf8 text).length)
termination_by (Text.encodeUtf8 text).length - i

/-- A text without a backslash is not copied at all. -/
def unescape (text : List Char) : Checked (List Char) :=
  if (Text.encodeUtf8 text).any (asChar · == '\\') then unescapeFrom text [] 0 0 else return text

end LenientJson.Offsets
