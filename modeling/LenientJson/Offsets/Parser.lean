import LenientJson.Indexed
import LenientJson.Offsets.Cursor
import LenientJson.Offsets.Escape
import LenientJson.Offsets.Scan
import LenientJson.Word

/-!
# The reader by offsets

Objects and arrays are read between two offsets of the text. A bracketed part is looked for by its
parent first, and then read by a call of its own, which looks for its end once more. The calls are
numbered from the inside, so a reader that calls itself too often is in breach.
-/
namespace LenientJson.Offsets

/-- The readers of the parts within a part, which get its offsets and its depth. -/
structure Calls where
  object : (start stop depth : Nat) → Run Object
  array : (start stop depth : Nat) → Run (List Object)

variable {α : Type} (text : List Char) (options : Options)

def malformed (malformation : Malformation) (offset : Nat) : Run α := do
  let location ← locate (Text.encodeUtf8 text) offset
  throw (.malformed malformation.message (some location))

def checkDepth (depth offset : Nat) : Run Unit :=
  match options.maxDepth with
  | some limit =>
    if limit < depth then do
      let location ← locate (Text.encodeUtf8 text) offset
      throw (.depthLimit limit (some location))
    else return ()
  | none => return ()

/-- The position of the closer for an opener. -/
def matching (bracket : Bracket) (start stop : Nat) : Run Nat := do
  match ← findMatching options.mode bracket.opener bracket.closer (Text.encodeUtf8 text) start stop
  with
  | some close => return close
  | none => malformed text (.unmatched bracket) start

/-- The position of the quote for an opening one. -/
def closingQuote (start stop : Nat) : Run Nat := do
  expectOpener (Text.encodeUtf8 text) start '"'
  match ← findClosingQuote (Text.encodeUtf8 text) (start + 1) stop with
  | some close => return close
  | none => malformed text .unterminatedString start

/-- Takes a quoted text at the cursor. -/
def quoted (cursor : Cursor) : Run (List Char × Cursor) := do
  let close ← closingQuote text cursor.position cursor.stop
  let next ← cursor.advanceTo (Text.encodeUtf8 text) (close + 1)
  return (← slice text (cursor.position + 1) close, next)

/-- Has the bracketed part at the cursor read, one level deeper. -/
def nested (bracket : Bracket) (call : (start stop depth : Nat) → Run α) (depth : Nat)
    (cursor : Cursor) : Run (α × Cursor) := do
  let close ← matching text options bracket cursor.position cursor.stop
  let next ← cursor.advanceTo (Text.encodeUtf8 text) (close + 1)
  return (← call cursor.position (close + 1) (depth + 1), next)

/-- Takes the characters up to the next comma and classifies them. -/
def primitive (cursor : Cursor) : Run (Scalar × Cursor) := do
  let stop := (← cursor.find? (Text.encodeUtf8 text) ',').getD cursor.stop
  let next ← cursor.advanceTo (Text.encodeUtf8 text) stop
  let token := Text.trim Text.isWhiteSpace (← slice text cursor.position stop)
  if token.isEmpty then malformed text .missingValue cursor.position
  else return (.ofWord token, next)

def parseKey (cursor : Cursor) : Run (String × Cursor) := do
  if cursor.peek (Text.encodeUtf8 text) = some '"' then
    let (content, next) ← quoted text cursor
    return (.ofList (← unescape content), next)
  else
    match ← cursor.find? (Text.encodeUtf8 text) ':' with
    | none => malformed text .missingKey cursor.position
    | some colon =>
      let next ← cursor.advanceTo (Text.encodeUtf8 text) colon
      let key ← slice text cursor.position colon
      return (.ofList (Text.trimEnd Text.isWhiteSpace key), next)

def parseMemberValue (calls : Calls) (depth : Nat) (cursor : Cursor) : Run (Value × Cursor) := do
  match cursor.peek (Text.encodeUtf8 text) with
  | some '"' =>
    let (content, next) ← quoted text cursor
    return (.scalar (.string (.ofList (← unescape content))), next)
  | some '\x7b' =>
    let (object, next) ← nested text options .curly calls.object depth cursor
    return (.object object, next)
  | some '[' =>
    let (items, next) ← nested text options .square calls.array depth cursor
    return (.array items, next)
  | _ =>
    let (scalar, next) ← primitive text cursor
    return (.scalar scalar, next)

def parseElement (calls : Calls) (depth : Nat) (cursor : Cursor) : Run (Object × Cursor) := do
  match cursor.peek (Text.encodeUtf8 text) with
  | some '"' =>
    let (content, next) ← quoted text cursor
    return (.scalar none (.string (.ofList content)), next)
  | some '\x7b' => nested text options .curly calls.object depth cursor
  | some '[' =>
    let (items, next) ← nested text options .square calls.array depth cursor
    return (Items.fold items, next)
  | _ =>
    let (scalar, next) ← primitive text cursor
    return (.scalar none scalar, next)

def parseMember (calls : Calls) (depth : Nat) (cursor : Cursor) :
    Run ((String × Value) × Cursor) := do
  let (key, behindKey) ← parseKey text cursor
  let atColon ← behindKey.skip (Text.encodeUtf8 text) Text.isBlank
  match ← atColon.eat? (Text.encodeUtf8 text) ':' with
  | none => malformed text .missingColon atColon.position
  | some behindColon =>
    let atValue ← behindColon.skip (Text.encodeUtf8 text) Text.isBlank
    let (value, next) ← parseMemberValue text options calls depth atValue
    return ((key, value), next)

/-- An object of a stream, where nothing but objects may stand. -/
def parseStreamed (calls : Calls) (depth : Nat) (cursor : Cursor) : Run (Object × Cursor) :=
  if cursor.peek (Text.encodeUtf8 text) = some '\x7b' then
    nested text options .curly calls.object depth cursor
  else malformed text .foreignInStream cursor.position

/-- The cursor at the comma or the end that has to stand behind an item. -/
def expectSeparator (siblings : Sibling) (cursor : Cursor) : Run Cursor := do
  let next ← cursor.skip (Text.encodeUtf8 text) Text.isBlank
  if next.isAtEnd ∨ next.peek (Text.encodeUtf8 text) = some ',' then return next
  else malformed text (.unseparated siblings) next.position

/-- Reads items until the end of the span. A round that leaves the cursor where it was, or that
leaves the span, is in breach. -/
def parseItems (siblings : Sibling) (item : Cursor → Run (α × Cursor)) (cursor : Cursor) :
    Run (List α) := do
  let start ← cursor.skip (Text.encodeUtf8 text) Text.isSeparator
  if start.isAtEnd then return []
  let (value, behind) ← item start
  let next ← expectSeparator text siblings behind
  if cursor.position < next.position ∧ next.position ≤ next.stop ∧ next.stop = cursor.stop then
    return value :: (← parseItems siblings item next)
  else throwThe Breach (.standstill next.position)
termination_by cursor.stop - cursor.position

def parseMembers (calls : Calls) (start stop depth : Nat) : Run Object := do
  let cursor ← Cursor.make (Text.encodeUtf8 text) start stop
  let members ← parseItems text .members (parseMember text options calls depth) cursor
  return .map (Members.ofList members)

def parseElements (calls : Calls) (start stop depth : Nat) : Run (List Object) := do
  let cursor ← Cursor.make (Text.encodeUtf8 text) start stop
  parseItems text .elements (parseElement text options calls depth) cursor

def parseStream (calls : Calls) (start stop depth : Nat) : Run (List Object) := do
  let cursor ← Cursor.make (Text.encodeUtf8 text) start stop
  parseItems text .objects (parseStreamed text options calls depth) cursor

/-- The inside of a part that is to be all of a span: the offsets of what stands between its
brackets. -/
def wholeSpan (bracket : Bracket) (start stop : Nat) : Run (Nat × Nat) := do
  let close ← matching text options bracket start stop
  if close = (← minus stop 1) then return (start + 1, close)
  else malformed text (.trailing bracket) (close + 1)

def endsInQuote (bytes : List UInt8) (start stop : Nat) : Checked Bool := do
  if 2 ≤ (← minus stop start) then return asChar (← byteAt bytes (← minus stop 1)) = '"'
  else return false

/-- The text of a lone string, without a quote at its end. -/
def loneString (start stop : Nat) : Run Object := do
  let inner ← if ← endsInQuote (Text.encodeUtf8 text) start stop then minus stop 1 else pure stop
  return .scalar none (.string (.ofList (← slice text (start + 1) inner)))

def isBraced (bytes : List UInt8) (start stop : Nat) : Checked Bool := do
  if asChar (← byteAt bytes start) = '\x7b' then
    return asChar (← byteAt bytes (← minus stop 1)) = '\x7d'
  else return false

def parseObject (calls : Calls) (start stop depth : Nat) : Run Object := do
  let bytes := Text.encodeUtf8 text
  let (start, stop) ← trimSpan bytes start stop
  if start = stop then return .empty
  checkDepth text options depth start
  if asChar (← byteAt bytes start) = '"' then loneString text start stop
  else if ← isBraced bytes start stop then
    let (start, stop) ← wholeSpan text options .curly start stop
    parseMembers text options calls start stop depth
  else malformed text (.notEnclosed .curly) start

def parseArray (calls : Calls) (start stop depth : Nat) : Run (List Object) := do
  let bytes := Text.encodeUtf8 text
  let (start, stop) ← trimSpan bytes start stop
  if start = stop then return []
  checkDepth text options depth start
  match asChar (← byteAt bytes start) with
  | '[' =>
    let (start, stop) ← wholeSpan text options .square start stop
    parseElements text options calls start stop depth
  | '\x7b' => parseStream text options calls start stop depth
  | _ => malformed text (.notEnclosed .square) start

/-- The readers that call themselves at most so many times within each other. -/
def calls : Nat → Calls
  | 0 => ⟨fun _ _ _ => throwThe Breach .nesting, fun _ _ _ => throwThe Breach .nesting⟩
  | n + 1 => ⟨parseObject text options (calls n), parseArray text options (calls n)⟩

/-- Reads an object by offsets, with at most one call more than there are bytes. -/
def readObject : Checked (Except Error Object) :=
  let length := (Text.encodeUtf8 text).length
  ((calls text options (length + 1)).object 0 length 1).run

def readArray : Checked (Except Error (List Object)) :=
  let length := (Text.encodeUtf8 text).length
  ((calls text options (length + 1)).array 0 length 1).run

end LenientJson.Offsets
