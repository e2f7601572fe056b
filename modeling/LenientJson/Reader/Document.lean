import LenientJson.Error
import LenientJson.Reader.Level

/-!
# Documents

A document is an object or an array with blanks around it. A blank text is the empty object or
the empty array. An object may also be a lone string, which reaches from its first quote to the
last character of the text; an array may also be a stream of objects without brackets around them.
-/
namespace LenientJson.Reader

/-- The number of levels that a text is read with. Without a limit there are more of them than
characters, so that none is missed. -/
def levels (options : Options) (text : List Char) : Nat :=
  options.maxDepth.getD (text.length + 1)

/-- The bracketed part that is the whole of a span, whose opener stands before `cs`. -/
def wholePart (mode : ScanMode) (bracket : Bracket) (s : Span) (cs : List Char) :
    Except Fault Enclosed := do
  let (part, rest) ← takeEnclosed mode bracket s cs
  if rest.chars.isEmpty then return part
  else .error (.malformed (.trailing bracket) rest.offset)

/-- The text of a lone string behind its first quote: the last character is dropped if it is a
quote. -/
def loneString (cs : List Char) : List Char :=
  if cs.getLast? = some '"' then cs.dropLast else cs

def readObject (options : Options) (text : List Char) : Reading Object :=
  let s := (Span.ofText text).trim
  let limit := levels options text
  match s.chars, limit with
  | [], _ => .ok .empty
  | _ :: _, 0 => .fail ⟨.tooDeep limit, s.offset⟩
  | c :: cs, _ + 1 =>
    if c = '"' then .ok (.scalar none (.string (.ofList (loneString cs))))
    else if c = '\x7b' ∧ s.chars.getLast? = some '\x7d' then do
      let part ← .ofExcept (wholePart options.mode .curly s cs)
      (Level.ofDepth options.mode limit limit).object part
    else .fail (.malformed (.notEnclosed .curly) s.offset)

def readArray (options : Options) (text : List Char) : Reading (List Object) :=
  let s := (Span.ofText text).trim
  let limit := levels options text
  match s.chars, limit with
  | [], _ => .ok []
  | _ :: _, 0 => .fail ⟨.tooDeep limit, s.offset⟩
  | c :: cs, below + 1 =>
    if c = '[' then do
      let part ← .ofExcept (wholePart options.mode .square s cs)
      (Level.ofDepth options.mode limit limit).array part
    else if c = '\x7b' then
      Reading.items (outlineStream options.mode s) (Level.ofDepth options.mode limit below).object
    else .fail (.malformed (.notEnclosed .square) s.offset)

end LenientJson.Reader

namespace LenientJson

/-- Reads an object from a text. -/
def Object.parse (text : List Char) (options : Options := {}) : Except Error Object :=
  (Reader.readObject options text).result.mapError (Error.ofFault text)

/-- Reads an array from a text. -/
def Items.parse (text : List Char) (options : Options := {}) : Except Error (List Object) :=
  (Reader.readArray options text).result.mapError (Error.ofFault text)

def Object.parseNotices (text : List Char) (options : Options := {}) : List Notice :=
  (Reader.readObject options text).notices

def Items.parseNotices (text : List Char) (options : Options := {}) : List Notice :=
  (Reader.readArray options text).notices

namespace Object

/-- Reads an object into another one: members are put one by one, a lone string takes the place
of everything, and a text of white space changes nothing. -/
def merge (o : Object) (text : List Char) (options : Options := {}) : Except Error Object :=
  if text.all Text.isWhiteSpace then .ok o
  else (Object.parse text options).map fun
    | .map members => o.putAll members
    | literal => literal

def mergeNotices (o : Object) (text : List Char) (options : Options := {}) : List Notice :=
  if text.all Text.isWhiteSpace then []
  else
    Object.parseNotices text options ++
      match Object.parse text options with
      | .ok (.map members) => o.putAllNotices members
      | _ => []

end Object

/-- Reads an array behind the elements of another one. -/
def Items.merge (items : List Object) (text : List Char) (options : Options := {}) :
    Except Error (List Object) :=
  (Items.parse text options).map fun more => items ++ more

end LenientJson
