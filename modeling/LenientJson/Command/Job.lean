import LenientJson.Reader.Document
import LenientJson.Tree
import LenientJson.Wire

/-!
# Jobs of the command

A job reads one document and renders it. What it does to a text is decided here, without any
reference to files: the shape is the one asked for or the one that the first character shows, and
the format is one of three. The order in which the compact form lists the members of a map is left
open.
-/
namespace LenientJson.Command

inductive Shape where
  | object
  | array
  deriving DecidableEq, Repr

inductive Format where
  | compact
  | json
  | row
  deriving DecidableEq, Repr

def Format.ofName? : String → Option Format
  | "compact" => some .compact
  | "json" => some .json
  | "row" => some .row
  | _ => none

/-- A document of either shape. -/
inductive Document where
  | object (object : Object)
  | array (items : List Object)

structure Job where
  input : Option String := none
  output : Option String := none
  shape : Option Shape := none
  format : Format := .compact
  options : Options := {}
  deriving DecidableEq, Repr

/-- A text is taken for an array if its first character that is not white space opens one. -/
def Shape.detect (text : List Char) : Shape :=
  if (Text.trimStart Text.isWhiteSpace text).head? = some '[' then .array else .object

def Document.parse (shape : Shape) (text : List Char) (options : Options) :
    Except Error Document :=
  match shape with
  | .object => (Object.empty.merge text options).map .object
  | .array => (Items.parse text options).map .array

def Document.wire : Document → List Char
  | .object o => o.wire
  | .array items => Items.wire items

def Document.toJson : Document → Json
  | .object o => o.toJson
  | .array items => Items.toJson items

def Document.toRow : Document → Except Error Row
  | .object o => o.toRow
  | .array items => Items.toRow items

/-- The compact form takes the members of each map as they are listed; the other forms have an
order of their own. -/
def Document.render (document listed : Document) : Format → Except Error (List Char)
  | .compact => .ok listed.wire
  | .json => .ok document.toJson.pretty
  | .row => document.toRow.map fun row => row.toJson.pretty

/-- The rendering of a text, whose document is listed in the given way. -/
def Job.render (job : Job) (order : Document → Document) (text : List Char) :
    Except Error (List Char) := do
  let document ← Document.parse (job.shape.getD (.detect text)) text job.options
  document.render (order document) job.format

/-- The name stands for the standard stream. -/
def isStandard (name : String) : Bool := name == "-"

/-- The file to be read, unless it is the standard input. -/
def Job.inputFile? (job : Job) : Option String := job.input.filter fun name => !isStandard name

/-- The file to be written, unless it is the standard output. -/
def Job.outputFile? (job : Job) : Option String := job.output.filter fun name => !isStandard name

/-- What is said once a file has been written. -/
def Job.confirmation (job : Job) (path : String) : List Char :=
  ("✔ Rendered " ++ job.input.getD "stdin" ++ " → " ++ path ++ "\n").toList

end LenientJson.Command
