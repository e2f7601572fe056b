import LenientJson.Command.Job
import LenientJson.Number.Reading

/-!
# Arguments of the command

Arguments are taken from left to right. A long option begins with two hyphens and may carry its
value behind an equals sign; one-letter options may be run together, and the first that takes a
value takes the rest. A value in an argument of its own must not begin with a hyphen, except for
the lone hyphen. Behind a double hyphen nothing is an option. No option may be repeated and at
most one input may be named; some options exclude each other.
-/
namespace LenientJson.Command

inductive Flag where
  | array
  | object
  | stringAware
  | noDepthLimit
  deriving DecidableEq, Repr

inductive Setting where
  | output
  | format
  | maxDepth
  deriving DecidableEq, Repr

/-- What an option asks for. -/
inductive Switch where
  | flag (flag : Flag)
  | setting (setting : Setting)
  | help
  | version
  deriving DecidableEq, Repr

def Switch.ofName? : String → Option Switch
  | "output" => some (.setting .output)
  | "format" => some (.setting .format)
  | "max-depth" => some (.setting .maxDepth)
  | "array" => some (.flag .array)
  | "object" => some (.flag .object)
  | "string-aware" => some (.flag .stringAware)
  | "no-depth-limit" => some (.flag .noDepthLimit)
  | "help" => some .help
  | "version" => some .version
  | _ => none

def Switch.ofLetter? : Char → Option Switch
  | 'o' => some (.setting .output)
  | 'f' => some (.setting .format)
  | 'a' => some (.flag .array)
  | 'h' => some .help
  | 'V' => some .version
  | _ => none

/-- What the arguments ask for. -/
inductive Request where
  | run (job : Job)
  | help
  | version
  | misuse
  deriving DecidableEq, Repr

/-- What has been given so far. -/
structure Arguments where
  flags : List Flag := []
  input : Option String := none
  output : Option String := none
  format : Option Format := none
  maxDepth : Option Nat := none
  deriving DecidableEq, Repr

namespace Arguments

/-- A natural number of 64 bits, perhaps behind a plus. -/
def depth? (value : String) : Option Nat :=
  let numeral := match value.toList with
    | '+' :: rest => rest
    | cs => cs
  let n := Digits.value numeral
  if Digits.isNumeral numeral ∧ n < UInt64.size then some n else none

def raise (a : Arguments) (flag : Flag) : Option Arguments :=
  if flag ∈ a.flags then none else some { a with flags := flag :: a.flags }

def assign (a : Arguments) (setting : Setting) (value : String) : Option Arguments :=
  match setting with
  | .output => if a.output.isSome then none else some { a with output := some value }
  | .format =>
    if a.format.isSome then none
    else (Format.ofName? value).map fun format => { a with format := some format }
  | .maxDepth =>
    if a.maxDepth.isSome then none
    else (depth? value).map fun depth => { a with maxDepth := some depth }

def name (a : Arguments) (input : String) : Option Arguments :=
  if a.input.isSome then none else some { a with input := some input }

/-- Options that exclude each other. -/
def conflicting (a : Arguments) : Bool :=
  (a.flags.contains .array && a.flags.contains .object) ||
    (a.maxDepth.isSome && a.flags.contains .noDepthLimit)

def shape? (a : Arguments) : Option Shape :=
  if a.flags.contains .array then some .array
  else if a.flags.contains .object then some .object
  else none

def options (a : Arguments) : Options where
  mode := if a.flags.contains .stringAware then .stringAware else .legacy
  maxDepth :=
    if a.flags.contains .noDepthLimit then none
    else a.maxDepth.or ({} : Options).maxDepth

def finish (a : Arguments) : Request :=
  if a.conflicting then .misuse
  else .run { input := a.input, output := a.output, shape := a.shape?,
              format := a.format.getD .compact, options := a.options }

/-- Where an argument leads: on, to a value in the next argument, or to the end. -/
inductive Step where
  | next (a : Arguments)
  | awaits (a : Arguments) (setting : Setting)
  | stop (request : Request)

def Step.ofOption : Option Arguments → Step
  | some a => .next a
  | none => .stop .misuse

/-- A long option, with the value behind its equals sign. -/
def takeLong (a : Arguments) (name : String) (value : Option String) : Step :=
  match Switch.ofName? name, value with
  | some (.setting setting), some value => .ofOption (a.assign setting value)
  | some (.setting setting), none => .awaits a setting
  | some (.flag flag), none => .ofOption (a.raise flag)
  | some .help, none => .stop .help
  | some .version, none => .stop .version
  | _, _ => .stop .misuse

/-- Letters run together. -/
def takeLetters (a : Arguments) : List Char → Step
  | [] => .next a
  | letter :: rest =>
    match Switch.ofLetter? letter with
    | some (.setting setting) =>
      match rest with
      | [] => .awaits a setting
      | '=' :: value => .ofOption (a.assign setting (.ofList value))
      | value => .ofOption (a.assign setting (.ofList value))
    | some (.flag flag) =>
      match a.raise flag with
      | some a => takeLetters a rest
      | none => .stop .misuse
    | some .help => .stop .help
    | some .version => .stop .version
    | none => .stop .misuse

/-- One argument before any double hyphen. -/
def take (a : Arguments) (argument : String) : Step :=
  match argument.toList with
  | '-' :: '-' :: long =>
    let value := match long.dropWhile (· != '=') with
      | [] => none
      | _ :: value => some (String.ofList value)
    a.takeLong (.ofList (long.takeWhile (· != '='))) value
  | '-' :: letter :: letters => a.takeLetters (letter :: letters)
  | _ => .ofOption (a.name argument)

/-- Whether an argument can be the value of the option before it. -/
def isValue (argument : String) : Bool := isStandard argument || argument.toList.head? != some '-'

/-- The arguments behind a double hyphen. -/
def takeNames (a : Arguments) : List String → Request
  | [] => a.finish
  | argument :: rest =>
    match a.name argument with
    | some a => takeNames a rest
    | none => .misuse

def takeAll (a : Arguments) : List String → Request
  | [] => a.finish
  | argument :: rest =>
    if argument == "--" then takeNames a rest
    else
      match a.take argument with
      | .next a => takeAll a rest
      | .stop request => request
      | .awaits a setting =>
        match rest with
        | [] => .misuse
        | value :: rest =>
          if isValue value then
            match a.assign setting value with
            | some a => takeAll a rest
            | none => .misuse
          else .misuse

end Arguments

/-- What a list of arguments asks for. -/
def Request.ofArguments (arguments : List String) : Request := Arguments.takeAll {} arguments

end LenientJson.Command
