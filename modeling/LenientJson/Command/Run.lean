import LenientJson.Command.Arguments
import LenientJson.Command.Host
import LenientJson.Text.Utf8

/-!
# Running the command

The input is read and rendered before anything is written, so that a failure of either leaves no
trace but its report. A rendering goes to one file or to the standard output.
-/
namespace LenientJson.Command

/-- Why a job comes to nothing. -/
inductive Failure where
  | file (fault : FileFault)
  | badText
  | document (error : Error)
  deriving DecidableEq, Repr

def Failure.message : Failure → String
  | .file fault => fault.message
  | .badText => "stream did not contain valid UTF-8"
  | .document error => error.message

/-- How a run ends. -/
inductive Status where
  | done
  | failed
  | helped
  | misused
  deriving DecidableEq, Repr

def Status.exitCode : Status → UInt8
  | .done | .helped => 0
  | .failed => 1
  | .misused => 2

def versionText : String := "sjson 0.1.0\n"

/-- The rendering of what has been read. -/
def Job.answer (job : Job) (order : Document → Document) (read : Except FileFault (List UInt8)) :
    Except Failure (List Char) := do
  let bytes ← read.mapError .file
  let text ← (Text.decodeUtf8 bytes).mapError fun _ => .badText
  (job.render order text).mapError .document

variable {m : Type → Type} [Monad m] [Host m]

def Job.read (job : Job) : m (Except FileFault (List UInt8)) :=
  match job.inputFile? with
  | some path => Host.readFile path
  | none => Host.readInput

/-- Puts the rendering in its place. -/
def Job.deliver (job : Job) (rendering : List Char) : m (Except Failure Unit) :=
  match job.outputFile? with
  | none => do
    Host.print rendering
    return .ok ()
  | some path => do
    match ← Host.writeFile path rendering with
    | .error fault => return .error (.file fault)
    | .ok () =>
      Host.print (job.confirmation path)
      return .ok ()

def Job.perform (job : Job) (order : Document → Document) : m (Except Failure Unit) := do
  match job.answer order (← job.read) with
  | .error failure => return .error failure
  | .ok rendering => job.deliver rendering

/-- Runs the command with the given arguments. Members are listed in key order unless another way
is given. -/
def run (arguments : List String) (order : Document → Document := id) : m Status := do
  match Request.ofArguments arguments with
  | .misuse => return .misused
  | .help => return .helped
  | .version =>
    Host.print versionText.toList
    return .done
  | .run job =>
    match ← job.perform order with
    | .ok () => return .done
    | .error failure =>
      Host.report ("ERROR  " ++ failure.message)
      return .failed

end LenientJson.Command
