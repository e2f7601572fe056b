import LenientJson.Command.Run

/-!
# The program

The command run on the real standard streams and files.
-/
namespace LenientJson.Command

/-- The number of a system error, which may come with its sign turned. -/
def errorNumber (code : UInt32) : Nat :=
  if code.toNat < 0x80000000 then code.toNat else UInt32.size - code.toNat

def FileFault.ofNumber (number : Nat) (detail : String) : FileFault :=
  match number with
  | 2 => .notFound
  | 20 => .notDirectory
  | 21 => .isDirectory
  | 28 => .noSpace
  | 36 => .nameTooLong
  | _ => .other (detail ++ " (os error " ++ toString number ++ ")")

/-- The fault that an error of the system stands for. -/
def FileFault.ofSystem : IO.Error → FileFault
  | .noFileOrDirectory _ code detail
  | .inappropriateType _ code detail
  | .invalidArgument _ code detail
  | .resourceExhausted _ code detail => .ofNumber (errorNumber code) detail
  | .permissionDenied _ code _ => .ofNumber (errorNumber code) "Permission denied"
  | unknown => .other (toString unknown)

/-- Carries out an action whose failure is an answer. -/
def attempt {α : Type} (action : IO α) : IO (Except FileFault α) := do
  match ← action.toBaseIO with
  | .ok value => return .ok value
  | .error failure => return .error (.ofSystem failure)

instance : Host IO where
  readInput := attempt do return (← (← IO.getStdin).readBinToEnd).toList
  readFile path := attempt do return (← IO.FS.readBinFile path).toList
  writeFile path text := attempt <| IO.FS.withFile path .write fun file => do
    file.putStr (.ofList text)
    file.flush
  print text := do
    (← IO.getStdout).putStr (.ofList text)
    (← IO.getStdout).flush
  report line := do (← IO.getStderr).putStrLn line

def usage : String :=
  "Usage: sjson [OPTIONS] [INPUT]\n\n" ++
  "  -o, --output <file>       write to a file instead of the standard output\n" ++
  "  -a, --array               read an array\n" ++
  "      --object              read an object\n" ++
  "  -f, --format <format>     compact, json or row\n" ++
  "      --string-aware        skip brackets within quoted strings\n" ++
  "      --max-depth <number>  the greatest nesting depth\n" ++
  "      --no-depth-limit      no limit of nesting\n" ++
  "  -h, --help                show this text\n" ++
  "  -V, --version             show the version\n"

end LenientJson.Command

def main (arguments : List String) : IO UInt32 := do
  let status ← LenientJson.Command.run arguments
  match status with
  | .helped => IO.print LenientJson.Command.usage
  | .misused => IO.eprint LenientJson.Command.usage
  | _ => pure ()
  return status.exitCode.toUInt32
