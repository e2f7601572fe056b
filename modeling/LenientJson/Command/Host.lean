/-!
# Hosts of the command

The command meets its surroundings only through a host: it reads the standard input or a file,
writes a file, prints and reports errors.
-/
namespace LenientJson.Command

/-- Why a file cannot be used. -/
inductive FileFault where
  | notFound
  | isDirectory
  | notDirectory
  | nameTooLong
  | noSpace
  | other (message : String)
  deriving DecidableEq, Repr

def FileFault.message : FileFault → String
  | .notFound => "No such file or directory (os error 2)"
  | .isDirectory => "Is a directory (os error 21)"
  | .notDirectory => "Not a directory (os error 20)"
  | .nameTooLong => "File name too long (os error 36)"
  | .noSpace => "No space left on device (os error 28)"
  | .other message => message

class Host (m : Type → Type) where
  readInput : m (Except FileFault (List UInt8))
  readFile : String → m (Except FileFault (List UInt8))
  writeFile : String → List Char → m (Except FileFault Unit)
  print : List Char → m Unit
  report : String → m Unit

end LenientJson.Command
