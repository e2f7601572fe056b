import LenientJson.Command.Route
import LenientJson.Text.Utf8

/-!
# Worlds

A world is a host without a system behind it: a tree of directories, files and devices, the bytes
of the standard input, and what has been printed and reported. A route is followed name by name,
and only a directory can be passed through. A file is replaced as a whole or left alone.
-/
namespace LenientJson.Command

/-- The devices among the files: one that keeps nothing, one that has no room, and the standard
streams. -/
inductive Device where
  | null
  | full
  | input
  | output
  deriving DecidableEq, Repr

inductive Node where
  | directory
  | file (contents : List UInt8)
  | device (device : Device)
  deriving DecidableEq, Repr

/-- The contents of a file. -/
def Node.file? : Node → Option (List UInt8)
  | .file contents => some contents
  | _ => none

structure World where
  input : List UInt8 := []
  workingDirectory : FilePath := []
  /-- What stands at each place; the first entry of a place counts. -/
  nodes : List (FilePath × Node) := [([], .directory)]
  printed : List Char := []
  reports : List String := []

namespace World

/-- What stands at a place. -/
def node? (w : World) (place : FilePath) : Option Node :=
  (w.nodes.find? fun entry => entry.1 == place).map Prod.snd

/-- The contents of the file at a place. -/
def file? (w : World) (place : FilePath) : Option (List UInt8) := (w.node? place).bind Node.file?

/-- Goes from a place to a name in it. Nothing need stand there yet. -/
def enter (w : World) (place : FilePath) (name : String) : Except FileFault FilePath :=
  match w.node? place with
  | none => .error .notFound
  | some .directory =>
    if name == "." then .ok place
    else if name == ".." then .ok place.dropLast
    else if Route.nameLimit < name.utf8ByteSize then .error .nameTooLong
    else .ok (place ++ [name])
  | some _ => .error .notDirectory

/-- Follows names from the start of a route. -/
def follow (w : World) (route : Route) (names : List String) : Except FileFault FilePath :=
  names.foldlM w.enter (if route.fromRoot then [] else w.workingDirectory)

/-- The place from which a route reads. A slash at the end asks for a directory. -/
def origin (w : World) (route : Route) : Except FileFault FilePath :=
  w.follow route (if route.endsInSlash then route.names ++ ["."] else route.names)

/-- The place to which a route writes. With a slash at the end it is a directory, be there one or
not, as soon as the names before the last lead to one. -/
def target (w : World) (route : Route) : Except FileFault FilePath :=
  if route.endsInSlash then do
    let _ ← w.follow route (route.names.dropLast ++ ["."])
    .error .isDirectory
  else w.follow route route.names

/-- What comes from a device. -/
def received (w : World) : Device → List UInt8
  | .input => w.input
  | _ => []

/-- Hands text to a device. -/
def send (w : World) (text : List Char) : Device → Except FileFault World
  | .full => if text.isEmpty then .ok w else .error .noSpace
  | .output => .ok { w with printed := w.printed ++ text }
  | _ => .ok w

def read (w : World) (path : String) : Except FileFault (List UInt8) := do
  match w.node? (← w.origin (← Route.ofString path)) with
  | none => .error .notFound
  | some .directory => .error .isDirectory
  | some (.file contents) => .ok contents
  | some (.device device) => .ok (w.received device)

/-- The world with a file that holds the given bytes and no others. -/
def store (w : World) (place : FilePath) (contents : List UInt8) : World :=
  { w with nodes := (place, .file contents) :: w.nodes.filter fun entry => entry.1 != place }

def write (w : World) (path : String) (text : List Char) : Except FileFault World := do
  let place ← w.target (← Route.ofString path)
  match w.node? place with
  | some .directory => .error .isDirectory
  | some (.device device) => w.send text device
  | _ => .ok (w.store place (Text.encodeUtf8 text))

instance : Host (StateM World) where
  readInput := fun w => (.ok w.input, w)
  readFile path := fun w => (w.read path, w)
  writeFile path text := fun w =>
    match w.write path text with
    | .ok next => (.ok (), next)
    | .error fault => (.error fault, w)
  print text := fun w => ((), { w with printed := w.printed ++ text })
  report line := fun w => ((), { w with reports := w.reports ++ [line] })

theorem node?_store (w : World) (place other : FilePath) (contents : List UInt8) :
    (w.store place contents).node? other =
      if place = other then some (.file contents) else w.node? other := by
  by_cases h : place = other
  · simp [store, node?, h]
  · have hne : (place == other) = false := by simp [h]
    simp only [store, node?, List.find?_cons, hne, h, if_false, List.find?_filter]
    congr 1
    refine congrArg (fun p => w.nodes.find? p) (funext fun entry => ?_)
    by_cases he : entry.1 = other
    · simp [he, Ne.symm h]
    · simp [he]

theorem file?_store (w : World) (place other : FilePath) (contents : List UInt8) :
    (w.store place contents).file? other =
      if place = other then some contents else w.file? other := by
  rw [file?, node?_store]
  split
  · rfl
  · rfl

end World

end LenientJson.Command
