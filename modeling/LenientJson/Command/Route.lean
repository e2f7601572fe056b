import LenientJson.Command.Host

/-!
# Routes to files

A route is the path of a file as it is written: where it starts, the names between its slashes,
and whether it ends in a slash. Slashes side by side count as one. A route says nothing about
what stands at its end, or whether anything does.
-/
namespace LenientJson.Command

/-- The names from the root to a place. -/
abbrev FilePath := List String

structure Route where
  fromRoot : Bool
  names : List String
  endsInSlash : Bool
  deriving DecidableEq, Repr

namespace Route

/-- The greatest number of bytes in a name. -/
def nameLimit : Nat := 255

/-- The number of bytes at which a path is too long. -/
def pathLimit : Nat := 4096

/-- The runs of characters between slashes, empty ones included. -/
def runs : List Char → List (List Char)
  | [] => [[]]
  | c :: cs =>
    if c = '/' then [] :: runs cs
    else
      match runs cs with
      | [] => [[c]]
      | first :: rest => (c :: first) :: rest

/-- The names of a path. -/
def namesIn (path : List Char) : List String :=
  ((runs path).filter fun run => !run.isEmpty).map String.ofList

/-- The route that a path describes. The empty path leads nowhere. -/
def ofString (path : String) : Except FileFault Route :=
  let cs := path.toList
  if cs.isEmpty then .error .notFound
  else if pathLimit ≤ path.utf8ByteSize then .error .nameTooLong
  else
    .ok { fromRoot := cs.head? = some '/'
          names := namesIn cs
          endsInSlash := cs.getLast? = some '/' }

end Route

end LenientJson.Command
