/-!
# Options of reading
-/
namespace LenientJson

/-- How quotes are treated while the end of a bracketed part is sought: either they are
characters like others, so that raw brackets inside a string count, or strings are skipped. -/
inductive ScanMode where
  | legacy
  | stringAware
  deriving DecidableEq, Repr, Inhabited

structure Options where
  mode : ScanMode := .legacy
  /-- The greatest number of nested containers, if there is one. -/
  maxDepth : Option Nat := some 256
  deriving DecidableEq, Repr, Inhabited

end LenientJson
