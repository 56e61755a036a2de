import SourceRepair.Failure
import SourceRepair.Glob.Basic

/-!
# Which files are worked on

Patterns are compared with the path from the root of the project. A pattern without a slash may also
match the name of the file alone.
-/

namespace SourceRepair

structure Filter where
  root : Path
  includes : List Glob := []
  excludes : List Glob := []
deriving DecidableEq, Repr, Inhabited

namespace Filter

/-- Reads patterns. -/
def readGlobs (sources : List String) : Except Failure (List Glob) :=
  sources.mapM fun source =>
    match Glob.read source with
    | .ok g => .ok g
    | .error fault => .error (.config ("glob \x27" ++ source ++ "\x27: " ++ fault.message))

def ofPatterns (root : Path) (includes excludes : List String) : Except Failure Filter := do
  return ⟨root, ← readGlobs includes, ← readGlobs excludes⟩

/-- The names on the way from the root to a path. -/
def relative (f : Filter) (p : Path) : List Char :=
  let inside := if p.isAbsolute then (p.relativeTo? f.root).getD p else p
  let names := inside.components.filterMap fun
    | .name s => some s
    | _ => none
  (String.intercalate "/" names).toList

/-- The last name of a path. -/
def lastName (relative : List Char) : List Char :=
  (relative.reverse.takeWhile (· != '/')).reverse

def isMatch (g : Glob) (relative : List Char) : Bool :=
  g.isMatch relative || (!g.source.toList.contains '/' && g.isMatch (lastName relative))

def isExcluded (f : Filter) (p : Path) : Bool := f.excludes.any (isMatch · (f.relative p))

/-- One of the patterns includes the file, or there are none. -/
def isIncluded (f : Filter) (p : Path) : Bool :=
  f.includes.isEmpty || f.includes.any (isMatch · (f.relative p))

/-- The file may be worked on. -/
def allows (f : Filter) (p : Path) : Bool := !f.isExcluded p && f.isIncluded p

end Filter

end SourceRepair
