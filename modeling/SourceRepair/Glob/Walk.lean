import SourceRepair.Disk.Program
import SourceRepair.Filter

/-!
# Files that match a pattern

The pattern is followed component by component. Where a component has no wildcard the directory need
not be read, and two stars lead into every directory below.
-/

namespace SourceRepair.Glob

open Disk (Program)

/-- More names than this no path has that the system takes. -/
def depthLimit : Nat := 4096

/-- The path of an entry of a directory. -/
def entry (directory : Path) (name : String) : Path :=
  if directory.text == "." then ⟨name⟩ else directory.join ⟨name⟩

/-- Goes on behind a path that matched: it is a result, or the rest of the pattern goes on in it. -/
def goOn (fill : List Glob → Path → Bool → Program (List Path)) (rest : List Glob) (p : Path) :
    Program (List Path) := do
  if rest.isEmpty then return [p] else fill rest p (← Program.isDirectory p)

/-- Compares the name of a path with the first component. -/
def matchName (fill : List Glob → Path → Bool → Program (List Path)) (name : String) (p : Path)
    (directory : Bool) : List Glob → Program (List Path)
  | [] => return []
  | g :: rest =>
    if !g.isMatch name.toList then return []
    else if rest.isEmpty then return [p]
    else fill rest p directory

/-- What an entry of a directory gives. Behind two stars it is looked into as well. -/
def visit (fill : List Glob → Path → Bool → Program (List Path)) (patterns : List Glob)
    (name : String) (p : Path) : Program (List Path) := do
  let directory ← Program.isDirectory p
  match patterns with
  | [] => return []
  | g :: rest =>
    if !g.isDeep then matchName fill name p directory patterns
    else
      let rest := rest.dropWhile isDeep
      let below ← if directory then fill (g :: rest) p true else pure []
      let here ← if rest.isEmpty then pure (if directory then [p] else [])
        else matchName fill name p directory rest
      return below ++ here

/-- The names of a directory and its parent that a pattern matches. They have to be asked for by a
dot. -/
def dotNames (g : Glob) : List String :=
  if g.tokens.head? == some (.char '.') then [".", ".."].filter fun s => g.isMatch s.toList else []

/-- What matches the components from a path on. -/
def fill : (fuel : Nat) → List Glob → Path → (directory : Bool) → Program (List Path)
  | 0, _, _, _ => return []
  | _, [], _, _ => return []
  | fuel + 1, g :: rest, p, directory =>
    match g.literal? with
    | some name => do
      let next := entry p name
      let present ← if name == "." || name == ".." then pure directory else Program.isPresent next
      if present then goOn (fill fuel) rest next else return []
    | none => do
      if !directory then return []
      match ← Program.list p with
      | .error _ => return []
      | .ok names =>
        let found ← names.mapM fun name => visit (fill fuel) (g :: rest) name (entry p name)
        let special ← (dotNames g).mapM fun name => goOn (fill fuel) rest (p.join ⟨name⟩)
        return found.flatten ++ special.flatten

/-- The pieces of a pattern; a slash at its end counts for nothing. -/
def components (source : List Char) : List String :=
  let ps := (Text.pieces '/' source).map String.ofList
  if ps.getLast? == some "" then ps.dropLast else ps

/-- All paths that match a pattern; a text that is no pattern matches none. -/
def expand (source : String) : Program (List Path) :=
  let (start, rest) := match source.toList with
    | '/' :: rest => ("/", rest)
    | cs => (".", cs)
  match read source, (components rest).mapM read with
  | .ok _, .ok parts => fill (depthLimit + parts.length) parts ⟨start⟩ true
  | _, _ => return []

end Glob

/-- The files in a directory that may be worked on, in the order of their paths. -/
def Filter.discover (f : Filter) (directory : Path) : Disk.Program (List Path) := do
  let found ← Glob.expand ((directory.join ⟨"**"⟩).join ⟨"*"⟩).text
  let files ← found.filterM fun p => return (← Disk.Program.isFile p) && f.allows p
  return Path.sort files

end SourceRepair
