import SourceRepair.Path
import SourceRepair.Script.Dialect
import SourceRepair.Text.CaseFold

/-!
# Source files

What the path of a file says about its content: the language, whether it configures the project,
and whether it is a test, a page or a part of an application.
-/

namespace SourceRepair

/-- Files that configure a project. -/
inductive ConfigKind where
  | tsConfig | packageJson | nextConfig
deriving DecidableEq, Repr, Inhabited

inductive SourceKind where
  | script (dialect : Script.Dialect)
  /-- JSON, with or without comments and trailing commas. -/
  | json (comments : Bool)
deriving DecidableEq, Repr, Inhabited

structure SourceFile where
  path : Path
  kind : SourceKind
  config : Option ConfigKind
deriving DecidableEq, Repr, Inhabited

namespace SourceFile

/-- Lower case, as far as names of known files need it. -/
def lower (s : String) : String := String.ofList (s.toList.map Text.lowerAscii)

/-- A declaration file has `d` among the last pieces of its stem: the last one, or in a `.ts` file
also the one before it, as in `a.d.css.ts`. -/
def isDefinition (extension : String) (stem : String) : Bool :=
  let ps := (Text.pieces '.' stem.toList).reverse
  if extension == "ts" then (ps.take 2).contains ['d'] else (ps.take 1).contains ['d']

/-- The language of a file. Unknown extensions are read as TypeScript with JSX, and plain scripts
may hold JSX. -/
def dialectOf (p : Path) : Script.Dialect :=
  let stem := p.stem?.getD ""
  match p.extension? with
  | some "js" | some "mjs" | some "jsx" => ⟨false, false, true, .module⟩
  | some "cjs" => ⟨false, false, true, .script⟩
  | some "ts" => ⟨true, isDefinition "ts" stem, false, .module⟩
  | some "mts" => ⟨true, isDefinition "mts" stem, false, .module⟩
  | some "cts" => ⟨true, isDefinition "cts" stem, false, .script⟩
  | _ => .tsx

/-- What the path says about the file. -/
def ofPath (p : Path) : SourceFile :=
  let name := lower (p.fileName?.getD "")
  let extension := lower (p.extension?.getD "")
  let config :=
    if name == "package.json" then some .packageJson
    else if (name.startsWith "tsconfig" || name == "jsconfig.json") && extension == "json" then
      some .tsConfig
    else if name.startsWith "next.config." then some ConfigKind.nextConfig
    else none
  let kind :=
    if extension == "json" then .json (config == some .tsConfig) else .script (dialectOf p)
  ⟨p, kind, config⟩

/-- The language of a script. -/
def dialect? (f : SourceFile) : Option Script.Dialect :=
  match f.kind with
  | .script d => some d
  | .json _ => none

def isScript (f : SourceFile) : Bool := f.dialect?.isSome

/-- The path with forward slashes. -/
def slashed (f : SourceFile) : List Char :=
  f.path.text.toList.map fun c => if c == '\\' then '/' else c

def isTest (f : SourceFile) : Bool :=
  let name := (Text.pieces '/' f.slashed).getLast?.getD []
  Text.holds ".test.".toList name || Text.holds ".spec.".toList name || Text.holds "__tests__/".toList f.slashed

/-- The file lies in a directory of this name. -/
def inDirectory (f : SourceFile) (directory : String) : Bool :=
  let step := directory.toList ++ ['/']
  step.isPrefixOf f.slashed || Text.holds ('/' :: step) f.slashed

/-- The file is part of an application with server components. -/
def inAppDirectory (f : SourceFile) : Bool := f.inDirectory "app"

/-- The file is one of the pages of a site. -/
def inPagesDirectory (f : SourceFile) : Bool := f.inDirectory "pages"

end SourceFile

end SourceRepair
