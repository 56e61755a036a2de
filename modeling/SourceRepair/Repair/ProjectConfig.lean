import SourceRepair.Json.Write
import SourceRepair.Repair.Basic
import SourceRepair.Script.Shape
import SourceRepair.Script.Walk

/-!
# Project configuration

Compiler options and scripts are completed in their JSON files, and flags that a framework no longer
knows are taken out of its configuration.
-/

namespace SourceRepair.Repair

open Script (Tree Node Program)
open Json (Value Members)

/-! ### JSON files -/

/-- Targets that are too old. -/
def legacyTargets : List String := ["es3", "es5"]

/-- The target in the place of an old one. -/
def modernTarget : String := "es2020"

/-- The options that every project sets. -/
def requiredOptions : List String :=
  ["strict", "esModuleInterop", "skipLibCheck", "forceConsistentCasingInFileNames"]

/-- Members and the descriptions of what was done to them. -/
abbrev Normalized := Members × List String

/-- Raises an old target. -/
def raiseTarget (options : Members) : Normalized :=
  match options.get? "target" with
  | some (.string target) =>
    if legacyTargets.contains (String.ofList (target.toList.map Char.toLower)) then
      (options.set "target" (.string modernTarget),
        ["raised compilerOptions.target to " ++ modernTarget])
    else (options, [])
  | _ => (options, [])

/-- Gives each key that is missing its value. -/
def addMissing (describe : String → String) (wanted : List (String × Value)) (ms : Members) :
    Normalized :=
  let missing := wanted.filter fun (key, _) => !ms.has key
  (missing.foldl (fun done (key, value) => done.set key value) ms,
    missing.map fun (key, _) => describe key)

/-- The members of an object under a key, empty when the key is missing. -/
def section? (root : Members) (key : String) : Option Members :=
  match root.get? key with
  | none => some []
  | some v => v.members?

/-- Completes the options of a compiler. -/
def normalizeOptions (root : Members) : Normalized :=
  match section? root "compilerOptions" with
  | none => (root, [])
  | some options =>
    let (raised, first) := raiseTarget options
    let (completed, rest) :=
      addMissing ("added compilerOptions." ++ ·) (requiredOptions.map (·, .bool true)) raised
    (root.set "compilerOptions" (.object completed), first ++ rest)

/-- The project depends on a package. -/
def dependsOn (root : Members) (package : String) : Bool :=
  ["dependencies", "devDependencies"].any fun key =>
    ((root.get? key).bind (·.get? package)).isSome

/-- Completes the scripts of a package. -/
def normalizeScripts (root : Members) : Normalized :=
  match section? root "scripts" with
  | none => (root, [])
  | some scripts =>
    let lint := if dependsOn root "next" then "next lint" else "eslint ."
    let (completed, notes) :=
      addMissing (fun key => "added the \"" ++ key ++ "\" script")
        [("lint", .string lint), ("type-check", .string "tsc --noEmit")] scripts
    (root.set "scripts" (.object completed), notes)

/-- What is done to the JSON of a kind of file. -/
def normalizeRoot : ConfigKind → Members → Normalized
  | .tsConfig, root => normalizeOptions root
  | .packageJson, root => normalizeScripts root
  | .nextConfig, root => (root, [])

/-- Completes a JSON file that configures a project. A file with nothing to add is left alone. -/
def normalizeJson (file : SourceFile) (text : String) : Except Failure Rewrite :=
  match file.config with
  | some .nextConfig | none => .ok ⟨text, [], []⟩
  | some kind => do
    match ← parseJson file (kind == .tsConfig) text with
    | .object root =>
      let (done, notes) := normalizeRoot kind root
      if notes.isEmpty then return ⟨text, [], []⟩
      else
        return ⟨(Value.object done).pretty ++ "\n",
          notes.map fun note => ⟨.configNormalized, note, none⟩, []⟩
    | _ => return ⟨text, [], []⟩

/-! ### Obsolete flags -/

/-- Runs of successive numbers in an ascending list, each as its first and last. -/
def runs : List Nat → List (Nat × Nat)
  | [] => []
  | n :: ns =>
    match runs ns with
    | (first, last) :: rest => if first == n + 1 then (n, last) :: rest else (n, n) :: (first, last) :: rest
    | [] => [(n, n)]

/-- The range that takes away a run of properties with their separators: up to the next property,
or from the one before, or all with a comma behind. -/
def runRange (text : List Char) (object : Span) (properties : List Span) (run : Nat × Nat) : Span :=
  let first := (properties[run.1]?.getD object).start
  let last := (properties[run.2]?.getD object).stop
  match properties[run.2 + 1]? with
  | some next => ⟨first, next.start⟩
  | none =>
    match run.1 with
    | before + 1 => ⟨(properties[before]?.getD object).stop, last⟩
    | 0 =>
      let tail := Text.slice text ⟨last, object.stop⟩
      let blanks := tail.takeWhile Text.isSpace
      if tail[blanks.length]? == some ',' then ⟨first, last + Text.byteLength blanks + 1⟩
      else ⟨first, last⟩

/-- The ranges that take away the properties at some positions. -/
def removalRanges (text : List Char) (object : Span) (properties : List Span)
    (removed : List Nat) : List Span :=
  (runs removed).map (runRange text object properties)

/-- The name of a property that is not spread. -/
def propertyName? : Tree → Option String
  | .property key _ _ _ _ _ | .method key _ _ _ _ => key.keyName?
  | _ => none

/-- The value of a property. -/
def propertyValue? : Tree → Option Tree
  | .property _ _ value _ _ _ => some value
  | .method _ _ _ function _ => some function
  | _ => none

/-- The positions of properties that are no longer known. -/
def obsoleteFlags (experimental : Bool) (properties : List Tree) : List Nat :=
  properties.zipIdx.filterMap fun (p, i) =>
    match propertyName? p with
    | some key => if key == "swcMinify" || (experimental && key == "appDir") then some i else none
    | none => none

/-- The object is the value of the property for experiments. -/
def isExperimental (span : Span) : List Node → Bool
  | .tree .objectProperty p :: _ =>
    propertyName? p == some "experimental" && (propertyValue? p).any (·.span == span)
  | _ => false

/-- The draft for one object literal. -/
def objectDraft (text : List Char) (span : Span) (properties : List Tree) (removed : List Nat) :
    Draft :=
  let spans := properties.map Tree.span
  ⟨(removalRanges text span spans removed).map Edit.remove,
    removed.map fun i =>
      (.configNormalized, "removed an obsolete Next.js config flag", (spans[i]?.getD span).start),
    []⟩

def nextConfigFlags : Repair where
  name := "next-config-flags"
  draft src :=
    if src.file.config == some .nextConfig then
      .join (src.program.walk.filterMap fun v =>
        match v.node with
        | .tree .expression (.object properties span) =>
          match obsoleteFlags (isExperimental span v.ancestors) properties with
          | [] => none
          | removed => some (objectDraft src.text span properties removed)
        | _ => none)
    else {}

end SourceRepair.Repair
