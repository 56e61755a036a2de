import SourceRepair.Fallback.Rules
import SourceRepair.Layer.Run
import SourceRepair.Learning.Store
import SourceRepair.Repair.Catalogue

/-!
# The layers

Layers one to six are built in; the seventh runs the rules of a store.
-/

namespace SourceRepair.Layer

/-- A layer that applies repairs to scripts, with the patterns of its number. -/
def ofRepairs (id : LayerId) (applies : SourceFile → Bool) (repairs : List Repair)
    (leniency : Script.Leniency) : Layer where
  id := id
  applies := applies
  transform file code := Repair.applyAll repairs leniency file code
  fallback file code := Fallback.apply id file code

/-- Scripts that do not configure the project. -/
def isPlainScript (file : SourceFile) : Bool := file.isScript && file.config.isNone

def config : Layer where
  id := .config
  applies file := file.config.isSome
  transform file code :=
    match file.kind with
    | .json _ => Repair.normalizeJson file code
    | .script _ => Repair.applyAll [Repair.nextConfigFlags] .strict file code
  fallback file code := Fallback.apply .config file code

def patterns : Layer :=
  ofRepairs .patterns SourceFile.isScript
    [Repair.decodeEntities, Repair.removeDiagnostics, Repair.varToLet] .strict

def components : Layer :=
  ofRepairs .components SourceFile.isScript
    [Repair.listKeys, Repair.intrinsicAttributes, Repair.mergeImports, Repair.reactImport,
      Repair.effectCleanup] .strict

def hydration : Layer :=
  ofRepairs .hydration SourceFile.isScript [Repair.browserGlobalGuards] .strict

/-- The directive is placed first, so that the imports after it see it. -/
def framework : Layer :=
  ofRepairs .framework isPlainScript
    [Repair.clientDirective, Repair.navigationImports, Repair.linkChildren, Repair.createRoot]
    .strict

/-- A test that waits in a function that is not asynchronous is no valid script yet, so faults are
forgiven when it is read. -/
def testing : Layer :=
  ofRepairs .testing (fun file => file.isScript && file.isTest)
    [Repair.asyncTestCallbacks, Repair.testingLibraryImports, Repair.jestDomImport] .recover

/-- The layer that runs learned rules. -/
def adaptive (store : Learning.Store) : Layer where
  id := .adaptive
  applies := isPlainScript
  transform _ code :=
    let applied := store.applyRules code
    .ok ⟨applied.code, applied.descriptions.map fun d => ⟨.ruleApplied, d, none⟩, []⟩
  fallback file code := Fallback.apply .adaptive file code

/-- The layer of a number that is built in. -/
def builtin? : LayerId → Option Layer
  | .config => some config
  | .patterns => some patterns
  | .components => some components
  | .hydration => some hydration
  | .framework => some framework
  | .testing => some testing
  | .adaptive => none

/-- The layer of a number, with learned rules for the last. -/
def ofId (store : Learning.Store) (id : LayerId) : Layer := (builtin? id).getD (adaptive store)

end SourceRepair.Layer
