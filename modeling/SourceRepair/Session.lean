import SourceRepair.Glob.Walk
import SourceRepair.Layer.Catalogue
import SourceRepair.Layer.Detect
import SourceRepair.Learning.Store
import SourceRepair.Pipeline

/-!
# Sessions

A session reads the learned rules when it starts and repairs one file after another. What it learns on
the way is kept aside, so that all files see the same rules, and is merged into the store when the
session is closed.
-/

namespace SourceRepair

open Disk (Job Program)

structure Session where
  filter : Filter
  store : Learning.Store
  storePath : Path
  archive : Backup.Archive
  books : Bookkeeping
  /-- What was learned from each file, in the order in which the files were repaired. -/
  pending : List (Path × List Learning.Rule) := []

/-- What a session has learned in the end. -/
structure Lesson where
  candidates : Nat
  rules : Nat
  saved : Bool
  storePath : Path
deriving DecidableEq, Repr, Inhabited

def Lesson.toJson (l : Lesson) : Json.Value :=
  .object [("candidates", .nat l.candidates), ("rules", .nat l.rules), ("saved", .bool l.saved),
    ("ruleStorePath", .string l.storePath.text)]

def Lesson.check (key : String) (v : Json.Value) : Except String Unit :=
  match key with
  | "saved" => discard (Json.Decode.bool v)
  | "ruleStorePath" => discard (Json.Decode.path v)
  | _ => discard (Json.Decode.size v)

/-- The lesson in a document. -/
def Lesson.decode : Json.Decoder Lesson :=
  Json.record "CloseReport" ["candidates", "rules", "saved", "ruleStorePath"] Lesson.check
    fun f => do
      return ⟨← f.required "candidates" Json.Decode.size, ← f.required "rules" Json.Decode.size,
        ← f.required "saved" Json.Decode.bool, ← f.required "ruleStorePath" Json.Decode.path⟩

namespace Session

/-- Starts a session. -/
def start (c : Config) : Job Session := do
  let current ← Program.currentDirectory
  let filter ← Job.ofExcept
    (Filter.ofPatterns (c.root current) c.includePatterns c.excludePatterns)
  let storePath := c.resolve current c.ruleStorePath
  let store ← Learning.Store.load c.learning storePath
  return {
    filter := filter
    store := store
    storePath := storePath
    archive := .ofConfig c current
    books := { handler := { config := c.recovery } } }

/-- The layers that a selection means for a file, in the order in which they run. -/
def selectLayers (selection : Selection) (file : SourceFile) (code : String) : List LayerId :=
  match selection with
  | .auto => Layer.select file code
  | .explicit ids => LayerId.all.filter ids.contains

/-- Reads the text of a file under the plan for failing disks. -/
def readSource (s : Session) (path : Path) : Program (Except Failure String × Session) := do
  let context : Recovery.Context := { operation := "read source", path := some path }
  let attempt (_ : Nat) : StateT Unit Program (Except Failure String) :=
    (Job.ofFault path (Program.readText path)).run
  let ((execution, handler), _) ← (s.books.handler.execute .io context attempt none).run ()
  return (execution.result, { s with books := { s.books with handler := handler } })

/-- What a response teaches: the rules between the texts of each layer that changed something. -/
def candidates (r : Response) : List Learning.Rule :=
  let taught := r.layers.filter fun l =>
    l.layer != .adaptive && l.success && l.changed &&
      (l.strategy == .tree || l.strategy == .fallback)
  taught.flatMap fun l => Learning.extract l.originalCode l.code l.layer

/-- Keeps aside what a response teaches. -/
def mine (s : Session) (path : Path) (r : Response) : Session :=
  let found := candidates r
  if !s.store.config.enabled || found.isEmpty then s
  else { s with pending := s.pending ++ [(path, found)] }

/-- Repairs a text that is known. -/
def repair (s : Session) (r : Request) (code : String) : Program (Response × Session) := do
  let file := SourceFile.ofPath r.filePath
  let ids := selectLayers r.selection file code
  let present ← Program.isFile r.filePath
  let options : Pipeline.Options := ⟨!r.dryRun && r.applyFixes && present, r.applyFixes⟩
  let layers := ids.map (Layer.ofId s.store)
  let (response, books) ← (Pipeline.run s.archive layers file code options).run s.books
  let s := { s with books := books }
  let learns := ids.contains .adaptive && !r.dryRun && r.applyFixes
  return (response, if learns then s.mine r.filePath response else s)

/-- Repairs a file. -/
def transform (s : Session) (r : Request) : Program (Response × Session) := do
  let path := r.filePath
  if !s.filter.allows path then
    return (.failure path (r.sourceText.getD "") (Failure.excluded path.text).note, s)
  else
    match r.sourceText with
    | some code => s.repair r code
    | none =>
      match ← s.readSource path with
      | (.ok code, s) => s.repair r code
      | (.error failure, s) => return (.failure path "" failure.note, s)

/-- What was learned, in the order of the paths. -/
def learned (s : Session) : List Learning.Rule :=
  (s.pending.mergeSort fun a b => (a.1.order b.1).isLE).flatMap (·.2)

/-- Merges what was learned into the store and saves it. -/
def close (s : Session) : Job Lesson := do
  let learned := s.learned
  let store := s.store.addAll learned
  if !learned.isEmpty then store.save s.storePath
  return ⟨learned.length, store.rules.length, !learned.isEmpty, s.storePath⟩

/-- What some paths mean: of a directory all files that may be worked on, and else the path itself. -/
def targets (s : Session) (paths : List Path) : Program (List Path) := do
  let found ← paths.mapM fun p => do
    if ← Program.isDirectory p then s.filter.discover p else return [p]
  return Path.dropRepeats (Path.sort found.flatten)

end Session

end SourceRepair
