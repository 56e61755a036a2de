import SourceRepair.Backup.Archive
import SourceRepair.Layer.Run
import SourceRepair.Recovery.Handler
import SourceRepair.Request

/-!
# Runs of layers

Each layer works on the text of the layer before it. A layer that changed something is written to the
disk on its own, after a backup, so the archive has one backup for each such step. When something
fails in a run that writes, the run stops and the file goes back to what it was.
-/

namespace SourceRepair

open Backup (Archive Receipt)
open Disk (Job Program)

/-- What a run leaves for later runs. -/
structure Bookkeeping where
  handler : Recovery.Handler
  /-- The last timestamp of a backup. -/
  stamp : Nat := 0
deriving Inhabited

namespace Pipeline

structure Options where
  /-- Changes are written to the disk. -/
  write : Bool := false
  /-- Without this, the response has the text that the run started with. -/
  applyFixes : Bool := true
deriving DecidableEq, Repr, Inhabited

/-- How a file gets back to what it was. -/
inductive Undo where
  /-- By the backup that was made before the first write. -/
  | restore (backup : Path)
  /-- There was no file before the first write. -/
  | remove
deriving DecidableEq, Repr, Inhabited

def Undo.perform (path : Path) : Undo → Job Unit
  | restore backup => discard (Archive.restore backup (some path))
  | remove => Job.ofFault path (Program.remove path)

/-- Where a run stands between two layers. -/
structure Standing where
  response : Response
  /-- The text for the next layer. -/
  code : String
  /-- Set once something was written. -/
  undo : Option Undo := none
deriving DecidableEq, Repr, Inhabited

/-- The start of a run. -/
def Standing.start (path : Path) (code : String) : Standing where
  response := ⟨true, path, code, 0, [], [], [], none⟩
  code := code

/-- Adds a result to a response. The first failure of a layer is the one of the response. -/
def absorb (r : Response) (l : LayerResult) : Response :=
  { r with
    success := r.success && l.success
    changeCount := r.changeCount + l.changeCount
    changes := r.changes ++ l.changes
    warnings := r.warnings ++ l.warnings
    layers := r.layers ++ [l]
    error := r.error.or l.error }

/-- Goes on behind a layer. -/
def Standing.advance (s : Standing) (l : LayerResult) : Standing :=
  { s with response := absorb s.response l, code := l.code }

/-- Goes on behind a layer whose text was written. -/
def Standing.written (s : Standing) (l : LayerResult) (receipt : Receipt) : Standing :=
  let l := { l with backupPath := receipt.backup.map (·.path) }
  let back := match l.backupPath with
    | some backup => Undo.restore backup
    | none => Undo.remove
  { s.advance l with undo := s.undo.or (some back) }

/-- The result of a layer whose text could not be written. -/
def unwritten (l : LayerResult) (failure : Failure) : LayerResult :=
  { l with code := l.originalCode, success := false, error := some failure.note }

/-- Undoes what a run wrote; a warning tells when that fails. -/
def rollBack (path : Path) (undo : Option Undo) (r : Response) : Program Response :=
  match undo with
  | none => return r
  | some undo => do
    match ← (undo.perform path).run with
    | .ok () => return r
    | .error failure =>
      let warning := "could not roll back earlier writes: " ++ failure.message
      return { r with warnings := r.warnings ++ [warning] }

/-- The end of a run at a layer that failed. -/
def Standing.halt (s : Standing) (path : Path) (start : String) (l : LayerResult) :
    Program Standing := do
  return ⟨← rollBack path s.undo (absorb s.response l), start, none⟩

/-- Writes the text of a layer. If no backup can be made in the first place it goes to the other. -/
def writeLayer (a : Archive) (path : Path) (l : LayerResult) :
    StateT Bookkeeping Program (Except Failure Receipt) := do
  let operation := "layer " ++ l.layer.label
  let context : Recovery.Context := { operation := "write " ++ operation, path := some path }
  let books ← get
  let ((execution, handler), stamp) ← (books.handler.execute .io context
    (fun _ => a.write .primary path l.code operation)
    (some fun _ => a.write .alternate path l.code operation)).run books.stamp
  set (⟨handler, stamp⟩ : Bookkeeping)
  return execution.result

/-- Runs layers from where a run stands. -/
def runLayers (a : Archive) (file : SourceFile) (start : String) (write : Bool) :
    List Layer → Standing → StateT Bookkeeping Program Standing
  | [], s => return s
  | layer :: rest, s => do
    let result := layer.run file s.code
    if !write then runLayers a file start write rest (s.advance result)
    else if !result.success then s.halt file.path start result
    else if !result.changed then runLayers a file start write rest (s.advance result)
    else
      match ← writeLayer a file.path result with
      | .ok receipt => runLayers a file start write rest (s.written result receipt)
      | .error failure => s.halt file.path start (unwritten result failure)

/-- Runs layers on a text. -/
def run (a : Archive) (layers : List Layer) (file : SourceFile) (code : String)
    (options : Options) : StateT Bookkeeping Program Response := do
  let s ← runLayers a file code options.write layers (.start file.path code)
  return { s.response with code := if options.applyFixes then s.code else code }

end Pipeline

end SourceRepair
