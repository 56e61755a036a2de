import SourceRepair.Layer.Basic
import SourceRepair.Repair.Basic

/-!
# Running a layer

The tree stage comes first, then the patterns, and each must give a valid text. If neither does the
text passes through unchanged.
-/

namespace SourceRepair.Layer

/-- The tree stage, whose text must be valid. -/
def treeStage (l : Layer) (file : SourceFile) (code : String) : Except Failure Rewrite := do
  let rewrite ← l.transform file code
  match validate file rewrite.code with
  | .ok () => return rewrite
  | .error e => .error (.validation "tree transform" e.message)

/-- The stage of the patterns, after the tree stage failed. -/
def fallbackStage (l : Layer) (file : SourceFile) (code : String) (cause : Failure) : LayerResult :=
  let warnings := ["tree transform failed: " ++ cause.message]
  let rewrite := l.fallback file code
  if rewrite.code != code then
    match validate file rewrite.code with
    | .ok () => .finished l.id code rewrite .fallback warnings
    | .error e =>
      .failed l.id code e (warnings ++ ["pattern fallback produced invalid output: " ++ e.message])
  else
    match validate file code with
    | .ok () => { LayerResult.passthrough l.id code .unchanged with warnings := warnings }
    | .error _ => .failed l.id code cause warnings

/-- Runs a layer on a text. -/
def run (l : Layer) (file : SourceFile) (code : String) : LayerResult :=
  if !l.applies file then .passthrough l.id code .skipped
  else
    match l.treeStage file code with
    | .ok rewrite =>
      let strategy := if rewrite.changes.isEmpty && rewrite.code == code then .unchanged else .tree
      .finished l.id code rewrite strategy []
    | .error cause => l.fallbackStage file code cause

end SourceRepair.Layer
