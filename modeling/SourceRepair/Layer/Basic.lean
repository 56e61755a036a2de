import SourceRepair.Change
import SourceRepair.Failure
import SourceRepair.Layer.Id
import SourceRepair.SourceFile

/-!
# What a layer is and what it reports

A layer rewrites a text with the help of its tree, and where that fails by patterns.
-/

namespace SourceRepair

structure Layer where
  id : LayerId
  /-- The layer has something to do with the file. -/
  applies : SourceFile → Bool
  transform : SourceFile → String → Except Failure Rewrite
  fallback : SourceFile → String → Rewrite

/-- Where the code of a layer came from. -/
inductive Strategy where
  | tree
  | fallback
  /-- Nothing was changed. -/
  | unchanged
  /-- The layer does not apply to the file. -/
  | skipped
  /-- No stage gave a valid text. -/
  | failed
deriving DecidableEq, Repr, Inhabited

namespace Strategy

/-- All strategies, in the order of their declaration. -/
def all : List Strategy := [tree, fallback, unchanged, skipped, failed]

def name : Strategy → String
  | tree => "tree"
  | fallback => "fallback"
  | unchanged => "unchanged"
  | skipped => "skipped"
  | failed => "failed"

end Strategy

/-- What a layer did to a text. -/
structure LayerResult where
  layer : LayerId
  name : String
  success : Bool
  code : String
  originalCode : String
  changeCount : Nat
  changes : List Change
  warnings : List String
  strategy : Strategy
  error : Option FailureNote
  backupPath : Option Path
deriving DecidableEq, Repr, Inhabited

namespace LayerResult

/-- The result of a layer that leaves its text as it is. -/
def passthrough (layer : LayerId) (code : String) (strategy : Strategy) : LayerResult where
  layer := layer
  name := layer.name
  success := true
  code := code
  originalCode := code
  changeCount := 0
  changes := []
  warnings := []
  strategy := strategy
  error := none
  backupPath := none

/-- The result of a layer that rewrote its text. -/
def finished (layer : LayerId) (code : String) (rewrite : Rewrite) (strategy : Strategy)
    (warnings : List String) : LayerResult :=
  { passthrough layer code strategy with
    code := rewrite.code
    changeCount := rewrite.changes.length
    changes := rewrite.changes
    warnings := warnings ++ rewrite.warnings }

/-- The result of a layer that has no valid text to give. -/
def failed (layer : LayerId) (code : String) (error : Failure) (warnings : List String) :
    LayerResult :=
  { passthrough layer code .failed with
    success := false
    warnings := warnings
    error := some error.note }

/-- The layer reported changes. -/
def changed (r : LayerResult) : Bool := 0 < r.changeCount

def toJson (r : LayerResult) : Json.Value :=
  .object ([("layer", .nat r.layer.number), ("name", .string r.name), ("success", .bool r.success),
    ("code", .string r.code), ("originalCode", .string r.originalCode),
    ("changeCount", .nat r.changeCount), ("changes", .array (r.changes.map Change.toJson)),
    ("warnings", .array (r.warnings.map .string)), ("strategy", .string r.strategy.name)] ++
    r.error.toList.map (fun e => ("error", e.toJson)) ++
    r.backupPath.toList.map (fun p => ("backupPath", .string p.text)))

end LayerResult

end SourceRepair
