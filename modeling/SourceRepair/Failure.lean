import SourceRepair.Disk.Fault
import SourceRepair.Json.Value
import SourceRepair.Path
import SourceRepair.Recovery.Category

/-!
# Failures

Everything that can go wrong in a repair, with the name and the message that reports show.
-/

namespace SourceRepair

inductive Failure where
  | parse (path : String) (message : String)
  | validation (stage : String) (message : String)
  | filesystem (path : String) (cause : Disk.Fault)
  | permission (path : String) (cause : Disk.Fault)
  | capacity (path : String) (cause : Disk.Fault)
  | integrity (path expected actual : String)
  | ruleApplication (pattern message : String)
  | circuitOpen (category : Recovery.Category)
  | editConflict (offset : Nat)
  | excluded (path : String)
  | config (message : String)
  | serialization (message : String)
  | backup (message : String)
deriving DecidableEq, Repr, Inhabited

namespace Failure

/-- The system errors of a full disk. -/
def fullDiskCodes : List Nat := [28, 112]

/-- A fault of the disk at a path. Missing rights and a full disk are failures of their own. -/
def ofFault (path : Path) (cause : Disk.Fault) : Failure :=
  if cause.kind == .permissionDenied then permission path.text cause
  else if cause.code?.any fullDiskCodes.contains then capacity path.text cause
  else filesystem path.text cause

/-- The name of the kind of failure. -/
def kind : Failure → String
  | parse _ _ => "parse"
  | validation _ _ => "validation"
  | filesystem _ _ => "filesystem"
  | permission _ _ => "permission"
  | capacity _ _ => "capacity"
  | integrity _ _ _ => "integrity"
  | ruleApplication _ _ => "rule-application"
  | circuitOpen _ => "circuit-open"
  | editConflict _ => "edit-conflict"
  | excluded _ => "excluded"
  | config _ => "config"
  | serialization _ => "serialization"
  | backup _ => "backup"

def message : Failure → String
  | parse path m => "parse error in " ++ path ++ ": " ++ m
  | validation stage m => stage ++ " output failed validation: " ++ m
  | filesystem path cause => "filesystem error on " ++ path ++ ": " ++ cause.message
  | permission path cause => "permission denied on " ++ path ++ ": " ++ cause.message
  | capacity path cause => "no space left writing " ++ path ++ ": " ++ cause.message
  | integrity path expected actual =>
    "integrity check failed for " ++ path ++ ": expected hash " ++ expected ++ ", found " ++ actual
  | ruleApplication pattern m => "rule " ++ pattern ++ " failed: " ++ m
  | circuitOpen category => "circuit breaker open for " ++ category.name ++ " operations"
  | editConflict offset => "conflicting edits at byte " ++ toString offset
  | excluded path => path ++ " is excluded by the include/exclude configuration"
  | config m => "invalid configuration: " ++ m
  | serialization m => "serialization error: " ++ m
  | backup m => "backup error: " ++ m

end Failure

/-- A failure as reports show it. -/
structure FailureNote where
  kind : String
  message : String
deriving DecidableEq, Repr, Inhabited

def Failure.note (f : Failure) : FailureNote := ⟨f.kind, f.message⟩

def FailureNote.toJson (n : FailureNote) : Json.Value :=
  .object [("kind", .string n.kind), ("message", .string n.message)]

end SourceRepair
