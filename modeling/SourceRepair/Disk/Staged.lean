import SourceRepair.Digest
import SourceRepair.Disk.Program
import SourceRepair.Failure

/-!
# Staged writes

New content is first written to a file beside its target, read back, and then moved over the target in
one step. Whatever goes wrong before that step, the target is as it was.
-/

namespace SourceRepair.Disk

/-- Work that may fail. -/
abbrev Job := ExceptT Failure Program

/-- An action whose fault is a failure at a path. -/
def Job.ofFault {α : Type} (path : Path) (p : Program (Except Fault α)) : Job α :=
  (p >>= fun
    | .ok a => return .ok a
    | .error fault => return .error (.ofFault path fault) : Program (Except Failure α))

/-- A result that is known already. -/
def Job.ofExcept {α : Type} (result : Except Failure α) : Job α :=
  (pure result : Program (Except Failure α))

/-- Content that waits beside its target. -/
structure Staged where
  target : Path
  temporary : Path
deriving DecidableEq, Repr, Inhabited

namespace Staged

/-- The directory that a target lies in. -/
def directoryOf (target : Path) : Path :=
  match target.parent? with
  | some parent => if parent.text == "" then ⟨"."⟩ else parent
  | none => ⟨"."⟩

/-- Where the content of a target waits. -/
def temporaryPath (target : Path) (nonce : String) : Path :=
  (directoryOf target).join ⟨"." ++ target.fileName?.getD "file" ++ "." ++ nonce ++ ".tmp"⟩

/-- Removes the file that waits, if it can be removed. -/
def discard (s : Staged) : Program Unit := do
  let _ ← Program.remove s.temporary

/-- Work on staged content, which is discarded if the work fails. -/
def orDiscard {α : Type} (s : Staged) (work : Job α) : Job α :=
  (work.run >>= fun
    | .ok a => return .ok a
    | .error failure => do
      s.discard
      return .error failure : Program (Except Failure α))

/-- Writes content beside its target. -/
def stage (target : Path) (bytes : ByteArray) : Job Staged := do
  let directory := directoryOf target
  Job.ofFault directory (Program.makeDirectories directory)
  let s : Staged := ⟨target, temporaryPath target (← Program.nonce)⟩
  s.orDiscard do
    Job.ofFault s.temporary (Program.create s.temporary)
    Job.ofFault s.temporary (Program.write s.temporary bytes)
    Job.ofFault s.temporary (Program.sync s.temporary)
    return s

/-- The bytes that wait. -/
def readBack (s : Staged) : Job ByteArray := Job.ofFault s.temporary (Program.read s.temporary)

/-- The bytes that wait are the expected ones. -/
def verify (s : Staged) (expected : ByteArray) : Job Unit := do
  let actual ← s.readBack
  if actual = expected then return ()
  else throw (.integrity s.target.text (Digest.ofBytes expected) (Digest.ofBytes actual))

/-- Moves the content over its target. -/
def commit (s : Staged) : Job Unit := Job.ofFault s.target (Program.rename s.temporary s.target)

/-- Stages content, makes sure that it reads back, and moves it over the target. -/
def replace (target : Path) (bytes : ByteArray) : Job Unit := do
  let s ← stage target bytes
  s.orDiscard do
    s.verify bytes
    s.commit

end Staged

end SourceRepair.Disk
