import SourceRepair.Backup.Record
import SourceRepair.Config
import SourceRepair.Disk.Staged

/-!
# Archives of backups

The backups of a file lie in a directory laid out like its own, under its name with a timestamp and the
digest of its content. Files are only ever replaced after a backup, and by content that was read back.
-/

namespace SourceRepair.Backup

open Disk (Program Staged Job)

/-- Which of the two trees a backup goes to. -/
inductive Place where
  | primary
  | alternate
deriving DecidableEq, Repr, Inhabited

structure Archive where
  root : Path
  alternateRoot : Path
  projectRoot : Path
  /-- How many backups of a file are kept; all, if this is zero. -/
  cap : Nat := 10
deriving DecidableEq, Repr, Inhabited

/-- What a write did. -/
structure Receipt where
  path : Path
  bytes : Nat
  backup : Option Info
deriving DecidableEq, Repr, Inhabited

def Receipt.toJson (r : Receipt) : Json.Value :=
  .object ([("path", .string r.path.text), ("bytes", .nat r.bytes)] ++
    r.backup.toList.map fun i => ("backup", i.toJson))

/-- Work that hands out timestamps; the state is the last one handed out. -/
abbrev Dated (α : Type) := ExceptT Failure (StateT Nat Program) α

/-- Work that needs no timestamp. -/
def Dated.ofJob {α : Type} (job : Job α) : Dated α := (liftM job.run : StateT Nat Program (Except Failure α))

/-! ### Names of backups -/

/-- The number that a text writes with digits and perhaps a plus sign, if it fits in 64 bits. -/
def timestamp? (cs : List Char) : Option Nat :=
  let digits := match cs with
    | '+' :: rest => rest
    | _ => cs
  if digits.isEmpty || !digits.all (·.isDigit) then none
  else
    let n := digits.foldl (fun n c => 10 * n + (c.toNat - 48)) 0
    if n < UInt64.size then some n else none

/-- The text has the form of a digest. -/
def isDigest (cs : List Char) : Bool :=
  cs.length == 16 && cs.all fun c => (Json.hexValue? c).isSome

/-- A text cut at its last dot. -/
def cutLastDot? (cs : List Char) : Option (List Char × List Char) :=
  let after := (cs.reverse.takeWhile (· != '.')).reverse
  if after.length < cs.length then some (cs.take (cs.length - after.length - 1), after) else none

/-- The name of a backup. -/
def fileName (base : String) (timestamp : Nat) (hash : String) : String :=
  base ++ "." ++ toString timestamp ++ "." ++ hash

/-- The timestamp and the digest in the name of a backup of a file. -/
def parseName? (base : String) (name : String) : Option (Nat × String) := do
  let (front, hash) ← cutLastDot? name.toList
  let (front, stamp) ← cutLastDot? front
  if String.ofList front == base && isDigest hash then
    return (← timestamp? stamp, String.ofList hash)
  else none

namespace Archive

/-- The archive that a configuration describes. -/
def ofConfig (c : Config) (current : Path) : Archive where
  root := c.resolve current c.backupDir
  alternateRoot := c.resolve current c.alternateBackupDir
  projectRoot := c.root current
  cap := c.maxBackups

def absolute (a : Archive) (p : Path) : Path :=
  if p.isAbsolute then p else a.projectRoot.join p

def rootOf (a : Archive) : Place → Path
  | .primary => a.root
  | .alternate => a.alternateRoot

/-- The names of the directories between the root of the project and a file. -/
def directoryNames (a : Archive) (p : Path) : List String :=
  let inside := ((a.absolute p).relativeTo? a.projectRoot).getD (a.absolute p)
  match inside.parent? with
  | none => []
  | some parent => parent.components.filterMap fun
    | .name s => some s
    | _ => none

/-- The directory of the backups of a file. -/
def directory (a : Archive) (place : Place) (p : Path) : Path :=
  (a.directoryNames p).foldl (fun dir name => dir.join ⟨name⟩) (a.rootOf place)

/-- The name of a file, which it must have. -/
def nameOf (p : Path) : Except Failure String :=
  match p.fileName? with
  | some name => .ok name
  | none => .error (.backup (p.text ++ " has no file name"))

/-- The backups of a name in a directory, in no order. -/
def scan (dir : Path) (base : String) : Job (List Info) := do
  match ← Program.list dir with
  | .error fault =>
    if fault.kind == .notFound then return [] else throw (.ofFault dir fault)
  | .ok names =>
    return names.filterMap fun name =>
      (parseName? base name).map fun (timestamp, hash) => ⟨dir.join ⟨name⟩, timestamp, hash⟩

/-- Backups with the newest first. -/
def newestFirst (infos : List Info) : List Info :=
  infos.mergeSort fun i j => j.timestamp ≤ i.timestamp

/-- Removes all but the newest backups of a name. -/
def prune (a : Archive) (dir : Path) (base : String) : Job Unit := do
  if a.cap = 0 then return ()
  let infos ← scan dir base
  (newestFirst infos).drop a.cap |>.forM fun i => Job.ofFault i.path (Program.remove i.path)

/-- A timestamp later than all before it. -/
def nextTimestamp : StateT Nat Program Nat := do
  let now ← Program.calendar
  let next := max now ((← get) + 1)
  set next
  return next

/-- Makes a backup of a file, and removes backups that are too many. -/
def create (a : Archive) (place : Place) (p : Path) (operation : String) : Dated Info := do
  let content ← Dated.ofJob (Job.ofFault p (Program.readText p))
  let timestamp ← (nextTimestamp : StateT Nat Program Nat)
  let dir := a.directory place p
  let base ← Dated.ofJob (Job.ofExcept (nameOf p))
  let record := Record.ofContent (a.absolute p) timestamp operation content
  let info : Info := ⟨dir.join ⟨fileName base timestamp record.hash⟩, timestamp, record.hash⟩
  Dated.ofJob (Staged.replace info.path record.text.toUTF8)
  Dated.ofJob (a.prune dir base)
  return info

/-- The backups of a file in both trees, the newest first. -/
def list (a : Archive) (p : Path) : Job (List Info) := do
  let base ← Job.ofExcept (nameOf p)
  let primary ← scan (a.directory .primary p) base
  let alternate ← scan (a.directory .alternate p) base
  return newestFirst (primary ++ alternate)

/-- Reads a record, which must be intact. -/
def readRecord (p : Path) : Job Record := do
  let text ← Job.ofFault p (Program.readText p)
  let record ← Job.ofExcept (Record.ofText text)
  if record.isIntact then return record
  else throw (.integrity p.text record.hash (Digest.ofText record.content))

/-- Stages the content of a record beside its target and leaves the target alone. -/
def stageRestore (backup : Path) (target : Option Path) : Job Staged := do
  let record ← readRecord backup
  let s ← Staged.stage (target.getD record.originalPath) record.content.toUTF8
  s.orDiscard do
    let hash := Digest.ofBytes (← s.readBack)
    if hash = record.hash then return s
    else throw (.integrity s.target.text record.hash hash)

/-- Restores a backup and tells where. -/
def restore (backup : Path) (target : Option Path) : Job Path := do
  let s ← stageRestore backup target
  s.orDiscard s.commit
  return s.target

/-- Replaces a file after a backup of it, or makes a new one. -/
def write (a : Archive) (place : Place) (p : Path) (content operation : String) : Dated Receipt := do
  let backup ← if ← Program.isPresent p then some <$> a.create place p operation else pure none
  Dated.ofJob (Staged.replace p content.toUTF8)
  return ⟨p, content.utf8ByteSize, backup⟩

end Archive

end SourceRepair.Backup
