import SourceRepair.Cli.Command
import SourceRepair.Cli.Report

/-!
# Running commands

A command reads the configuration, starts a session and prints what it did.
-/

namespace SourceRepair.Cli

open Disk (Job Program)

/-- Why a command failed. -/
inductive Trouble where
  /-- A file of a configuration cannot be read; the path is given if the user named it. -/
  | unreadable (named : Option Path) (fault : Disk.Fault)
  /-- A file holds no configuration. -/
  | malformed (named : Option Path) (message : String)
  /-- No session could be started. -/
  | notStarted (failure : Failure)
  /-- What was learned could not be saved. -/
  | notSaved (failure : Failure)
  | failed (failure : Failure)
deriving DecidableEq, Repr, Inhabited

/-- A failure and its causes. -/
def causes (f : Failure) : List String :=
  f.message :: match f with
    | .filesystem _ cause | .permission _ cause | .capacity _ cause => [cause.message]
    | .serialization message => [message]
    | _ => []

/-- What is said when a file that the user named cannot be used. -/
def notLoaded (named : Option Path) : List String :=
  named.toList.map fun p => "failed to load " ++ p.text

/-- The reasons from the outermost to the innermost. -/
def Trouble.chain : Trouble → List String
  | unreadable named fault => notLoaded named ++ [fault.message]
  | malformed named message => notLoaded named ++ [message]
  | notStarted failure => "failed to open the engine" :: causes failure
  | notSaved failure => "failed to save learned rules" :: causes failure
  | failed failure => causes failure

/-- What a command prints, and its exit code. -/
structure Output where
  code : Nat
  text : String
deriving DecidableEq, Repr, Inhabited

/-- Work of a command. -/
abbrev Work := ExceptT Trouble Program

/-- A job whose failure is some trouble. -/
def Work.ofJob {α : Type} (trouble : Failure → Trouble) (job : Job α) : Work α :=
  (job.run >>= fun
    | .ok a => return .ok a
    | .error failure => return .error (trouble failure) : Program (Except Trouble α))

/-- A path in the current directory. -/
def absolute (current p : Path) : Path := if p.isAbsolute then p else current.join p

/-- Reads a file of a configuration. -/
def readConfig (temporary : Path) (named : Option Path) (p : Path) : Work Config := do
  match ← Program.readText p with
  | .error fault => throw (.unreadable named fault)
  | .ok text =>
    match (Json.read? text).map (Config.decode temporary) with
    | none => throw (.malformed named "the text is no JSON document")
    | some (.error message) => throw (.malformed named message)
    | some (.ok c) => return c

/-- The configuration in a named file, or in the one of the current directory, or the standard one.
The project is where the configuration is, unless it says otherwise. -/
def loadConfig (temporary current : Path) : Option String → Work Config
  | some name => do
    let p := absolute current ⟨name⟩
    let c ← readConfig temporary (some p) p
    return { c with projectRoot := c.projectRoot.or p.parent? }
  | none => do
    let p := current.join ⟨configFileName⟩
    let c ← if ← Program.isFile p then readConfig temporary none p else pure (.standard temporary)
    return { c with projectRoot := c.projectRoot.or (some current) }

/-- Repairs files one after another. -/
def transformAll (layers : Selection) (dryRun analyze : Bool) :
    List Path → Session → Program (List Response × Session)
  | [], s => return ([], s)
  | p :: rest, s => do
    let (response, s) ← s.transform
      { filePath := p, selection := layers, dryRun := dryRun, applyFixes := !analyze }
    let (responses, s) ← transformAll layers dryRun analyze rest s
    return (response :: responses, s)

/-- Runs a command in a session. -/
def Command.run (s : Session) (current : Path) : Command → Work Output
  | .fix paths layers dryRun analyze json => do
    let targets ← s.targets (paths.map (absolute current))
    let (results, s) ← transformAll layers dryRun analyze targets s
    let lesson ← Work.ofJob .notSaved s.close
    let report : Report := ⟨results, dryRun || analyze, some lesson⟩
    return ⟨report.exitCode, if json then report.toJson.pretty ++ "\n" else report.text⟩
  | .backups file => do
    let file := absolute current file
    let infos ← Work.ofJob .failed (s.archive.list file)
    return ⟨0, listBackups file infos⟩
  | .restore backup target => do
    let restored ← Work.ofJob .failed
      (Backup.Archive.restore (absolute current backup) (target.map (absolute current)))
    return ⟨0, "restored " ++ restored.text ++ "\n"⟩
  | .rules => return ⟨0, listRules s.storePath s.store⟩

/-- Runs a command line. Temporary files belong into the directory `temporary`. -/
def Invocation.run (temporary : Path) (i : Invocation) : Work Output := do
  let current ← Program.currentDirectory
  let config ← loadConfig temporary current i.config
  let s ← Work.ofJob .notStarted (Session.start config)
  i.command.run s current

end SourceRepair.Cli
