import SourceRepair.Cli.Words
import SourceRepair.Layer.Id

/-!
# Commands

What the command line can be asked for, and how it is written.
-/

namespace SourceRepair.Cli

inductive Command where
  | fix (paths : List Path) (layers : Selection) (dryRun analyze json : Bool)
  | backups (file : Path)
  | restore (backup : Path) (target : Option Path)
  | rules
deriving DecidableEq, Repr, Inhabited

structure Invocation where
  command : Command
  /-- The file of the configuration. -/
  config : Option String
  verbose : Bool
deriving DecidableEq, Repr, Inhabited

/-- The name of a command. -/
def Command.name : Command → String
  | fix .. => "fix"
  | backups _ => "backups"
  | restore .. => "restore"
  | rules => "rules"

/-- Switches that may stand at every level. -/
def commonSwitches : List Switch := [
  ⟨"config", some 'c', .value fun _ => none⟩,
  ⟨"verbose", some 'v', .flag⟩,
  ⟨"help", some 'h', .stop .help⟩]

/-- A fault of a text that selects no layers. -/
def selectionFault (value : String) : Option Fault :=
  match Selection.ofText value with
  | .ok _ => none
  | .error _ => some .badValue

/-- The names of the commands. -/
def commandNames : List String := ["fix", "backups", "restore", "rules", "help"]

/-- The level before the command. -/
def topLevel : Level where
  switches := commonSwitches ++ [⟨"version", some 'V', .stop .version⟩]
  commands := commandNames

/-- The level of a command. -/
def levelOf : String → Level
  | "fix" => {
    switches := commonSwitches ++ [⟨"layers", some 'l', .value selectionFault⟩,
      ⟨"dry-run", none, .flag⟩, ⟨"analyze", none, .flag⟩, ⟨"json", none, .flag⟩]
    arity := .many }
  | "backups" => { switches := commonSwitches, arity := .one }
  | "restore" => {
    switches := commonSwitches ++ [⟨"target", some 't', .value emptyFault⟩]
    arity := .one }
  | _ => { switches := commonSwitches }

/-- The layers that a text selects; all texts that do are checked before. -/
def layersOf (value : Option String) : Selection :=
  match value.map Selection.ofText with
  | some (.ok selection) => selection
  | _ => .auto

/-- The command of a reading. -/
def commandOf (name : String) (r : Reading) : Except Fault Command :=
  match name, r.words with
  | "rules", _ => .ok .rules
  | _, [] => .error .missingWord
  | "fix", words =>
    .ok (.fix (words.map Path.mk) (layersOf (r.value? "layers")) (r.has "dry-run") (r.has "analyze")
      (r.has "json"))
  | "backups", word :: _ => .ok (.backups ⟨word⟩)
  | _, word :: _ => .ok (.restore ⟨word⟩ ((r.value? "target").map Path.mk))

/-- What a call for help about some command is answered with. -/
def helpFault : List String → Fault
  | [] => .help
  | [w] => if commandNames.contains w then .help else .unknownCommand
  | _ => .unknownCommand

/-- Reads the words of a command line. -/
def Invocation.ofWords (words : List String) : Except Fault Invocation := do
  match ← Reading.read topLevel false {} words with
  | (top, none) =>
    let top ← top.settle
    .error (if top.given.isEmpty then .nothingGiven else .missingCommand)
  | (_, some ("help", rest)) => .error (helpFault rest)
  | (top, some (name, rest)) =>
    let (inner, _) ← Reading.read (levelOf name) false {} rest
    let inner ← inner.settle
    let command ← commandOf name inner
    let top ← top.settle
    return ⟨command, (inner.value? "config").or (top.value? "config"),
      inner.has "verbose" || top.has "verbose"⟩

end SourceRepair.Cli
