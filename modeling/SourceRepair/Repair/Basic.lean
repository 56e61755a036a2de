import SourceRepair.Edit
import SourceRepair.Json.Comments
import SourceRepair.Json.Read
import SourceRepair.Script.Parse
import SourceRepair.SourceFile

/-!
# Repairs

A repair looks at the tree of a script and drafts edits. Repairs are applied one after the other,
each to the text that the one before it left, and the last text must be valid.
-/

namespace SourceRepair

/-- A script as a repair sees it. -/
structure Source where
  program : Script.Program
  text : List Char
  file : SourceFile

/-- A repair of scripts. -/
structure Repair where
  name : String
  draft : Source → Draft

/-- The tree of a script. -/
def parseScript (leniency : Script.Leniency) (file : SourceFile) (text : String) :
    Except Failure Script.Program :=
  match file.dialect? with
  | none => .error (.parse file.path.text "not a script source")
  | some dialect =>
    match Script.parse? leniency dialect text with
    | some program => .ok program
    | none => .error (.parse file.path.text "unexpected token")

/-- The JSON that a text holds, with or without comments. -/
def parseJson (file : SourceFile) (comments : Bool) (text : String) : Except Failure Json.Value :=
  let plain := if comments then String.ofList (Json.stripped text.toList) else text
  match Json.read? plain with
  | some v => .ok v.collapse
  | none => .error (.parse file.path.text "malformed JSON")

/-- The text is valid for the file. -/
def validate (file : SourceFile) (text : String) : Except Failure Unit :=
  match file.kind with
  | .script _ => discard (parseScript .strict file text)
  | .json comments => discard (parseJson file comments text)

namespace Repair

/-- Applies one repair to what earlier ones left. -/
def step (leniency : Script.Leniency) (file : SourceFile) (done : Rewrite) (r : Repair) :
    Except Failure Rewrite := do
  let program ← parseScript leniency file done.code
  let pass ← (r.draft ⟨program, done.code.toList, file⟩).finish done.code
  return ⟨pass.code, done.changes ++ pass.changes, done.warnings ++ pass.warnings⟩

/-- Applies repairs in order and checks the text that they leave. -/
def applyAll (repairs : List Repair) (leniency : Script.Leniency) (file : SourceFile)
    (text : String) : Except Failure Rewrite := do
  let done ← repairs.foldlM (step leniency file) ⟨text, [], []⟩
  validate file done.code
  return done

end Repair

end SourceRepair
