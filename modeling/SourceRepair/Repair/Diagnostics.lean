import SourceRepair.Repair.Basic
import SourceRepair.Script.Shape
import SourceRepair.Script.Walk

/-!
# Diagnostic statements

Statements that only write to the console or stop in a debugger are taken out.
-/

namespace SourceRepair.Repair

/-- Calls that only write to the console. -/
def diagnosticCalls : List String := ["console.log", "console.debug", "console.info"]

/-- What a diagnostic statement does. -/
def diagnostic? : Script.Stmt → Option String
  | .debugger _ => some "debugger"
  | .expression (.call callee args optional span) _ =>
    (Script.Tree.call callee args optional span).calleeName?.filter diagnosticCalls.contains
  | _ => none

/-- A diagnostic statement, and whether it stands in a list of statements. -/
structure Diagnostic where
  span : Span
  inList : Bool
  what : String
deriving DecidableEq, Repr, Inhabited

/-- The diagnostic statements of a program. -/
def diagnostics (p : Script.Program) : List Diagnostic :=
  p.walk.filterMap fun v =>
    match v.node with
    | .tree .statement s =>
      (diagnostic? s).map fun what =>
        ⟨s.span, v.ancestors.head?.any (·.statements?.isSome), what⟩
    | _ => none

/-- Takes a statement out of its list; where it is the whole body of another statement, an empty
block stays. -/
def Diagnostic.edit (d : Diagnostic) (text : List Char) : Edit :=
  if d.inList then .remove (Text.removalRange text d.span) else .replace d.span "\x7b\x7d"

def removeDiagnostics : Repair where
  name := "remove-diagnostics"
  draft src :=
    .join ((diagnostics src.program).map fun d =>
      .change [d.edit src.text] .diagnosticRemoved ("removed \x60" ++ d.what ++ "\x60 statement")
        d.span.start)

end SourceRepair.Repair
