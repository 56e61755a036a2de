import SourceRepair.Script.Grammar.Statements
import SourceRepair.Text.Offset

/-!
# Reading whole sources

The rules of the grammar are tied together here, and a source is read from its first character to
its last. The outcome tells apart sources that are read without fault, sources that are read past
some faults, and sources that are given up.
-/

namespace SourceRepair.Script

/-- The rules, each of which may be nested `fuel` deep. -/
def grammar : Nat → Grammar
  | 0 => ⟨fun _ => Reader.fail, fun _ => Reader.fail⟩
  | fuel + 1 => {
      tree := fun
        | .expression => expressionRule (grammar fuel)
        | .assignment resultType => assignmentRule (grammar fuel) resultType
        | .binary above => binaryRule (grammar fuel) above
        | .unary => unaryRule (grammar fuel)
        | .leftHandSide => leftHandSideRule (grammar fuel)
        | .binding => bindingRule (grammar fuel)
        | .statement place => statementRule (grammar fuel) place
        | .markup inside => markupRule (grammar fuel) inside
      type := fun
        | .type => typeRule (grammar fuel)
        | .result => resultTypeRule (grammar fuel) }

/-- The line after `#!` at the very start of a source. -/
def hashbang? (cs : List Char) : Option (Span × List Char) :=
  match cs with
  | '#' :: '!' :: rest =>
    let line := rest.takeWhile (!isLineEnd ·)
    some (⟨0, 2 + Text.byteLength line⟩, rest.drop line.length)
  | _ => none

/-- All statements of a source, which must end where they end. -/
def programRule (g : Grammar) : Reader (List Directive × List Stmt) := do
  let found ← statementList g
  if !(← Reader.at? .eof) then Reader.fail
  return found

/-- What reading a source came to. -/
inductive Outcome where
  /-- Read, with this many faults. -/
  | read (program : Program) (faults : Nat)
  /-- Given up. -/
  | gaveUp
deriving Inhabited

/-- Reads a source. -/
def parseSource (dialect : Dialect) (text : String) : Outcome :=
  let cs := text.toList
  let (bang, rest, offset) := match hashbang? cs with
    | some (span, rest) => (some span, rest, span.stop)
    | none => (none, cs, 0)
  let first := firstToken (dialect.goal == .script) rest offset
  let size := Text.byteLength cs
  let state : ParseState := {
    dialect, fuel := size + 2, token := first, lastStop := offset, faults := first.faults,
    context := { inAsync := dialect.goal == .module, ambient := dialect.definition },
    covers := [], notArrow := [], exports := [] }
  match programRule (grammar (32 * (size + 2))) state with
  | .ok (directives, body) s =>
    .read ⟨⟨0, size⟩, bang, directives, body⟩ (s.faults + s.covers.length)
  | .error _ _ => .gaveUp

/-- How much is forgiven in a source. -/
inductive Leniency where
  /-- Any fault is an error. -/
  | strict
  /-- Only a source that is given up is an error. -/
  | recover
deriving DecidableEq, Repr, Inhabited

/-- The program of a source, if it is read well enough. -/
def parse? (leniency : Leniency) (dialect : Dialect) (text : String) : Option Program :=
  match parseSource dialect text with
  | .read program faults => if leniency == .recover || faults == 0 then some program else none
  | .gaveUp => none

end SourceRepair.Script
