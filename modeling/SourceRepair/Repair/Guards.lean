import SourceRepair.Repair.Basic
import SourceRepair.Script.Scope
import SourceRepair.Script.Shape
import SourceRepair.Script.Walk

/-!
# Guards around browser globals

Code that also runs on a server must not touch what only a browser has. Each use of such a global
that no check protects gets a check of its own: a whole statement is put into an `if`, and any other
use into a conditional expression.
-/

namespace SourceRepair.Repair

open Script (Tree Node Visit Program)

/-- The globals that only a browser has. -/
def browserGlobals : List String :=
  ["window", "document", "localStorage", "sessionStorage", "navigator"]

inductive GuardKind where
  | statement
  | expression
  /-- A property that is only its name. -/
  | shorthand
deriving DecidableEq, Repr, Inhabited

/-- A check to put around a node: the global, and the span and the depth of the node. -/
structure Guard where
  root : String
  span : Span
  depth : Nat
  kind : GuardKind
deriving DecidableEq, Repr, Inhabited

/-! ### Uses that are already protected -/

/-- A parent protects a global in its child at a span. -/
def protects (root : String) (child : Span) : Node → Bool
  | .tree .expression (.conditional test yes no _) =>
    (yes.span == child && test.testsDefined root) ||
      (no.span == child && test.testsUndefined root)
  | .tree .expression (.logical op left right _) =>
    right.span == child &&
      match op with
      | .and => left.testsDefined root
      | .or => left.testsUndefined root
      | .coalesce => false
  | .tree .statement (.ifThen test yes no _) =>
    (yes.span == child && test.testsDefined root) ||
      (no.any (·.span == child) && test.testsUndefined root)
  | .tree .expression (.call callee args optional span) =>
    (Tree.call callee args optional span).isEffectHook &&
      (Tree.argument? args 0).any (·.span == child)
  | node =>
    match node.statements? with
    | some statements =>
      (statements.takeWhile (·.span.stop ≤ child.start)).any (·.isExitGuard root)
    | none => false

/-- Some node around a span protects a global in it. -/
def isGuarded (root : String) : Span → List Node → Bool
  | _, [] => false
  | child, parent :: above => protects root child parent || isGuarded root parent.span above

/-! ### Chains -/

/-- How a parent goes on with the chain of members and calls that its child is. -/
inductive Link where
  | none | read | write
deriving DecidableEq, Repr, Inhabited

/-- The parent goes on with the chain at a span. -/
def link (child : Span) : Node → Link
  | .tree .expression t =>
    let goesOn := match t with
      | .member o _ _ _ | .index o _ _ _ | .privateMember o _ _ _ => o.span == child
      | .call callee _ _ _ => callee.span == child
      | .paren inner _ => inner.span == child
      | .ascribe .nonNull inner _ => inner.span == child
      | .chain _ _ => true
      | _ => false
    if goesOn then .read else .none
  | .tree .chainMember t => if t.memberObject?.any (·.span == child) then .read else .none
  | .tree .chainCall (.call callee _ _ _) => if callee.span == child then .read else .none
  | .tree .writeTarget t => if t.memberObject?.any (·.span == child) then .write else .none
  | _ => .none

/-- A chain as far as it goes: its span, the nodes around it, and whether it is written to. -/
structure Chain where
  span : Span
  above : List Node
  isWrite : Bool

/-- Follows a chain upward through the nodes around it. -/
def growChain : Span → List Node → Chain
  | span, [] => ⟨span, [], false⟩
  | span, parent :: above =>
    match link span parent with
    | .none => ⟨span, parent :: above, false⟩
    | .read => growChain parent.span above
    | .write => ⟨parent.span, above, true⟩

/-- The expression statement around a chain, with its depth, if only expressions lie between. -/
def enclosingStatement? : List Node → Option (Span × Nat)
  | [] => none
  | node :: above =>
    if node.isFunctionBoundary then none
    else
      match node with
      | .tree .statement (.expression _ span) => some (span, above.length)
      | .tree .expression _ | .tree .writeTarget _ | .tree .chainMember _ | .tree .chainCall _ =>
        enclosingStatement? above
      | _ => none

/-- The chain is the operand of an operator. -/
def isOperandOf (op : Script.UnaryOp) : List Node → Bool
  | .tree .expression (.unary o _ _) :: _ => o == op
  | _ => false

def isStatementOperand : List Node → Bool
  | .tree .statement (.expression _ _) :: _ => true
  | _ => false

/-- The span of the property that is only the name of the chain. -/
def shorthandSpan? : List Node → Option Span
  | .tree .objectProperty (.property _ _ _ true _ span) :: _ => some span
  | _ => none

/-- The guard for an unprotected use, unless the use is a check itself. -/
def guardFor? (root : String) (c : Chain) : Option Guard :=
  let isWrite := c.isWrite || isOperandOf .delete c.above
  let whole : Guard := ⟨root, c.span, c.above.length, .expression⟩
  if isOperandOf .typeof c.above then none
  else
    match shorthandSpan? c.above with
    | some span => some ⟨root, span, c.above.length - 1, .shorthand⟩
    | none =>
      if isWrite || isStatementOperand c.above then
        match enclosingStatement? c.above with
        | some (span, depth) => some ⟨root, span, depth, .statement⟩
        | none =>
          match isWrite, c.above with
          | true, parent :: above => some ⟨root, parent.span, above.length, .expression⟩
          | _, _ => some whole
      else some whole

/-- A guard already goes around a use of its global. -/
def Guard.claims (g : Guard) (root : String) (span : Span) : Bool :=
  g.root == root && g.span.covers span

/-- The guard that a node calls for, after the guards found before it. -/
def nextGuard? (scopes : List Script.Scope) (found : List Guard) (v : Visit) : Option Guard :=
  match v.node with
  | .tree .expression (.identifier root span) =>
    if browserGlobals.contains root && !Script.isBound scopes root span &&
        !found.any (·.claims root span) && !isGuarded root span v.ancestors then
      guardFor? root (growChain span v.ancestors)
    else none
  | _ => none

/-- The guards that a program needs, in the order of the uses. -/
def guards (p : Program) : List Guard :=
  let scopes := p.scopes
  p.walk.foldl (fun found v => found ++ (nextGuard? scopes found v).toList) []

/-! ### Drafts -/

/-- The check that a global is defined. -/
def definedTest (root : String) : String := "typeof " ++ root ++ " !== \"undefined\""

def Guard.edits (g : Guard) : List Edit :=
  match g.kind with
  | .statement => Edit.wrap g.span ("if (" ++ definedTest g.root ++ ") \x7b ") " \x7d" g.depth
  | .expression => Edit.wrap g.span ("(" ++ definedTest g.root ++ " ? ") " : undefined)" g.depth
  | .shorthand =>
    [.replace g.span
      (g.root ++ ": (" ++ definedTest g.root ++ " ? " ++ g.root ++ " : undefined)")]

def browserGlobalGuards : Repair where
  name := "browser-global-guards"
  draft src :=
    .join ((guards src.program).map fun g =>
      .change g.edits .guardAdded ("guarded \x60" ++ g.root ++ "\x60 access with a typeof check")
        g.span.start)

end SourceRepair.Repair
