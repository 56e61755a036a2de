import SourceRepair.Script.Tree
import SourceRepair.Text.Line

/-!
# Shapes

Forms of code that repairs look for: dotted names, checks that a global is defined, tags and
attributes, and the places at the head of a file where lines are put.
-/

namespace SourceRepair.Script

namespace Tree

/-- The name of an identifier, inside any parentheses. -/
def identifier? : Expr → Option String
  | identifier text _ => some text
  | paren inner _ => inner.identifier?
  | _ => none

/-- The value of a string, inside any parentheses. -/
def string? : Expr → Option String
  | string value _ => some value
  | paren inner _ => inner.string?
  | _ => none

/-- The text of a name followed by members, such as `a.b.c`. -/
def dottedName? : Expr → Option String
  | identifier text _ => some text
  | member o p _ _ => o.dottedName?.map fun n => n ++ "." ++ p.text
  | paren inner _ => inner.dottedName?
  | _ => none

/-- The dotted name that a call calls. -/
def calleeName? : Expr → Option String
  | call callee _ _ _ => callee.dottedName?
  | _ => none

/-- The calls that run code after rendering in a browser. -/
def effectHooks : List String :=
  ["useEffect", "useLayoutEffect", "React.useEffect", "React.useLayoutEffect"]

def isEffectHook (e : Expr) : Bool := e.calleeName?.any effectHooks.contains

/-- The argument at a position, unless it is spread. -/
def argument? (args : List Tree) (i : Nat) : Option Expr := args[i]?.bind element?

/-! ### Checks that a name is defined -/

/-- `typeof root`. -/
def isTypeofOf (root : String) (e : Expr) : Bool :=
  match e.stripParens with
  | unary .typeof argument _ => argument.identifier? == some root
  | _ => false

/-- A comparison of `typeof root` with `"undefined"` by one of some operators. -/
def comparesTypeof (root : String) (ops : List BinaryOp) : Expr → Bool
  | binary op left right _ =>
    ops.contains op &&
      ((isTypeofOf root left && right.string? == some "undefined") ||
        (isTypeofOf root right && left.string? == some "undefined"))
  | _ => false

/-- When the test holds, the name is defined. -/
def testsDefined (root : String) : Expr → Bool
  | paren inner _ => inner.testsDefined root
  | logical .and left right _ => left.testsDefined root || right.testsDefined root
  | e => comparesTypeof root [.strictNotEq, .notEq] e

/-- When the test does not hold, the name is defined. -/
def testsUndefined (root : String) : Expr → Bool
  | paren inner _ => inner.testsUndefined root
  | logical .or left right _ => left.testsUndefined root || right.testsUndefined root
  | e => comparesTypeof root [.strictEq, .eq] e

/-- A statement after which control does not go on. -/
def exits : Stmt → Bool
  | returns _ _ | throws _ _ => true
  | _ => false

/-- A statement that leaves when the name is not defined. -/
def isExitGuard (root : String) : Stmt → Bool
  | ifThen test (block statements _) none _ =>
    test.testsUndefined root && statements.getLast?.any exits
  | ifThen test yes none _ => test.testsUndefined root && yes.exits
  | _ => false

/-! ### JSX -/

/-- The name in an attribute, unless it has a namespace. -/
def attributeName? : Tree → Option String
  | jsxAttribute n _ _ => n
  | _ => none

def hasAttribute (attributes : List Tree) (key : String) : Bool :=
  attributes.any (·.attributeName? == some key)

def isSpread : Tree → Bool
  | spread _ _ => true
  | _ => false

/-- The text of a key that is a name or a string. -/
def keyName? : Tree → Option String
  | name text _ => some text
  | string value _ => some value
  | _ => none

end Tree

/-- The name of a tag that has one part. -/
def JsxName.simple? : JsxName → Option String
  | intrinsic n => some n.text
  | component n => some n.text
  | _ => none

namespace Program

/-- The import declarations at the top of a program, in order. -/
def imports (p : Program) : List ImportDecl :=
  p.body.filterMap fun
    | .importDecl d => some d
    | _ => none

/-- The names that imports bind. -/
def importedNames (p : Program) : List String :=
  p.imports.flatMap fun d => (d.specifiers.getD []).map (·.bound.text)

def hasDirective (p : Program) (text : String) : Bool := p.directives.any (·.text == text)

/-- The offset after the line of the hashbang, or the start. -/
def hashbangEnd (p : Program) (cs : List Char) : Nat :=
  match p.hashbang with
  | some span => Text.lineEndAfter cs span.stop
  | none => 0

/-- The offset after the line of the last directive, or after the hashbang. -/
def prologueEnd (p : Program) (cs : List Char) : Nat :=
  match p.directives.getLast? with
  | some d => Text.lineEndAfter cs d.span.stop
  | none => p.hashbangEnd cs

/-- The offset after the line of the last import, or after the directives. -/
def importsEnd (p : Program) (cs : List Char) : Nat :=
  match p.imports with
  | [] => p.prologueEnd cs
  | ds => (ds.map fun d => Text.lineEndAfter cs d.span.stop).foldl max 0

end Program

end SourceRepair.Script
