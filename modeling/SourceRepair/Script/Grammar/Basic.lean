import SourceRepair.Script.Dialect
import SourceRepair.Script.Lexer
import SourceRepair.Script.Tree

/-!
# Parsers

A parser reads tokens one at a time. It either gives a value, possibly after noting faults that it
could read past, or gives up. Since its state is a value, looking ahead and trying a rule are plain
functions on states.

Rules call each other through a `Grammar`, the record of all rules; `Script.Parse` ties the knot.
-/

namespace SourceRepair.Script

/-- What the surrounding rules allow at a place. -/
structure Context where
  allowIn : Bool := true
  inGenerator : Bool := false
  inAsync : Bool := false
  inFunction : Bool := false
  ambient : Bool := false
  inDecorator : Bool := false
  noConditionalType : Bool := false

/-- The state of a parser. `covers` holds the starts of properties with a default, such as
`{ a = 1 }`, that were not read as a pattern yet, `notArrow` the starts of parentheses that are
known to hold no parameters, and `exports` the exported names. -/
structure ParseState where
  dialect : Dialect
  fuel : Nat
  token : Token
  lastStop : Nat
  faults : Nat
  context : Context
  covers : List Nat
  notArrow : List Nat
  exports : List String

/-- A parser; it gives up without a value. -/
abbrev Reader (α : Type) := EStateM Unit ParseState α

namespace Reader

/-- Gives up. -/
def fail {α : Type} : Reader α := throw ()

/-- Notes a fault and goes on. -/
def fault : Reader Unit := modify fun s => { s with faults := s.faults + 1 }

def faultIf (bad : Bool) : Reader Unit := if bad then fault else pure ()

def token : Reader Token := return (← get).token

def kind : Reader Kind := return (← get).token.kind

def dialect : Reader Dialect := return (← get).dialect

def isTypescript : Reader Bool := return (← get).dialect.typescript

def context : Reader Context := return (← get).context

/-- A line ends right before the current token. -/
def onNewLine : Reader Bool := return (← get).token.newlineBefore

/-- The start of the current token. -/
def start : Reader Nat := return (← get).token.span.start

/-- The span from an offset to the end of the last token read. -/
def spanFrom (start : Nat) : Reader Span := return ⟨start, (← get).lastStop⟩

def at? (k : Kind) : Reader Bool := return (← get).token.kind == k

def atWord? (w : String) : Reader Bool := return (← get).token.isWord w

def atAnyWord? (ws : List String) : Reader Bool := do
  let t ← token
  return t.kind == .word && ws.contains t.text

/-! ### Moving on -/

/-- Moves to the token that `next` reads after the current one. -/
def advanceBy (next : List Char → Nat → Token) : Reader Unit :=
  modify fun s =>
    let t := next s.token.rest s.token.span.stop
    { s with token := t, lastStop := s.token.span.stop, faults := s.faults + t.faults }

/-- Moves to the next token. -/
def advance : Reader Unit := do
  let d ← dialect
  advanceBy (nextToken (d.goal == .script))

/-- Moves past a token that is read as it stands: a keyword may not be written with escapes. -/
def bump : Reader Unit := do
  let t ← token
  faultIf (t.escaped && t.isKeyword)
  advance

/-- Puts another reading in the place of the current token. -/
def reread (t : Token) (faults : Nat) : Reader Unit :=
  modify fun s => { s with token := t, faults := s.faults + faults }

def eat (k : Kind) : Reader Bool := do
  if ← at? k then bump; return true else return false

def expect (k : Kind) : Reader Unit := do
  if ← at? k then bump else fail

def eatWord (w : String) : Reader Bool := do
  if ← atWord? w then bump; return true else return false

def expectWord (w : String) : Reader Unit := do
  if ← atWord? w then bump else fail

/-- Reads the operator at a `>` in full. -/
def widenAngle : Reader Kind := do
  let t ← token
  if t.kind == .gt then reread t.asLongAngle 0
  kind

/-- Reads only the first `<` or `>` of an operator. -/
def narrowAngle : Reader Kind := do
  let t ← token
  match t.kind with
  | .shl | .shlAssign | .le => reread (t.asShortAngle .lt) 0
  | .shr | .ushr | .shrAssign | .ushrAssign | .ge => reread (t.asShortAngle .gt) 0
  | _ => pure ()
  kind

/-! ### Looking ahead -/

/-- The value of a parser at the current place, without moving. -/
def lookahead {α : Type} (p : Reader α) : Reader α := fun s =>
  match p s with
  | .ok a _ => .ok a s
  | .error e _ => .error e s

/-- Tries a rule and stays at the current place if it gives up. -/
def attempt {α : Type} (p : Reader α) : Reader (Option α) := fun s =>
  match p s with
  | .ok a s' => .ok (some a) s'
  | .error _ s' => .ok none { s with notArrow := s'.notArrow }

/-- The token after the current one. -/
def peek : Reader Token := lookahead (do advance; token)

/-- Runs a parser in a changed context. -/
def within {α : Type} (change : Context → Context) (p : Reader α) : Reader α := do
  let outer ← context
  modify fun s => { s with context := change s.context }
  let a ← p
  modify fun s => { s with context := outer }
  return a

/-! ### Semicolons -/

/-- A statement may end here without a semicolon. -/
def canEndStatement : Reader Bool := do
  let t ← token
  return t.kind == .semi || t.kind == .rbrace || t.kind == .eof || t.newlineBefore

/-- The end of a statement. -/
def endStatement : Reader Unit := do
  if ← eat .semi then return
  if ← canEndStatement then return
  fail

/-! ### Repetition -/

/-- Repeats a step until it gives its result, at most `fuel` times. -/
def iterate {α β : Type} (step : α → Reader (α ⊕ β)) : Nat → α → Reader β
  | 0, _ => fail
  | fuel + 1, a => do
    match ← step a with
    | .inl a' => iterate step fuel a'
    | .inr b => return b

/-- Repeats a step until it gives its result. Each round reads at least one character, so the
length of the source bounds the rounds. -/
def loop {α β : Type} (init : α) (step : α → Reader (α ⊕ β)) : Reader β := do
  iterate step (← get).fuel init

/-- Items up to a token that stops them. -/
def manyUntil {α : Type} (stop : Reader Bool) (item : Reader α) : Reader (List α) :=
  loop [] fun found => do
    if ← stop then return .inr found.reverse
    let a ← item
    return .inl (a :: found)

/-- Items between commas up to a closing token, which is not read, and whether a comma stands
before it. -/
def commaList {α : Type} (close : Kind) (item : Reader α) : Reader (List α × Bool) :=
  loop ([], true) fun (found, afterComma) => do
    let k ← kind
    if k == close || k == .eof then return .inr (found.reverse, afterComma && !found.isEmpty)
    if !afterComma then fail
    let a ← item
    let comma ← eat .comma
    return .inl (a :: found, comma)

end Reader

/-! ### Rules -/

/-- Where a statement stands. Only a list of statements takes every declaration. -/
inductive StatementPlace where
  | list | single
deriving DecidableEq

/-- Rules that read trees. -/
inductive Rule where
  /-- Assignments between commas. -/
  | expression
  /-- An assignment. The flag says that an arrow function may state its result type. -/
  | assignment (resultType : Bool)
  /-- Operators that bind more tightly than a precedence. -/
  | binary (above : Nat)
  | unary
  | leftHandSide
  /-- A binding with its default. -/
  | binding
  | statement (place : StatementPlace)
  /-- An element or fragment whose `<` is the current token, inside another one or not. -/
  | markup (inside : Bool)
deriving DecidableEq

/-- Rules that read types, which are not kept. -/
inductive TypeRule where
  | type
  /-- A type, or `x is T` or `asserts x`. -/
  | result
deriving DecidableEq

/-- All rules, so that each can call the others. -/
structure Grammar where
  tree : Rule → Reader Tree
  type : TypeRule → Reader Unit

namespace Grammar

def expression (g : Grammar) : Reader Expr := g.tree .expression

/-- An expression in which `in` is an operator. -/
def fullExpression (g : Grammar) : Reader Expr :=
  Reader.within ({ · with allowIn := true }) (g.tree .expression)

def assignment (g : Grammar) : Reader Expr := g.tree (.assignment true)

/-- An assignment in which `in` is an operator. -/
def fullAssignment (g : Grammar) : Reader Expr :=
  Reader.within ({ · with allowIn := true }) (g.tree (.assignment true))

def anyType (g : Grammar) : Reader Unit := g.type .type

end Grammar

end SourceRepair.Script
