import SourceRepair.Script.Grammar.Markup

/-!
# Expressions

From primary expressions over members, calls and operators to assignments. An opening parenthesis
may start the parameters of an arrow function; a short look ahead decides most cases, and the rest
are tried.
-/

namespace SourceRepair.Script

open Reader

/-! ### Literals -/

/-- The expressions of a template whose first piece is the current token. An escape that is not well
formed is only good under a tag. -/
def templateParts (g : Grammar) (underTag : Bool) : Reader (List Expr) := do
  let t ← token
  faultIf (!underTag && !t.wellEscaped)
  bump
  if t.kind == .templateWhole then return []
  loop [] fun found => do
    let e ← g.fullExpression
    if !(← at? .rbrace) then fail
    let piece := (← token).asTemplatePiece
    reread piece piece.faults
    faultIf (!underTag && !piece.wellEscaped)
    match piece.kind with
    | .templateMiddle => bump; return .inl (e :: found)
    | .templateTail => bump; return .inr (e :: found).reverse
    | _ => fail

/-- An element of an array or an argument of a call. -/
def spreadable (g : Grammar) : Reader Tree := do
  let first ← start
  if ← eat .ellipsis then
    let e ← g.assignment
    return .spread e (← spanFrom first)
  g.assignment

/-- An array literal. -/
def arrayLiteral (g : Grammar) : Reader Expr := do
  let first ← start
  expect .lbrack
  let (items, _) ← within ({ · with allowIn := true }) (commaList .rbrack (do
    if ← at? .comma then return .hole ⟨← start, ← start⟩ else spreadable g))
  expect .rbrack
  return .array items (← spanFrom first)

/-- The arguments of a call with their parentheses. -/
def callArguments (g : Grammar) : Reader (List Tree) := do
  expect .lparen
  let (items, _) ← within ({ · with allowIn := true, inDecorator := false })
    (commaList .rparen (spreadable g))
  expect .rparen
  return items

/-- An expression in parentheses. -/
def parenthesized (g : Grammar) : Reader Expr := do
  let first ← start
  expect .lparen
  let inner ← start
  let (items, trailing) ← within ({ · with allowIn := true, inDecorator := false })
    (commaList .rparen g.assignment)
  if trailing then fail
  let innerSpan ← spanFrom inner
  expect .rparen
  match items with
  | [] => fail
  | [e] => return .paren e (← spanFrom first)
  | es => return .paren (.sequence es innerSpan) (← spanFrom first)

/-- `import.meta` or `import(…)`, at its keyword. -/
def importExpression (g : Grammar) : Reader Expr := do
  let first ← start
  expectWord "import"
  if ← eat .dot then
    if ← atWord? "meta" then
      bump
      return .metaProperty (← spanFrom first)
    if ← atAnyWord? ["source", "defer"] then bump else fail
  expect .lparen
  let (source, options) ← within ({ · with allowIn := true, inDecorator := false }) (do
    let source ← g.assignment
    if ← eat .comma then
      if ← at? .rparen then return (source, none)
      let options ← g.assignment
      let _ ← eat .comma
      return (source, some options)
    return (source, none))
  expect .rparen
  return .importCall source options (← spanFrom first)

/-! ### Members and calls -/

/-- What the rules for members and calls pass along: the expression so far, and whether a `?.`
occurred in it. -/
structure Links where
  expr : Expr
  optional : Bool

/-- The name after a dot. -/
def memberName (first : Nat) (object : Expr) (optional : Bool) : Reader Expr := do
  let t ← token
  if t.kind == .privateName then
    bump
    return .privateMember object ⟨t.text, t.span⟩ optional (← spanFrom first)
  let n ← identifierName
  return .member object n optional (← spanFrom first)

/-- The key in brackets after an object. -/
def memberIndex (g : Grammar) (first : Nat) (object : Expr) (optional : Bool) : Reader Expr := do
  expect .lbrack
  let key ← g.fullExpression
  expect .rbrack
  return .index object key optional (← spanFrom first)

/-- A template under the tag `tag`. -/
def taggedTemplate (g : Grammar) (first : Nat) (tag : Expr) (optional : Bool) : Reader Expr := do
  faultIf optional
  let tag := match tag with
    | .ascribe .instantiation inner _ => inner
    | e => e
  let parts ← templateParts g true
  return .tagged tag parts (← spanFrom first)

/-- All members that follow an expression. -/
def memberRest (g : Grammar) (first : Nat) (links : Links) : Reader Links :=
  loop links fun l => do
    let t ← token
    match t.kind with
    | .dot =>
      bump
      let e ← memberName first l.expr false
      return .inl { l with expr := e }
    | .questionDot =>
      let next ← peek
      if next.isName || next.kind == .privateName then
        bump
        let e ← memberName first l.expr true
        return .inl ⟨e, true⟩
      if next.kind == .lbrack && !(← context).inDecorator then
        bump
        let e ← memberIndex g first l.expr true
        return .inl ⟨e, true⟩
      return .inr l
    | .lbrack =>
      if (← context).inDecorator then return .inr l
      let e ← memberIndex g first l.expr false
      return .inl { l with expr := e }
    | .bang =>
      if t.newlineBefore || !(← isTypescript) then return .inr l
      bump
      return .inl { l with expr := .ascribe .nonNull l.expr (← spanFrom first) }
    | .templateWhole | .templateHead =>
      let e ← taggedTemplate g first l.expr l.optional
      return .inl { l with expr := e }
    | .lt | .shl =>
      if !(← isTypescript) then return .inr l
      match ← attempt (typeArgumentsInExpression g) with
      | some _ => return .inl { l with expr := .ascribe .instantiation l.expr (← spanFrom first) }
      | none => return .inr l
    | _ => return .inr l

/-- All members and calls that follow an expression. -/
def callRest (g : Grammar) (first : Nat) (links : Links) : Reader Links :=
  loop links fun l => do
    let l ← memberRest g first l
    if ← eat .questionDot then
      let t ← token
      if (t.kind == .lt || t.kind == .shl) && (← isTypescript) then typeArguments g
      if (← kind).isTemplateStart then
        let e ← taggedTemplate g first l.expr true
        return .inl ⟨e, true⟩
      let args ← callArguments g
      return .inl ⟨.call l.expr args true (← spanFrom first), true⟩
    if ← at? .lparen then
      let callee := match l.expr with
        | .ascribe .instantiation inner _ => inner
        | e => e
      let args ← callArguments g
      return .inl { l with expr := .call callee args false (← spanFrom first) }
    return .inr l

/-- `new` with its callee and arguments, or `new.target`. -/
def newExpression (g : Grammar) (primary : Reader Expr) : Reader Expr := do
  let first ← start
  expectWord "new"
  if ← eat .dot then
    if ← atWord? "target" then
      bump
      return .metaProperty (← spanFrom first)
    fail
  let calleeStart ← start
  let head ← primary
  let l ← memberRest g calleeStart ⟨head, false⟩
  let callee := match l.expr with
    | .ascribe .instantiation inner _ => inner
    | e => e
  let args ← if ← at? .lparen then callArguments g else pure []
  faultIf l.optional
  match callee with
  | .importCall _ _ _ => fault
  | _ => pure ()
  return .construct callee args (← spanFrom first)

/-- Words that are expressions by themselves. -/
def wordExpression? (t : Token) : Option Expr :=
  match t.text with
  | "this" => some (.this t.span)
  | "null" => some (.literal .null t.span)
  | "true" | "false" => some (.literal .boolean t.span)
  | _ => none

/-- A primary expression; `fuel` bounds how often `new` can be repeated. -/
def primaryExpression (g : Grammar) : Nat → Reader Expr
  | 0 => fail
  | fuel + 1 => do
    let t ← token
    match t.kind with
    | .number => bump; return .literal .number t.span
    | .bigint => bump; return .literal .bigint t.span
    | .string => bump; return .string t.text t.span
    | .lparen => parenthesized g
    | .lbrack => arrayLiteral g
    | .lbrace => objectLiteral g
    | .templateWhole | .templateHead =>
      let parts ← templateParts g false
      return .template parts (← spanFrom t.span.start)
    | .slash | .slashAssign =>
      let r := t.asRegex
      reread r r.faults
      if r.kind != .regex then fail
      bump
      return .literal .regex r.span
    | .decorator =>
      let ds ← decorators g
      classDefinition g t.span.start ds
    | .lt => if (← dialect).jsx then g.tree (.markup false) else fail
    | .word =>
      match wordExpression? t with
      | some e => bump; return e
      | none =>
        match t.text with
        | "function" => functionFromKeyword g t.span.start false false true
        | "class" => classDefinition g t.span.start []
        | "new" => newExpression g (primaryExpression g fuel)
        | "super" =>
          bump
          let k ← kind
          faultIf !(k == .dot || k == .lbrack || k == .lparen)
          return .super t.span
        | "import" => importExpression g
        | _ =>
          let next ← peek
          if t.text == "async" && !t.escaped && next.isWord "function" && !next.newlineBefore then
            bump
            functionFromKeyword g t.span.start true false true
          else if t.isIdentifier then
            checkName t
            advance
            return .identifier t.text t.span
          else fail
    | _ => fail

/-- The outermost link of an optional chain gets the chain around it. -/
def wrapChain (e : Expr) (span : Span) : Expr :=
  match e with
  | .member _ _ _ _ | .index _ _ _ _ | .privateMember _ _ _ _ | .call _ _ _ _
  | .ascribe .nonNull _ _ => .chain e span
  | e => e

/-- Members and calls. -/
def leftHandSideRule (g : Grammar) : Reader Expr := do
  let first ← start
  let head ← primaryExpression g (← get).fuel
  let l ← memberRest g first ⟨head, false⟩
  let l ← callRest g first l
  if l.optional then
    let span ← spanFrom first
    match l.expr with
    | .ascribe .instantiation inner innerSpan =>
      return .ascribe .instantiation (wrapChain inner inner.span) innerSpan
    | e => return wrapChain e span
  return l.expr

/-! ### Operators -/

/-- The token after `await` or `yield` makes an operator of it. -/
def followsOperatorWord (t : Token) : Bool :=
  !t.newlineBefore && !isBinaryOperator t &&
    (t.kind == .word || t.kind == .number || t.kind == .bigint || t.kind == .string)

/-- `await` is an operator here. -/
def atAwait : Reader Bool := do
  if !(← atWord? "await") then return false
  if (← context).inAsync then return true
  return followsOperatorWord (← peek)

/-- `yield` is an operator here. -/
def atYield : Reader Bool := do
  if !(← atWord? "yield") then return false
  if (← context).inGenerator then return true
  return followsOperatorWord (← peek)

def unaryOp? (t : Token) : Option UnaryOp :=
  match t.kind with
  | .plus => some .plus
  | .minus => some .minus
  | .bang => some .not
  | .tilde => some .bitNot
  | .word =>
    match t.text with
    | "typeof" => some .typeof
    | "void" => some .void
    | "delete" => some .delete
    | _ => none
  | _ => none

/-- `++` and `--` before or after a name or member, or no such operator. -/
def updateExpression (g : Grammar) : Reader Expr := do
  let t ← token
  if t.kind == .plusPlus || t.kind == .minusMinus then
    bump
    let e ← g.tree .unary
    let target ← simpleTarget e
    return .update target (← spanFrom t.span.start)
  let e ← g.tree .leftHandSide
  let t' ← token
  if (t'.kind == .plusPlus || t'.kind == .minusMinus) && !t'.newlineBefore then
    bump
    let target ← simpleTarget e
    return .update target (← spanFrom t.span.start)
  return e

/-- Operators before an operand. -/
def unaryRule (g : Grammar) : Reader Expr := do
  let t ← token
  match unaryOp? t with
  | some op =>
    bump
    let e ← g.tree .unary
    return .unary op e (← spanFrom t.span.start)
  | none =>
    if t.kind == .lt && !(← dialect).jsx then
      if !(← isTypescript) then fail
      bump
      g.anyType
      let _ ← narrowAngle
      expect .gt
      let e ← g.tree .unary
      return .ascribe .assertion e (← spanFrom t.span.start)
    else if ← atAwait then
      faultIf !(← context).inAsync
      bump
      let e ← within ({ · with inAsync := true }) (g.tree .unary)
      return .await e (← spanFrom t.span.start)
    else updateExpression g

/-- What an operator between two operands makes of them. -/
inductive Operation where
  | binary (op : BinaryOp)
  | logical (op : LogicalOp)
  | ascription (kind : Ascription)

/-- An operator between two operands with its precedence. -/
def operation? (t : Token) (typescript : Bool) : Option (Operation × Nat) :=
  match t.kind with
  | .coalesce => some (.logical .coalesce, 5)
  | .pipePipe => some (.logical .or, 6)
  | .ampAmp => some (.logical .and, 7)
  | .pipe => some (.binary .bitOr, 8)
  | .caret => some (.binary .bitXor, 9)
  | .amp => some (.binary .bitAnd, 10)
  | .eqEq => some (.binary .eq, 11)
  | .notEq => some (.binary .notEq, 11)
  | .eqEqEq => some (.binary .strictEq, 11)
  | .notEqEq => some (.binary .strictNotEq, 11)
  | .lt => some (.binary .less, 12)
  | .gt => some (.binary .greater, 12)
  | .le => some (.binary .lessEq, 12)
  | .ge => some (.binary .greaterEq, 12)
  | .shl => some (.binary .shiftLeft, 13)
  | .shr => some (.binary .shiftRight, 13)
  | .ushr => some (.binary .shiftRightZero, 13)
  | .plus => some (.binary .add, 14)
  | .minus => some (.binary .subtract, 14)
  | .star => some (.binary .multiply, 15)
  | .slash => some (.binary .divide, 15)
  | .percent => some (.binary .remainder, 15)
  | .starStar => some (.binary .power, 16)
  | .word =>
    match t.text with
    | "in" => some (.binary .isIn, 12)
    | "instanceof" => some (.binary .instanceOf, 12)
    | "as" => if typescript then some (.ascription .asType, 12) else none
    | "satisfies" => if typescript then some (.ascription .satisfies, 12) else none
    | _ => none
  | _ => none

/-- `??` may not be mixed with `&&` and `||` without parentheses. -/
def mixesCoalesce (op : LogicalOp) (left right : Expr) : Bool :=
  let clashes : Expr → Bool := fun
    | .logical op' _ _ _ => (op == .coalesce) != (op' == .coalesce)
    | _ => false
  clashes left || clashes right

/-- The operators that follow an operand and bind more tightly than `above`. -/
def binaryRest (g : Grammar) (first : Nat) (left : Expr) (above : Nat) : Reader Expr :=
  loop left fun left => do
    let _ ← widenAngle
    let t ← token
    match operation? t (← isTypescript) with
    | none => return .inr left
    | some (op, level) =>
      -- Powers associate to the right, all else to the left.
      let stops := if level == 16 then level < above else level ≤ above
      if stops then return .inr left
      match op with
      | .ascription kind =>
        if t.newlineBefore then return .inr left
        bump
        g.anyType
        return .inl (.ascribe kind left (← spanFrom first))
      | .logical op =>
        bump
        let right ← g.tree (.binary level)
        faultIf (mixesCoalesce op left right)
        return .inl (.logical op left right (← spanFrom first))
      | .binary op =>
        if op == .isIn && !(← context).allowIn then return .inr left
        bump
        let right ← g.tree (.binary level)
        match op, left with
        | .power, .unary _ _ _ | .power, .await _ _ => fault
        | _, _ => pure ()
        return .inl (.binary op left right (← spanFrom first))

/-- Operators that bind more tightly than `above`. -/
def binaryRule (g : Grammar) (above : Nat) : Reader Expr := do
  let t ← token
  if t.kind == .privateName && (← context).allowIn then
    bump
    expectWord "in"
    let right ← g.tree .unary
    let e := Tree.privateIn ⟨t.text, t.span⟩ right (← spanFrom t.span.start)
    binaryRest g t.span.start e above
  else
    let e ← g.tree .unary
    binaryRest g t.span.start e above

/-! ### Arrow functions -/

/-- What a look ahead tells about a parenthesis. -/
inductive Verdict where
  | yes | no | unsure
deriving DecidableEq

/-- What follows an opening parenthesis tells whether it opens parameters. -/
def parametersVerdict : Reader Verdict := do
  bump
  let second ← token
  match second.kind with
  | .rparen =>
    bump
    let k ← kind
    if k == .arrow || k == .lbrace then return .yes
    if k == .colon && (← isTypescript) then return .unsure
    return .no
  | .lbrack | .lbrace => return .unsure
  | .ellipsis => return .yes
  | _ =>
    advance
    let third ← token
    if second.kind == .word && memberModifiers.contains second.text && second.text != "async" &&
        third.isIdentifier then
      return if third.isWord "as" then .no else .yes
    if !second.isIdentifier && !second.isWord "this" then return .no
    match third.kind with
    | .colon => return if ← isTypescript then .yes else .no
    | .question =>
      if !(← isTypescript) then return .no
      bump
      let k ← kind
      if k == .colon || k == .comma || k == .assign || k == .rparen then return .yes
      return .no
    | .comma | .assign | .rparen => return .unsure
    | _ => return .no

/-- What follows a `<` tells whether it opens type parameters of an arrow function. -/
def typeParametersVerdict : Reader Verdict := do
  if !(← isTypescript) then return .no
  bump
  let t ← token
  if !t.isIdentifier && !t.isWord "const" then return .no
  if (← dialect).jsx then
    if t.isWord "const" then bump
    advance
    if ← atWord? "extends" then
      bump
      let k ← kind
      return if k == .assign || k == .gt || k == .slash then .no else .yes
    let k ← kind
    return if k == .comma || k == .assign then .yes else .no
  return .unsure

/-- Whether an arrow function with parentheses starts here. -/
def arrowVerdict : Reader Verdict := do
  let t ← token
  if !(t.kind == .lparen || t.kind == .lt || t.isWord "async") then return .no
  lookahead (do
    if t.isWord "async" then
      bump
      let k ← kind
      if (← onNewLine) || !(k == .lparen || k == .lt) then return .no
    if ← at? .lparen then parametersVerdict else typeParametersVerdict)

/-- The body of an arrow function. -/
def arrowBody (g : Grammar) (isAsync resultType : Bool) : Reader Tree :=
  within ({ · with inAsync := isAsync, inGenerator := false }) (do
    if ← at? .lbrace then functionBody g else g.tree (.assignment resultType))

/-- The parameters of an arrow function with parentheses, up to and including the arrow. -/
structure ArrowHead where
  isAsync : Bool
  params : List Tree
  paramsSpan : Span
  hasResultType : Bool

def arrowHead (g : Grammar) : Reader ArrowHead := do
  let isAsync ← eatWord "async"
  let (params, paramsSpan, hasResultType) ←
    within (fun c => { c with inAsync := c.inAsync || isAsync }) (do
      typeParameters g
      let (params, paramsSpan) ← formalParameters g
      let hasResultType ← at? .colon
      resultAnnotation g
      return (params, paramsSpan, hasResultType))
  if ← onNewLine then fault
  expect .arrow
  return ⟨isAsync, params, paramsSpan, hasResultType⟩

/-- An arrow function after its head. -/
def arrowAfterHead (g : Grammar) (first : Nat) (h : ArrowHead) (resultType : Bool) :
    Reader Expr := do
  let body ← arrowBody g h.isAsync resultType
  return .arrow ⟨none, h.isAsync, false, h.paramsSpan, ← spanFrom first⟩ h.params body

/-- An arrow function with parentheses, if one starts here. Inside a conditional expression, a result
type counts only if the colon of the conditional follows. -/
def parenthesizedArrow (g : Grammar) (resultType : Bool) : Reader (Option Expr) := do
  let first ← start
  match ← arrowVerdict with
  | .no => return none
  | .yes =>
    let h ← arrowHead g
    let e ← arrowAfterHead g first h true
    return some e
  | .unsure =>
    if (← get).notArrow.contains first then return none
    let found ← attempt (do
      let h ← arrowHead g
      let e ← arrowAfterHead g first h resultType
      if !resultType && h.hasResultType && !(← at? .colon) then fail
      return e)
    if found.isNone then modify fun s => { s with notArrow := first :: s.notArrow }
    return found

/-- An arrow function with one bare parameter, whose arrow is the current token. -/
def simpleArrow (g : Grammar) (first : Nat) (name : String) (nameSpan : Span)
    (isAsync resultType : Bool) : Reader Expr := do
  if ← onNewLine then fault
  expect .arrow
  let body ← arrowBody g isAsync resultType
  return .arrow ⟨none, isAsync, false, nameSpan, ← spanFrom first⟩
    [.param [] (.name name nameSpan) nameSpan] body

/-- `async x => …` starts here. -/
def atAsyncArrow : Reader Bool := do
  if !(← atWord? "async") then return false
  lookahead (do
    bump
    let t ← token
    if t.newlineBefore || !t.isIdentifier then return false
    advance
    return !(← onNewLine) && (← at? .arrow))

/-! ### Assignments -/

/-- `yield` with its argument. -/
def yieldExpression (g : Grammar) : Reader Expr := do
  let first ← start
  faultIf !(← context).inGenerator
  bump
  let t ← token
  if t.newlineBefore then return .yield none (← spanFrom first)
  let delegates ← eat .star
  let ends := match (← token).kind with
    | .eof | .semi | .rbrace | .rparen | .rbrack | .colon | .comma => true
    | _ => false
  if delegates || !(ends || (← atWord? "in")) then
    let e ← within ({ · with inGenerator := true }) g.assignment
    return .yield (some e) (← spanFrom first)
  return .yield none (← spanFrom first)

/-- A conditional expression after its test. -/
def conditionalRest (g : Grammar) (first : Nat) (test : Expr) (resultType : Bool) :
    Reader Expr := do
  if !(← eat .question) then return test
  let yes ← within ({ · with allowIn := true }) (g.tree (.assignment false))
  expect .colon
  let no ← g.tree (.assignment resultType)
  return .conditional test yes no (← spanFrom first)

/-- An assignment, conditional expression or arrow function. -/
def assignmentRule (g : Grammar) (resultType : Bool) : Reader Expr := do
  if ← atYield then return ← yieldExpression g
  if let some e ← parenthesizedArrow g resultType then return e
  let first ← start
  if ← atAsyncArrow then
    bump
    let t ← token
    faultIf (t.text == "await")
    advance
    return ← simpleArrow g first t.text t.span true resultType
  let left ← g.tree (.binary 1)
  let k ← kind
  match left with
  | .identifier text span =>
    if k == .arrow then return ← simpleArrow g first text span false resultType
  | _ => pure ()
  if k.isAssignment then
    let target ← if k == .assign then assignmentTarget left else simpleTarget left
    bump
    let value ← g.tree (.assignment resultType)
    return .assign (k != .assign) target value (← spanFrom first)
  conditionalRest g first left resultType

/-- Assignments between commas. -/
def expressionRule (g : Grammar) : Reader Expr := do
  let first ← start
  let e ← within ({ · with inDecorator := false }) g.assignment
  if !(← at? .comma) then return e
  let items ← loop [e] fun found => do
    if ← eat .comma then
      let e ← g.assignment
      return .inl (e :: found)
    return .inr found.reverse
  return .sequence items (← spanFrom first)

end SourceRepair.Script
