import SourceRepair.Script.Grammar.Basic

/-!
# Types

TypeScript types are read for their extent only. The rules follow the language: unions of
intersections of operators applied to postfix types, with function and conditional types outermost.
-/

namespace SourceRepair.Script

open Reader

/-! ### Parts of types -/

/-- A plain name that may be a keyword. -/
def identifierName : Reader Name := do
  let t ← token
  if t.isName then advance; return ⟨t.text, t.span⟩ else fail

/-- A name that may name a variable. -/
def variableName : Reader Name := do
  let t ← token
  if t.isIdentifier then advance; return ⟨t.text, t.span⟩ else fail

/-- `: T`, if types are allowed and one is given. -/
def typeAnnotation (g : Grammar) : Reader Unit := do
  if (← isTypescript) && (← at? .colon) then bump; g.anyType

/-- `: T` after parameters, where `T` may be a predicate. -/
def resultAnnotation (g : Grammar) : Reader Unit := do
  if (← isTypescript) && (← at? .colon) then bump; g.type .result

/-- `<T, …>` with types as arguments; the `<` is the current token. -/
def typeArguments (g : Grammar) : Reader Unit := do
  let k ← narrowAngle
  if k != .lt then fail
  bump
  let (found, _) ← commaList .gt (do g.anyType; let _ ← narrowAngle; pure ())
  faultIf found.isEmpty
  let _ ← narrowAngle
  expect .gt

/-- `<T, …>` on the same line as what it belongs to, if given. -/
def typeArgumentsHere (g : Grammar) : Reader Unit := do
  let t ← token
  if (t.kind == .lt || t.kind == .shl) && !t.newlineBefore then typeArguments g

/-- One type parameter with its variance, bound and default. -/
def typeParameter (g : Grammar) : Reader Unit := do
  loop () fun _ => do
    let next ← peek
    if (← atAnyWord? ["const", "in", "out"]) && next.isName && !next.isWord "extends" then
      bump; return .inl ()
    else return .inr ()
  let _ ← variableName
  if ← eatWord "extends" then g.anyType
  let _ ← narrowAngle
  if ← eat .assign then g.anyType
  let _ ← narrowAngle
  return

/-- `<T, …>` that declares parameters, if given. -/
def typeParameters (g : Grammar) : Reader Unit := do
  if !(← isTypescript) then return
  if !(← at? .lt) then return
  bump
  let (found, _) ← commaList .gt (typeParameter g)
  faultIf found.isEmpty
  expect .gt

/-- A name with dots. -/
def dottedName : Reader Unit := do
  let _ ← identifierName
  loop () fun _ => do
    if ← eat .dot then
      let _ ← identifierName
      return .inl ()
    else return .inr ()

/-- Skips a pattern in the parameters of a function type. -/
def skipBrackets : Reader Unit :=
  loop 0 fun depth => do
    let k ← kind
    if k == .eof || k == .invalid then fail
    bump
    if k == .lbrace || k == .lbrack || k == .lparen then return .inl (depth + 1)
    if k == .rbrace || k == .rbrack || k == .rparen then
      if depth ≤ 1 then return .inr () else return .inl (depth - 1)
    if depth == 0 then return .inr ()
    return .inl depth

/-- One parameter of a function type. -/
def typeLevelParameter (g : Grammar) : Reader Unit := do
  let _ ← eat .ellipsis
  loop () fun _ => do
    let next ← peek
    if (← atAnyWord? ["public", "private", "protected", "readonly", "override"]) &&
        (next.isName || next.kind == .lbrace || next.kind == .lbrack) then
      bump; return .inl ()
    else return .inr ()
  let t ← token
  if t.kind == .lbrace || t.kind == .lbrack then skipBrackets
  else if t.isIdentifier || t.isWord "this" then advance
  else fail
  let _ ← eat .question
  typeAnnotation g
  if ← eat .assign then let _ ← g.assignment

/-- The parameters of a function type. -/
def typeLevelParameters (g : Grammar) : Reader Unit := do
  expect .lparen
  let _ ← commaList .rparen (typeLevelParameter g)
  expect .rparen

/-! ### Members of object types -/

/-- The end of a member: a separator, a new line or the closing brace. -/
def endMember : Reader Unit := do
  if ← eat .comma then return
  endStatement

/-- The `[` at hand opens an index signature. -/
def atIndexSignature : Reader Bool := do
  if !(← at? .lbrack) then return false
  lookahead (do
    bump
    let t ← token
    if t.kind == .ellipsis || t.kind == .rbrack then return true
    if !t.isName then return false
    advance
    let k ← kind
    if k == .colon || k == .comma then return true
    if k != .question then return false
    bump
    let k ← kind
    return k == .colon || k == .comma || k == .rbrack)

/-- `[key: T]: U` with the end of the member. -/
def indexSignatureRest (g : Grammar) : Reader Unit := do
  expect .lbrack
  let (found, _) ← commaList .rbrack (typeLevelParameter g)
  faultIf (found.length != 1)
  expect .rbrack
  typeAnnotation g
  endMember

/-- The key of a member of an object type. -/
def typeLevelKey (g : Grammar) : Reader Unit := do
  let t ← token
  match t.kind with
  | .string | .number | .bigint => bump
  | .lbrack =>
    bump
    let _ ← g.fullAssignment
    expect .rbrack
  | .privateName => bump
  | .word => advance
  | _ => fail

/-- A token that can follow a modifier, and so makes a modifier of the word before it. -/
def canFollowModifier (t : Token) : Bool :=
  match t.kind with
  | .lbrack | .lbrace | .star | .ellipsis | .word | .privateName | .string | .number | .bigint => true
  | _ => false

/-- A member of an object type or interface. -/
def typeMember (g : Grammar) : Reader Unit := do
  let t ← token
  let next ← peek
  if t.kind == .lparen || t.kind == .lt then
    typeParameters g; typeLevelParameters g; resultAnnotation g; endMember
  else if t.isWord "new" && (next.kind == .lparen || next.kind == .lt) then
    bump
    typeParameters g; typeLevelParameters g; resultAnnotation g; endMember
  else
    loop () fun _ => do
      let next ← peek
      if (← atAnyWord? ["readonly", "get", "set", "public", "private", "protected", "static",
          "declare", "abstract", "override", "async", "accessor"]) &&
          !next.newlineBefore && canFollowModifier next && next.kind != .lbrace &&
          next.kind != .star then
        faultIf !(← atAnyWord? ["readonly", "get", "set"])
        bump; return .inl ()
      else return .inr ()
    if ← atIndexSignature then indexSignatureRest g
    else
      typeLevelKey g
      let _ ← eat .question
      let k ← kind
      if k == .lparen || k == .lt then
        typeParameters g; typeLevelParameters g; resultAnnotation g
      else
        typeAnnotation g
        if ← eat .assign then let _ ← g.assignment
      endMember

/-- The members of an object type or interface, with its braces. -/
def typeMembers (g : Grammar) : Reader Unit := do
  expect .lbrace
  let _ ← manyUntil (do let k ← kind; return k == .rbrace || k == .eof) (typeMember g)
  expect .rbrace

/-- The `{` at hand opens a mapped type. -/
def atMappedType : Reader Bool :=
  lookahead (do
    bump
    let k ← kind
    if k == .plus || k == .minus then
      bump
      return ← atWord? "readonly"
    if ← atWord? "readonly" then bump
    if !(← eat .lbrack) then return false
    if !(← token).isName then return false
    advance
    atWord? "in")

/-- `{ [K in T]: U }`. -/
def mappedType (g : Grammar) : Reader Unit := do
  expect .lbrace
  if (← at? .plus) || (← at? .minus) then
    bump
    expectWord "readonly"
  else
    let _ ← eatWord "readonly"
  expect .lbrack
  let _ ← identifierName
  expectWord "in"
  g.anyType
  if ← eatWord "as" then g.anyType
  expect .rbrack
  if (← at? .plus) || (← at? .minus) then
    bump
    expect .question
  else
    let _ ← eat .question
  typeAnnotation g
  let _ ← eat .semi
  let _ ← eat .comma
  expect .rbrace

/-! ### Types -/

/-- A member of a tuple type. -/
def tupleMember (g : Grammar) : Reader Unit := do
  let _ ← eat .ellipsis
  let labelled ← lookahead (do
    if !(← token).isName then return false
    advance
    let _ ← eat .question
    at? .colon)
  if labelled then
    advance
    let _ ← eat .question
    bump
  g.anyType
  let _ ← eat .question
  return

/-- The types in the pieces of a template. -/
def templateType (g : Grammar) : Reader Unit := do
  if ← at? .templateWhole then bump
  else
    bump
    loop () fun _ => do
      g.anyType
      if !(← at? .rbrace) then fail
      let t := (← token).asTemplatePiece
      reread t t.faults
      match t.kind with
      | .templateMiddle => bump; return .inl ()
      | .templateTail => bump; return .inr ()
      | _ => fail

/-- `import('m').T<U>`. -/
def importType (g : Grammar) : Reader Unit := do
  expectWord "import"
  expect .lparen
  g.anyType
  if ← eat .comma then
    if !(← at? .rparen) then let _ ← g.assignment
    let _ ← eat .comma
  expect .rparen
  if ← eat .dot then dottedName
  typeArgumentsHere g

/-- Types that are named by a word and take no arguments. -/
def plainTypes : List String := [
  "any", "unknown", "string", "number", "bigint", "symbol", "boolean", "undefined", "never",
  "object", "null"]

/-- A type without operators around it. -/
def primaryType (g : Grammar) : Reader Unit := do
  let t ← token
  match t.kind with
  | .string | .number | .bigint => bump
  | .minus =>
    bump
    if (← at? .number) || (← at? .bigint) then bump else fail
  | .templateWhole | .templateHead => templateType g
  | .lbrace => if ← atMappedType then mappedType g else typeMembers g
  | .lbrack =>
    bump
    let _ ← commaList .rbrack (tupleMember g)
    expect .rbrack
  | .lparen =>
    bump
    g.anyType
    expect .rparen
  | .word =>
    if t.text == "typeof" then
      bump
      if ← atWord? "import" then importType g
      else
        dottedName
        typeArgumentsHere g
    else if t.text == "import" then importType g
    else if ["this", "void", "true", "false"].contains t.text then bump
    else if plainTypes.contains t.text && (← peek).kind != .dot then bump
    else
      dottedName
      typeArgumentsHere g
  | _ => fail

/-- A type without operators around it, or one marked by `?` or `!` in front. A lone `?` stands for
the unknown type. -/
def markedType (g : Grammar) : Reader Unit := do
  let k ← kind
  if k == .bang then
    bump
    primaryType g
  else if k == .question then
    bump
    match ← kind with
    | .comma | .rbrace | .rparen | .gt | .assign | .pipe => return
    | _ => g.anyType
  else primaryType g

/-- The current token can start a type that is not in parentheses. -/
def atBareTypeStart : Reader Bool := do
  let t ← token
  match t.kind with
  | .number | .bigint | .string | .lbrace | .lbrack | .lt | .pipe | .amp | .star | .question | .bang
  | .ellipsis | .templateWhole | .templateHead => return true
  | .minus =>
    let next ← peek
    return next.kind == .number || next.kind == .bigint
  | .word =>
    return t.isIdentifier || ["void", "null", "this", "typeof", "new", "true", "false", "break",
      "import", "function"].contains t.text
  | _ => return false

/-- The current token can start a type. Parentheses may hold a type or parameters. -/
def atTypeStart : Reader Bool := do
  if !(← at? .lparen) then return ← atBareTypeStart
  lookahead (do
    let _ ← manyUntil (return !(← at? .lparen)) bump
    let k ← kind
    if k == .rparen || k == .decorator then return true
    atBareTypeStart)

/-- `T[]`, `T[K]`, `T?` and `T!` after a type. -/
def arrayType (g : Grammar) : Reader Unit := do
  markedType g
  loop () fun _ => do
    let t ← token
    if t.newlineBefore then return .inr ()
    match t.kind with
    | .lbrack =>
      bump
      if !(← at? .rbrack) then g.anyType
      expect .rbrack
      return .inl ()
    | .bang => bump; return .inl ()
    | .question =>
      -- Before a type it belongs to a conditional type or expression around this one.
      if ← lookahead (do bump; atTypeStart) then return .inr ()
      bump
      return .inl ()
    | _ => return .inr ()

/-- `keyof T`, `unique T`, `readonly T` and `infer T`, before a type. -/
def operatorType (g : Grammar) : Reader Unit :=
  loop () fun _ => do
    if ← atAnyWord? ["keyof", "unique", "readonly"] then
      bump
      return .inl ()
    if ← eatWord "infer" then
      let _ ← variableName
      -- A bound before `?` is the condition of a conditional type instead.
      let bounded ← attempt (do
        expectWord "extends"
        within ({ · with noConditionalType := true }) g.anyType
        if !(← context).noConditionalType && (← at? .question) then fail)
      let _ := bounded
      return .inr ()
    within ({ · with noConditionalType := false }) (arrayType g)
    return .inr ()

/-- Types between `&`. -/
def intersectionType (g : Grammar) : Reader Unit := do
  let _ ← eat .amp
  loop () fun _ => do
    operatorType g
    if ← eat .amp then return .inl () else return .inr ()

/-- Types between `|`. -/
def unionType (g : Grammar) : Reader Unit := do
  let _ ← eat .pipe
  loop () fun _ => do
    intersectionType g
    if ← eat .pipe then return .inl () else return .inr ()

/-- The `(` at hand surely opens the parameters of a function type. -/
def atFunctionTypeParameters : Reader Bool :=
  lookahead (do
    bump
    let k ← kind
    if k == .rparen || k == .ellipsis then return true
    let t ← token
    if t.isIdentifier || t.isWord "this" then advance
    else if k == .lbrace || k == .lbrack then
      match ← attempt skipBrackets with
      | some _ => pure ()
      | none => return false
    else return false
    let k ← kind
    if k == .colon || k == .comma || k == .question || k == .assign then return true
    if k != .rparen then return false
    bump
    at? .arrow)

/-- The current token starts a function or constructor type. -/
def atFunctionType : Reader Bool := do
  let t ← token
  if t.kind == .lt then return true
  if t.kind == .lparen then return ← atFunctionTypeParameters
  if t.isWord "new" then return true
  if t.isWord "abstract" then return (← peek).isWord "new"
  return false

/-- A type: a function type, or a union that may be the start of a conditional type. -/
def typeRule (g : Grammar) : Reader Unit := do
  if ← atFunctionType then
    let _ ← eatWord "abstract"
    let _ ← eatWord "new"
    typeParameters g
    typeLevelParameters g
    expect .arrow
    g.type .result
  else
    unionType g
    let t ← token
    if !(← context).noConditionalType && !t.newlineBefore && t.isWord "extends" then
      bump
      within ({ · with noConditionalType := true }) g.anyType
      expect .question
      within ({ · with noConditionalType := false }) g.anyType
      expect .colon
      within ({ · with noConditionalType := false }) g.anyType

/-- A result type: `x is T`, `asserts x`, `asserts x is T`, or a type. -/
def resultTypeRule (g : Grammar) : Reader Unit := do
  let t ← token
  let next ← peek
  if t.isWord "asserts" && next.isName && !next.newlineBefore && !next.isWord "is" then
    bump
    advance
    if (← atWord? "is") && !(← onNewLine) then bump; g.anyType
  else if t.isName && next.isWord "is" && !next.newlineBefore then
    advance
    bump
    g.anyType
  else g.anyType

/-! ### Types in expressions -/

/-- Words that start an expression besides those that name a variable. -/
def expressionWords : List String := [
  "this", "super", "null", "true", "false", "function", "class", "new", "import", "typeof", "void",
  "delete", "await", "yield"]

/-- The current token can start an expression. -/
def startsExpression (t : Token) : Bool :=
  match t.kind with
  | .number | .bigint | .string | .templateWhole | .templateHead | .lparen | .lbrack | .lbrace
  | .slash | .slashAssign | .plus | .minus | .tilde | .bang | .plusPlus | .minusMinus | .lt
  | .privateName | .decorator => true
  | .word => t.isIdentifier || expressionWords.contains t.text
  | _ => false

/-- The token is an operator that computes a value from two operands. -/
def isBinaryOperator (t : Token) : Bool :=
  match t.kind with
  | .pipe | .caret | .amp | .eqEq | .notEq | .eqEqEq | .notEqEq | .lt | .gt | .le | .ge | .shl
  | .shr | .ushr | .plus | .minus | .star | .slash | .percent | .starStar => true
  | .word => t.text == "in" || t.text == "instanceof"
  | _ => false

/-- The token joins an expression to what follows it: a binary or logical operator, or an
ascription. -/
def isInfix (t : Token) : Bool :=
  isBinaryOperator t || t.kind == .coalesce || t.kind == .pipePipe || t.kind == .ampAmp ||
    t.isWord "as" || t.isWord "satisfies"

/-- `<T, …>` after an expression. It gives up where a comparison is meant. -/
def typeArgumentsInExpression (g : Grammar) : Reader Unit := do
  let k ← narrowAngle
  if k != .lt then fail
  bump
  let (found, _) ← commaList .gt (do
    g.anyType
    let t ← token
    if t.kind == .gt then
      -- `a < b >= c` is a comparison.
      let _ ← widenAngle
      if ← at? .ge then fail
      let _ ← narrowAngle
      pure ()
    else pure ())
  faultIf found.isEmpty
  let _ ← narrowAngle
  expect .gt
  let t ← token
  match t.kind with
  | .lparen | .templateWhole | .templateHead => return
  | .lt | .gt | .plus | .minus => fail
  | _ => if t.newlineBefore || isInfix t || !startsExpression t then return else fail

end SourceRepair.Script
