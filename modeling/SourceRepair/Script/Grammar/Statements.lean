import SourceRepair.Script.Grammar.Expressions

/-!
# Statements

Control flow, declarations, imports and exports, and the declarations that only typed sources have.
-/

namespace SourceRepair.Script

open Reader

/-! ### Blocks and control flow -/

/-- An expression in parentheses, as a test or subject. -/
def inParens (g : Grammar) : Reader Expr := do
  expect .lparen
  let e ← g.fullExpression
  expect .rparen
  return e

/-- Statements in braces. -/
def braced (g : Grammar) : Reader (List Stmt) := do
  expect .lbrace
  let ss ← manyUntil (do let k ← kind; return k == .rbrace || k == .eof)
    (g.tree (.statement .list))
  expect .rbrace
  return ss

def blockStatement (g : Grammar) : Reader Stmt := do
  let first ← start
  let ss ← braced g
  return .block ss (← spanFrom first)

def ifStatement (g : Grammar) : Reader Stmt := do
  let first ← start
  bump
  let test ← inParens g
  let yes ← g.tree (.statement .single)
  if ← eatWord "else" then
    let no ← g.tree (.statement .single)
    return .ifThen test yes (some no) (← spanFrom first)
  return .ifThen test yes none (← spanFrom first)

def whileStatement (g : Grammar) : Reader Stmt := do
  let first ← start
  bump
  let test ← inParens g
  let body ← g.tree (.statement .single)
  return .whileLoop test body (← spanFrom first)

def doWhileStatement (g : Grammar) : Reader Stmt := do
  let first ← start
  bump
  let body ← g.tree (.statement .single)
  expectWord "while"
  let test ← inParens g
  let _ ← eat .semi
  return .doWhile body test (← spanFrom first)

def withStatement (g : Grammar) : Reader Stmt := do
  let first ← start
  bump
  let object ← inParens g
  let body ← g.tree (.statement .single)
  return .withObject object body (← spanFrom first)

/-- One `case` or `default` of a `switch`. -/
def switchCase (g : Grammar) : Reader Tree := do
  let first ← start
  let test ←
    if ← eatWord "case" then do
      let e ← g.fullExpression
      pure (some e)
    else do
      expectWord "default"
      pure none
  expect .colon
  let body ← manyUntil (do
    let t ← token
    return t.kind == .rbrace || t.kind == .eof || t.isWord "case" || t.isWord "default")
    (g.tree (.statement .list))
  return .switchCase test body (← spanFrom first)

def switchStatement (g : Grammar) : Reader Stmt := do
  let first ← start
  bump
  let value ← inParens g
  expect .lbrace
  let cases ← manyUntil (do let k ← kind; return k == .rbrace || k == .eof) (switchCase g)
  expect .rbrace
  return .switch value cases (← spanFrom first)

def tryStatement (g : Grammar) : Reader Stmt := do
  let first ← start
  bump
  let bodyStart ← start
  let body ← braced g
  let body := Tree.tryPart .body none body (← spanFrom bodyStart)
  let handler ←
    if ← eatWord "catch" then do
      let param ←
        if ← eat .lparen then do
          let p ← bindingTarget g false
          expect .rparen
          pure (some p)
        else pure none
      let handlerStart ← start
      let ss ← braced g
      pure [Tree.tryPart .handler param ss (← spanFrom handlerStart)]
    else pure []
  let finalizer ←
    if ← eatWord "finally" then do
      let finalizerStart ← start
      let ss ← braced g
      pure [Tree.tryPart .finalizer none ss (← spanFrom finalizerStart)]
    else pure []
  faultIf (handler.isEmpty && finalizer.isEmpty)
  return .tryCatch (body :: handler ++ finalizer) (← spanFrom first)

def throwStatement (g : Grammar) : Reader Stmt := do
  let first ← start
  bump
  faultIf (← onNewLine)
  let e ← g.fullExpression
  endStatement
  return .throws e (← spanFrom first)

def returnStatement (g : Grammar) : Reader Stmt := do
  let first ← start
  faultIf !(← context).inFunction
  bump
  if (← eat .semi) || (← canEndStatement) then return .returns none (← spanFrom first)
  let e ← g.fullExpression
  endStatement
  return .returns (some e) (← spanFrom first)

/-- `break` and `continue`. -/
def jumpStatement : Reader Stmt := do
  let first ← start
  bump
  if !(← canEndStatement) then
    let _ ← variableName
  endStatement
  return .jump (← spanFrom first)

def debuggerStatement : Reader Stmt := do
  let first ← start
  bump
  endStatement
  return .debugger (← spanFrom first)

/-! ### Variables -/

/-- A declared variable. Outside of loop heads, constants and patterns need a value. -/
def declarator (g : Grammar) (kind : DeclarationKind) (inLoop : Bool) : Reader Tree := do
  let first ← start
  let pattern ← do
    let p ← match ← Reader.kind with
      | .lbrace | .lbrack => bindingTarget g false
      | _ => do
        let n ← bindingName
        if (← isTypescript) && (← at? .bang) then bump
        typeAnnotation g
        pure (Tree.name n.text n.span)
    pure p
  let init ←
    if ← eat .assign then do
      let e ← g.assignment
      pure (some e)
    else pure none
  if !inLoop && init.isNone && !(← context).ambient then
    match pattern with
    | .name _ _ => faultIf (kind == .const || kind == .using)
    | _ => fault
  return .declarator pattern init (← spanFrom first)

/-- Which keyword starts a declaration. -/
def declarationKind? (text : String) : Option DeclarationKind :=
  match text with
  | "var" => some .var
  | "let" => some .let
  | "const" => some .const
  | "using" => some .using
  | _ => none

/-- A declaration of variables without its end; `first` is where it starts. -/
def variableDeclaration (g : Grammar) (first : Nat) (inLoop : Bool) : Reader Tree := do
  match declarationKind? (← token).text with
  | none => fail
  | some kind =>
    bump
    let ds ← loop [] fun found => do
      let d ← declarator g kind inLoop
      if ← eat .comma then return .inl (d :: found)
      return .inr (d :: found).reverse
    return .declaration kind ds (← spanFrom first)

/-- A declaration of variables as a statement. -/
def variableStatement (g : Grammar) (first : Nat) (place : StatementPlace) : Reader Stmt := do
  let d ← variableDeclaration g first false
  endStatement
  match d with
  | .declaration kind ds _ =>
    faultIf (place == .single && kind != .var)
    return .declaration kind ds (← spanFrom first)
  | _ => fail

/-! ### Expressions as statements -/

/-- The end of a statement that is an expression. -/
def expressionStatement (first : Nat) (e : Expr) : Reader Stmt := do
  endStatement
  return .expression e (← spanFrom first)

/-- An expression, or a label with its statement. -/
def expressionOrLabel (g : Grammar) : Reader Stmt := do
  let first ← start
  let e ← g.fullExpression
  match e with
  | .identifier text span =>
    if ← eat .colon then
      let body ← g.tree (.statement .single)
      return .labeled ⟨text, span⟩ body (← spanFrom first)
    expressionStatement first e
  | _ => expressionStatement first e

/-- A statement that starts with `let`, which may also be a name. -/
def letStatement (g : Grammar) (place : StatementPlace) : Reader Stmt := do
  let first ← start
  let next ← peek
  if next.kind.isAssignment || isBinaryOperator next then
    let e ← g.fullAssignment
    expressionStatement first e
  else if next.kind == .dot || next.kind == .lparen then
    let e ← g.fullExpression
    return .expression e (← spanFrom first)
  else if (place == .single && next.kind != .lbrack) || next.kind == .semi then
    let t ← token
    advance
    expressionStatement first (.identifier t.text t.span)
  else variableStatement g first place

/-! ### Loops -/

/-- The rest of a `for` loop with three parts. -/
def forLoopRest (g : Grammar) (first : Nat) (init : Option Tree) : Reader Stmt := do
  expect .semi
  let test ←
    if (← at? .semi) || (← at? .rparen) then pure none
    else do
      let e ← g.fullExpression
      pure (some e)
  expect .semi
  let update ←
    if ← at? .rparen then pure none
    else do
      let e ← g.fullExpression
      pure (some e)
  expect .rparen
  let body ← g.tree (.statement .single)
  return .forLoop init test update body (← spanFrom first)

def forInRest (g : Grammar) (first : Nat) (left : Tree) : Reader Stmt := do
  expectWord "in"
  let right ← g.fullExpression
  expect .rparen
  let body ← g.tree (.statement .single)
  return .forIn left right body (← spanFrom first)

def forOfRest (g : Grammar) (first : Nat) (left : Tree) : Reader Stmt := do
  expectWord "of"
  let right ← g.fullAssignment
  expect .rparen
  let body ← g.tree (.statement .single)
  return .forOf left right body (← spanFrom first)

/-- `using x = …` declares here. -/
def atUsing : Reader Bool := do
  let next ← peek
  return next.isIdentifier && !next.newlineBefore && !next.isWord "in" && !next.isWord "instanceof"

/-- `await using x = …` declares here. -/
def atAwaitUsing : Reader Bool :=
  lookahead (do
    bump
    let t ← token
    if !(t.isWord "using") || t.newlineBefore then return false
    advance
    let t ← token
    return t.isIdentifier && !t.newlineBefore)

/-- The word after `let` makes a declaration of it in the head of a loop. -/
def followsLet (t : Token) : Bool :=
  t.kind == .lbrace || t.kind == .lbrack || (t.kind == .word && t.text != "in")

def forStatement (g : Grammar) : Reader Stmt := do
  let first ← start
  bump
  let waits ← atWord? "await"
  if waits then
    faultIf !(← context).inAsync
    bump
  expect .lparen
  if ← at? .semi then
    faultIf waits
    return ← forLoopRest g first none
  let t ← token
  let next ← peek
  let declares := t.isWord "const" || t.isWord "var" || (t.isWord "let" && followsLet next) ||
    (t.isWord "using" && next.isIdentifier && !next.newlineBefore && !next.isWord "of")
  let awaits := t.isWord "await" && (← atAwaitUsing)
  if declares || awaits then
    if awaits then bump
    let d ← within ({ · with allowIn := false }) (variableDeclaration g t.span.start true)
    if ← atWord? "in" then
      faultIf waits
      forInRest g first d
    else if ← atWord? "of" then forOfRest g first d
    else
      faultIf waits
      match d with
      | .declaration kind ds _ =>
        faultIf (ds.any fun
          | .declarator (.name _ _) init _ => init.isNone && kind == .const
          | .declarator _ init _ => init.isNone
          | _ => false)
      | _ => pure ()
      forLoopRest g first (some d)
  else
    let asyncOf := t.isWord "async" && next.isWord "of"
    let e ← within ({ · with allowIn := false }) g.expression
    if ← atWord? "in" then
      faultIf waits
      let target ← assignmentTarget e
      forInRest g first target
    else if ← atWord? "of" then
      faultIf (!waits && asyncOf)
      let target ← assignmentTarget e
      forOfRest g first target
    else
      faultIf waits
      forLoopRest g first (some e)

/-! ### Typed declarations -/

/-- The words from which a typed declaration can be told. -/
def atTypedDeclaration : Reader Bool :=
  lookahead (loop none fun (previous : Option String) => do
    let t ← token
    if t.kind != .word then return .inr false
    if ["var", "let", "const", "function", "class", "enum"].contains t.text then
      return .inr true
    if t.text == "interface" || t.text == "type" then
      let next ← peek
      return .inr (next.isIdentifier && !next.newlineBefore)
    if t.text == "module" || t.text == "namespace" then
      let next ← peek
      return .inr ((next.isIdentifier || next.kind == .string) && !next.newlineBefore)
    if t.text == "global" then
      let next ← peek
      return .inr (next.kind == .lbrace || next.isIdentifier || next.isWord "export")
    if ["abstract", "accessor", "async", "declare", "private", "protected", "public",
        "readonly"].contains t.text then
      bump
      if ← onNewLine then return .inr false
      if t.text == "declare" && (← atWord? "type") then return .inr true
      return .inl (some t.text)
    if t.text == "static" then
      bump
      return .inl (some t.text)
    if t.text == "import" && previous.isSome then
      let next ← peek
      return .inr (next.kind == .string || next.kind == .star || next.kind == .lbrace || next.isName)
    return .inr false)

/-- A member of an enumeration. -/
def enumMember (g : Grammar) : Reader Tree := do
  let first ← start
  let t ← token
  let name ← match t.kind with
    | .word => do advance; pure t.text
    | .string => do bump; pure t.text
    | .templateWhole => do bump; pure ""
    | .lbrack => do
      bump
      let s ← token
      if s.kind == .string || s.kind == .templateWhole then bump else fail
      expect .rbrack
      pure s.text
    | .number | .bigint => do fault; bump; pure ""
    | _ => fail
  let init ←
    if ← eat .assign then do
      let e ← g.fullAssignment
      pure (some e)
    else pure none
  return .enumMember name init (← spanFrom first)

def enumDeclaration (g : Grammar) (first : Nat) : Reader Stmt := do
  expectWord "enum"
  let n ← bindingName
  expect .lbrace
  let (members, _) ← commaList .rbrace (enumMember g)
  expect .rbrace
  return .enumDecl n members (← spanFrom first)

def interfaceDeclaration (g : Grammar) (first : Nat) : Reader Stmt := do
  expectWord "interface"
  let n ← bindingName
  typeParameters g
  loop () fun _ => do
    if (← atWord? "extends") || (← atWord? "implements") then
      faultIf (← atWord? "implements")
      bump
      loop () fun _ => do
        g.anyType
        if ← eat .comma then return .inl () else return .inr ()
      return .inl ()
    return .inr ()
  typeMembers g
  return .typeDecl n (← spanFrom first)

def typeAlias (g : Grammar) (first : Nat) : Reader Stmt := do
  expectWord "type"
  let n ← bindingName
  typeParameters g
  expect .assign
  let next ← peek
  if (← atWord? "intrinsic") && next.kind != .dot then bump else g.anyType
  endStatement
  return .typeDecl n (← spanFrom first)

/-- The block of a namespace. -/
def namespaceBlock (g : Grammar) : Reader (List Stmt) := do
  expect .lbrace
  let (ds, ss) ← within ({ · with
      allowIn := true, inFunction := false, inGenerator := false }) (statementList g)
  expect .rbrace
  return ds.map (fun d => .expression (.string d.text d.span) d.span) ++ ss

/-- A namespace or module, at its keyword. -/
def moduleDeclaration (g : Grammar) (first : Nat) : Reader Stmt := do
  if ← atWord? "global" then
    bump
    let ss ← namespaceBlock g
    return .moduleDecl none ss (← spanFrom first)
  bump
  if ← at? .string then
    bump
    if ← at? .lbrace then
      let ss ← namespaceBlock g
      return .moduleDecl none ss (← spanFrom first)
    endStatement
    return .moduleDecl none [] (← spanFrom first)
  let n ← bindingName
  loop () fun _ => do
    if ← eat .dot then
      let _ ← identifierName
      return .inl ()
    return .inr ()
  let ss ← namespaceBlock g
  return .moduleDecl (some n) ss (← spanFrom first)

/-- `import a = …` after its name. -/
def importAliasRest (g : Grammar) (first : Nat) (n : Name) (isType : Bool) : Reader Stmt := do
  expect .assign
  let next ← peek
  if (← atWord? "require") && next.kind == .lparen then
    bump
    expect .lparen
    if ← at? .string then bump else fail
    expect .rparen
  else
    dottedName
    typeArgumentsHere g
  endStatement
  return .importAlias n isType (← spanFrom first)

/-- A declaration after its modifiers; `first` is where these start. -/
def declarationRest (g : Grammar) (first : Nat) : Reader Stmt := do
  let t ← token
  if t.kind != .word then fail
  match t.text with
  | "var" | "let" => variableStatement g first .list
  | "const" =>
    if (← peek).isWord "enum" then
      bump
      enumDeclaration g first
    else variableStatement g first .list
  | "function" => return .functionDecl (← functionFromKeyword g first false true false)
  | "class" => return .classDecl (← classDefinition g first [])
  | "enum" => enumDeclaration g first
  | "interface" => interfaceDeclaration g first
  | "type" => typeAlias g first
  | "module" | "namespace" | "global" => moduleDeclaration g first
  | "import" =>
    bump
    let isType := (← atWord? "type") && (← peek).isIdentifier
    if isType then bump
    let n ← bindingName
    importAliasRest g first n isType
  | _ => fail

/-- A declaration with the modifiers that only typed sources have. -/
def typedDeclaration (g : Grammar) (first : Nat) : Reader Stmt := do
  let ms ← loop [] fun earlier => do
    let t ← token
    let next ← peek
    let isModifier := ["abstract", "accessor", "async", "declare", "private", "protected",
      "public", "readonly", "static"].contains t.text
    if !(t.kind == .word && isModifier && next.kind == .word && !next.newlineBefore) then
      return .inr earlier
    faultIf (misplaced earlier t.text)
    bump
    return .inl (t.text :: earlier)
  faultIf (ms.any fun m => !(["abstract", "async", "declare"].contains m))
  let isAsync := ms.contains "async"
  let run :=
    if isAsync then do
      return Tree.functionDecl (← functionFromKeyword g first true true false)
    else declarationRest g first
  if ms.contains "declare" then within ({ · with ambient := true }) run else run

/-! ### Imports -/

/-- The name of an export, which may be a string. -/
def moduleExportName : Reader Name := do
  let t ← token
  match t.kind with
  | .word => advance; return ⟨t.text, t.span⟩
  | .string => bump; return ⟨t.text, t.span⟩
  | _ => fail

/-- Whether `type` before a specifier marks it, and the two names around `as`. The flag says that
the second name is bound here. -/
def specifierNames : Reader (Bool × Name × Name) := do
  let t ← token
  let next ← peek
  -- `type` marks a specifier unless it is the imported name itself.
  let marked ← lookahead (do
    if !(t.isWord "type") || !(next.isName || next.kind == .string) then return false
    if !next.isWord "as" then return true
    advance
    advance
    -- `type as`, `type as as`, `type as as x`, `type as x`.
    let third ← token
    if third.isWord "as" then
      advance
      return (← token).isName || (← at? .string)
    return !(third.isName || third.kind == .string))
  if marked then bump
  let imported ← moduleExportName
  if ← eatWord "as" then
    let bound ← moduleExportName
    return (marked, imported, bound)
  return (marked, imported, imported)

/-- One specifier in the braces of an import. -/
def importSpecifier : Reader ImportSpecifier := do
  let first ← start
  let (marked, imported, bound) ← specifierNames
  let span ← spanFrom first
  faultIf (marked && !(← isTypescript))
  faultIf (reservedWords.contains bound.text)
  return .named imported bound marked span

/-- One attribute of an import. -/
def importAttribute (g : Grammar) : Reader ImportAttribute := do
  let key ← token
  if key.kind == .word then advance else if key.kind == .string then bump else fail
  expect .colon
  let value ← token
  if value.kind != .string then fail
  let _ ← g.assignment
  return ⟨key.text, value.text⟩

/-- The attributes of an import: `with { type: 'json' }`. -/
def importAttributes (g : Grammar) : Reader (List ImportAttribute) := do
  let t ← token
  if t.isWord "with" || (t.isWord "assert" && !t.newlineBefore) then
    bump
    expect .lbrace
    let (items, _) ← commaList .rbrace (importAttribute g)
    expect .rbrace
    return items
  return []

/-- The module that is imported from, with its attributes and the end of the statement. -/
def importSource (g : Grammar) (first : Nat) (specifiers : Option (List ImportSpecifier))
    (isType : Bool) : Reader Stmt := do
  let t ← token
  if t.kind != .string then fail
  bump
  let attributes ← importAttributes g
  endStatement
  return .importDecl ⟨t.text, t.span, specifiers, isType, attributes, ← spanFrom first⟩

/-- `* as n` or `{ … }` in an import. -/
def importBraces : Reader (List ImportSpecifier) := do
  let first ← start
  if ← eat .star then
    expectWord "as"
    let n ← bindingName
    return [.star n (← spanFrom first)]
  expect .lbrace
  let (items, _) ← commaList .rbrace importSpecifier
  expect .rbrace
  return items

/-- An import declaration. -/
def importDeclaration (g : Grammar) : Reader Stmt := do
  let first ← start
  bump
  if ← at? .string then return ← importSource g first none false
  -- A phase or `type` counts as such only if something is bound after it.
  let t ← token
  let next ← peek
  let isType ←
    if t.isWord "type" then
      if next.kind == .lbrace || next.kind == .star then pure true
      else if next.isIdentifier then
        if next.isWord "from" then
          lookahead (do
            advance
            advance
            let third ← token
            return third.isWord "from" || third.kind == .assign)
        else pure true
      else pure false
    else pure false
  let phased ←
    if t.isWord "defer" then pure (next.kind == .star)
    else if t.isWord "source" then
      lookahead (do
        advance
        if !(← token).isIdentifier then return false
        advance
        atWord? "from")
    else pure false
  if isType || phased then bump
  faultIf (isType && !(← isTypescript))
  let nameStart ← start
  if (← token).isIdentifier then
    let n ← bindingName
    let whole := ImportSpecifier.whole n (← spanFrom nameStart)
    if (← at? .assign) && (← isTypescript) then
      return ← importAliasRest g first n isType
    let more ← if ← eat .comma then importBraces else pure []
    faultIf (isType && !more.isEmpty)
    expectWord "from"
    importSource g first (some (whole :: more)) isType
  else
    let items ← importBraces
    expectWord "from"
    importSource g first (some items) isType

/-! ### Exports -/

/-- Notes an exported name. In untyped sources no name may be exported twice. -/
def noteExport (name : String) : Reader Unit := do
  let s ← get
  faultIf (!s.dialect.typescript && s.exports.contains name)
  modify fun s => { s with exports := name :: s.exports }

/-- The names that a declaration binds around it. -/
def Tree.declaredNames : Stmt → List Name
  | .declaration _ ds _ => boundNamesList ds
  | .functionDecl (.function head _ _) => head.name.toList
  | .classDecl (.classDef n? _ _ _ _) => n?.toList
  | .enumDecl n _ _ => [n]
  | .moduleDecl n? _ _ => n?.toList
  | _ => []

/-- One specifier in the braces of an export: the local and the exported name. -/
def exportSpecifier : Reader (Name × Name × Bool) := do
  let t ← token
  let (_, inner, outer) ← specifierNames
  return (inner, outer, t.kind == .string)

/-- Named exports, from the brace on. -/
def exportBraces (g : Grammar) (first : Nat) : Reader Stmt := do
  expect .lbrace
  let (items, _) ← commaList .rbrace exportSpecifier
  expect .rbrace
  let mut locals := []
  if ← eatWord "from" then
    if ← at? .string then bump else fail
    let _ ← importAttributes g
  else
    for (inner, _, isString) in items do
      faultIf (isString || reservedWords.contains inner.text)
    locals := items.map (·.1)
  for (_, outer, _) in items do
    noteExport outer.text
  endStatement
  return .exportNamed none locals (← spanFrom first)

/-- `export default …`, after its first word. -/
def exportDefault (g : Grammar) (first : Nat) (ds : List Expr) : Reader Stmt := do
  expectWord "default"
  noteExport "default"
  let valueStart ← start
  let ds' ← decorators g
  let ds := ds ++ ds'
  let t ← token
  let next ← peek
  if t.isWord "class" then
    let c ← classDefinition g valueStart ds
    return .exportDefault (.classDecl c) (← spanFrom first)
  else if t.isWord "abstract" && next.isWord "class" && (← isTypescript) then
    bump
    let c ← classDefinition g valueStart ds
    return .exportDefault (.classDecl c) (← spanFrom first)
  else if t.isWord "function" then
    let f ← functionFromKeyword g valueStart false false false
    return .exportDefault (.functionDecl f) (← spanFrom first)
  else if t.isWord "async" && next.isWord "function" && !next.newlineBefore then
    bump
    let f ← functionFromKeyword g valueStart true false false
    return .exportDefault (.functionDecl f) (← spanFrom first)
  else if t.isWord "interface" && next.isIdentifier && !next.newlineBefore &&
      (← isTypescript) then
    let d ← interfaceDeclaration g valueStart
    return .exportDefault d (← spanFrom first)
  else
    let e ← g.fullAssignment
    endStatement
    return .exportDefault e (← spanFrom first)

/-- `export * from …`, at the star. -/
def exportStar (g : Grammar) (first : Nat) : Reader Stmt := do
  expect .star
  if ← eatWord "as" then
    let n ← moduleExportName
    noteExport n.text
  expectWord "from"
  if ← at? .string then bump else fail
  let _ ← importAttributes g
  endStatement
  return .exportAll (← spanFrom first)

/-- An export. `ds` are the decorators before it. -/
def exportDeclaration (g : Grammar) (first : Nat) (ds : List Expr) : Reader Stmt := do
  expectWord "export"
  let t ← token
  let next ← peek
  let typed ← isTypescript
  match t.kind with
  | .assign =>
    if !typed then fail
    bump
    let e ← g.fullExpression
    endStatement
    return .exportAssignment e (← spanFrom first)
  | .star => exportStar g first
  | .lbrace => exportBraces g first
  | .decorator =>
    let declStart ← start
    let ds' ← decorators g
    let _ ← eatWord "abstract"
    let c ← classDefinition g declStart (ds ++ ds')
    return .exportNamed (some (.classDecl c)) [] (← spanFrom first)
  | .word =>
    if t.text == "default" then exportDefault g first ds
    else if typed && t.text == "as" && next.isWord "namespace" then
      bump
      bump
      let _ ← identifierName
      endStatement
      return .namespaceExport (← spanFrom first)
    else if typed && t.text == "type" && next.kind == .lbrace then
      bump
      exportBraces g first
    else if typed && t.text == "type" && next.kind == .star then
      bump
      exportStar g first
    else
      let declStart ← start
      let d ←
        if t.text == "class" then do
          let c ← classDefinition g (if ds.isEmpty then declStart else first) ds
          pure (Tree.classDecl c)
        else if t.text == "async" && next.isWord "function" && !next.newlineBefore then do
          bump
          let f ← functionFromKeyword g declStart true true false
          pure (Tree.functionDecl f)
        else if t.text == "import" && typed then declarationRest g declStart
        else if ["var", "let", "const", "function"].contains t.text then
          declarationRest g declStart
        else if typed && (← atTypedDeclaration) then typedDeclaration g declStart
        else fail
      for n in d.declaredNames do
        noteExport n.text
      return .exportNamed (some d) [] (← spanFrom first)
  | _ => fail

/-! ### Statements -/

/-- A statement with decorators: a class, exported or not. -/
def decoratedStatement (g : Grammar) : Reader Stmt := do
  let first ← start
  let ds ← decorators g
  let t ← token
  if t.isWord "export" then exportDeclaration g first ds
  else
    if t.isWord "abstract" || t.isWord "declare" then bump
    let c ← classDefinition g first ds
    return .classDecl c

/-- A statement that starts with a word. -/
def wordStatement (g : Grammar) (t : Token) (place : StatementPlace) : Reader Stmt := do
  let first := t.span.start
  match t.text with
  | "if" => ifStatement g
  | "for" => forStatement g
  | "while" => whileStatement g
  | "do" => doWhileStatement g
  | "return" => returnStatement g
  | "switch" => switchStatement g
  | "try" => tryStatement g
  | "throw" => throwStatement g
  | "break" | "continue" => jumpStatement
  | "debugger" => debuggerStatement
  | "with" => withStatement g
  | "var" => variableStatement g first place
  | "const" =>
    if (← isTypescript) && (← peek).isWord "enum" then
      bump
      enumDeclaration g first
    else variableStatement g first place
  | "let" => if t.escaped then expressionOrLabel g else letStatement g place
  | "function" =>
    let f ← functionFromKeyword g first false true false
    match f with
    | .function head _ _ => faultIf (place == .single && head.isGenerator)
    | _ => pure ()
    return .functionDecl f
  | "class" =>
    let c ← classDefinition g first []
    faultIf (place == .single)
    return .classDecl c
  | "async" =>
    let next ← peek
    if next.isWord "function" && !next.newlineBefore && !t.escaped then
      bump
      let f ← functionFromKeyword g first true true false
      faultIf (place == .single)
      return .functionDecl f
    else expressionOrLabel g
  | "import" =>
    let next ← peek
    if next.kind == .lparen || next.kind == .dot then expressionOrLabel g
    else importDeclaration g
  | "export" => exportDeclaration g first []
  | "using" =>
    if ← atUsing then variableStatement g first place else expressionOrLabel g
  | "await" =>
    if (← context).inAsync && (← atAwaitUsing) then
      bump
      variableStatement g first place
    else expressionOrLabel g
  | _ =>
    if (← isTypescript) && (← atTypedDeclaration) then typedDeclaration g first
    else expressionOrLabel g

/-- A statement or declaration. -/
def statementRule (g : Grammar) (place : StatementPlace) : Reader Stmt := do
  let t ← token
  match t.kind with
  | .lbrace => blockStatement g
  | .semi =>
    bump
    return .empty t.span
  | .decorator => decoratedStatement g
  | .word => wordStatement g t place
  | _ => expressionOrLabel g

end SourceRepair.Script
