import SourceRepair.Script.Grammar.Types

/-!
# Patterns, functions, objects and classes

Bindings with their defaults, the parameters and bodies of functions, and the members of object
literals and classes. An expression that turns out to be the target of an assignment is read again
as a pattern.
-/

namespace SourceRepair.Script

open Reader

/-! ### Targets of assignments -/

/-- The expression inside parentheses and type ascriptions. -/
def Tree.core : Expr → Expr
  | .paren inner _ => inner.core
  | .ascribe .instantiation inner span => .ascribe .instantiation inner span
  | .ascribe _ inner _ => inner.core
  | e => e

/-- The expression is a name or a member. -/
def Tree.isReference : Expr → Bool
  | .identifier _ _ | .member _ _ _ _ | .index _ _ _ _ | .privateMember _ _ _ _ => true
  | _ => false

/-- A name or member as the target of an assignment. -/
def simpleTarget : Expr → Reader Pattern
  | .identifier text span => return .name text span
  | .paren (.array _ _) _ | .paren (.object _ _) _ => fail
  | .paren inner _ => simpleTarget inner
  | .ascribe kind inner span =>
    if kind != .instantiation && inner.core.isReference then return .ascribe kind inner span else fail
  | e => if e.isReference then return e else fail

mutual

/-- An expression as the target of an assignment by `=`. -/
def assignmentTarget : Expr → Reader Pattern
  | .array elements span => do return .arrayPattern (← arrayTargets elements) span
  | .object properties span => do return .objectPattern (← objectTargets properties) span
  | e => simpleTarget e

/-- An element of an array literal, or a value of an object literal, as a target with its
default. -/
def elementTarget : Expr → Reader Pattern
  | .assign compound target value span => do
    faultIf compound
    return .withDefault target value span
  | .array elements span => do return .arrayPattern (← arrayTargets elements) span
  | .object properties span => do return .objectPattern (← objectTargets properties) span
  | e => simpleTarget e

def arrayTargets : List Tree → Reader (List Pattern)
  | [] => return []
  | .hole span :: rest => do return .hole span :: (← arrayTargets rest)
  | .spread inner span :: rest => do
    faultIf !rest.isEmpty
    let target ← assignmentTarget inner
    return .rest target span :: (← arrayTargets rest)
  | e :: rest => do
    let target ← elementTarget e
    return target :: (← arrayTargets rest)

def objectTargets : List Tree → Reader (List Pattern)
  | [] => return []
  | .spread inner span :: rest => do
    faultIf !rest.isEmpty
    let target ← assignmentTarget inner
    return .rest target span :: (← objectTargets rest)
  | .property key computed value shorthand cover span :: rest => do
    let target ← match shorthand, cover, key with
      | true, some default, .name text nameSpan => do
        modify fun s => { s with covers := s.covers.filter (· != span.start) }
        pure (.withDefault (.name text nameSpan) default span)
      | true, none, .name text nameSpan => pure (.name text nameSpan)
      | _, _, _ => elementTarget value
    return .patternProperty key computed target span :: (← objectTargets rest)
  | _ => fail

end

/-! ### Bindings -/

/-- A name used where `await` or `yield` may be an operator. -/
def checkName (t : Token) : Reader Unit := do
  let c ← context
  faultIf (c.inAsync && t.text == "await")
  faultIf (c.inGenerator && t.text == "yield")

/-- A name that is being bound. -/
def bindingName : Reader Name := do
  let t ← token
  if !t.isIdentifier then fail
  checkName t
  advance
  return ⟨t.text, t.span⟩

/-- The key of a property, and whether it is computed. -/
def propertyKey (g : Grammar) : Reader (Tree × Bool) := do
  let t ← token
  match t.kind with
  | .string => bump; return (.string t.text t.span, false)
  | .number | .bigint => bump; return (.literal .number t.span, false)
  | .lbrack =>
    bump
    let e ← g.fullAssignment
    expect .rbrack
    return (e, true)
  | .privateName => bump; return (.privateName t.text t.span, false)
  | .word => advance; return (.name t.text t.span, false)
  | _ => fail

/-- A rest element may only come last, and no comma may follow it. -/
def checkRest (items : List Tree) (trailing : Bool) : Reader Unit := do
  let isRest : Tree → Bool := fun
    | .rest _ _ => true
    | _ => false
  let early := (items.dropLast).any isRest
  faultIf (early || (trailing && items.getLast?.any isRest))

/-- `...` before a binding. -/
def restBinding (g : Grammar) : Reader Pattern := do
  let first ← start
  expect .ellipsis
  let inner ← g.tree .binding
  return .rest inner (← spanFrom first)

/-- A property of an object pattern. -/
def bindingProperty (g : Grammar) : Reader Pattern := do
  let first ← start
  let t ← token
  let (key, computed) ← propertyKey g
  if ← eat .colon then
    let value ← g.tree .binding
    return .patternProperty key computed value (← spanFrom first)
  if !t.isIdentifier then fail
  checkName t
  let name := Tree.name t.text t.span
  if ← eat .assign then
    let default ← g.fullAssignment
    let span ← spanFrom first
    return .patternProperty key computed (.withDefault name default span) span
  return .patternProperty key computed name (← spanFrom first)

/-- A binding without its default. A parameter may be marked optional. -/
def bindingTarget (g : Grammar) (optional : Bool) : Reader Pattern := do
  let first ← start
  let pattern ← match ← kind with
    | .lbrace => do
      bump
      let (items, trailing) ← commaList .rbrace (do
        if ← at? .ellipsis then restBinding g else bindingProperty g)
      expect .rbrace
      checkRest items trailing
      pure (Tree.objectPattern items (← spanFrom first))
    | .lbrack => do
      bump
      let (items, trailing) ← commaList .rbrack (do
        match ← kind with
        | .comma => return Tree.hole ⟨← start, ← start⟩
        | .ellipsis => restBinding g
        | _ => g.tree .binding)
      expect .rbrack
      checkRest items trailing
      pure (Tree.arrayPattern items (← spanFrom first))
    | _ => do
      let n ← bindingName
      pure (Tree.name n.text n.span)
  if optional && (← isTypescript) then
    let _ ← eat .question
  typeAnnotation g
  return pattern

/-- A binding with its default. -/
def bindingRule (g : Grammar) : Reader Pattern := do
  let first ← start
  let pattern ← bindingTarget g true
  if ← eat .assign then
    let default ← g.fullAssignment
    return .withDefault pattern default (← spanFrom first)
  return pattern

/-! ### Decorators and modifiers -/

/-- All decorators at the current place. -/
def decorators (g : Grammar) : Reader (List Expr) :=
  manyUntil (return !(← at? .decorator)) (do
    bump
    within ({ · with inDecorator := true }) (g.tree .leftHandSide))

/-- Words before a class member or parameter that change it. -/
def memberModifiers : List String := [
  "public", "private", "protected", "readonly", "override", "declare", "abstract", "static",
  "async", "accessor", "export", "const", "default", "in", "out"]

/-- The current word is a modifier of what follows it, after the modifiers `earlier`. A second
`static` is a name. -/
def atModifier (earlier : List String) : Reader Bool := do
  if !(← atAnyWord? memberModifiers) then return false
  let t ← token
  let next ← peek
  if t.text == "static" then
    return !earlier.contains "static" && canFollowModifier next && next.kind != .lbrace
  if t.text == "const" then return next.isWord "enum"
  return !next.newlineBefore && canFollowModifier next

/-- Who may see a member. -/
def visibilities : List String := ["public", "private", "protected"]

/-- Modifiers that may not stand before a modifier: it is repeated, or belongs in front of them. -/
def forbiddenBefore (modifier : String) : List String :=
  if visibilities.contains modifier then
    visibilities ++ ["override", "static", "accessor", "readonly", "async"]
  else if modifier == "static" then ["readonly", "async", "accessor", "override"]
  else if modifier == "override" then ["override", "readonly", "accessor", "async"]
  else [modifier]

/-- A modifier is out of place after the modifiers `earlier`. -/
def misplaced (earlier : List String) (modifier : String) : Bool :=
  (forbiddenBefore modifier).any earlier.contains

/-- All modifiers at the current place. -/
def modifiers : Reader (List String) :=
  loop [] fun earlier => do
    if !(← atModifier earlier) then return .inr earlier.reverse
    let t ← token
    faultIf (misplaced earlier t.text)
    bump
    return .inl (t.text :: earlier)

/-- Modifiers that only typed sources have. -/
def typedModifiers : List String := [
  "public", "private", "protected", "readonly", "override", "declare", "abstract", "export",
  "const", "default", "in", "out"]

/-! ### Functions -/

/-- One parameter with its decorators and modifiers. -/
def formalParameter (g : Grammar) : Reader Tree := do
  let first ← start
  if ← at? .ellipsis then return ← restBinding g
  let ds ← decorators g
  let ms ← modifiers
  let typed ← isTypescript
  faultIf (!ms.isEmpty && (!typed ||
    ms.any fun m => !(["public", "private", "protected", "readonly", "override"].contains m)))
  let pattern ← g.tree .binding
  return .param ds pattern (← spanFrom first)

/-- The parameters of a function with their parentheses, and the span of all. -/
def formalParameters (g : Grammar) : Reader (List Tree × Span) := do
  let first ← start
  expect .lparen
  if (← isTypescript) && (← atWord? "this") then
    bump
    typeAnnotation g
    if !(← at? .rparen) then expect .comma
  let (items, trailing) ← commaList .rparen (formalParameter g)
  expect .rparen
  checkRest items trailing
  return (items, ← spanFrom first)

/-- The characters that the next bytes of a text hold. -/
def takeBytes : Nat → List Char → List Char
  | 0, _ => []
  | _, [] => []
  | n + 1, c :: cs => c :: takeBytes (n + 1 - c.utf8Size) cs

/-- The text between the quotes of a string token. -/
def Token.unquoted (t : Token) : String :=
  String.ofList (takeBytes (t.span.stop - t.span.start - 2) (t.source.drop 1))

/-- What a list of statements has read so far, in reverse, and whether directives may follow. -/
structure Statements where
  directives : List Directive := []
  body : List Stmt := []
  prologue : Bool := true

/-- Statements up to a closing brace or the end, with the directives before them. -/
def statementList (g : Grammar) : Reader (List Directive × List Stmt) :=
  loop ({} : Statements) fun found => do
    let t ← token
    if t.kind == .rbrace || t.kind == .eof then
      return .inr (found.directives.reverse, found.body.reverse)
    let s ← g.tree (.statement .list)
    match found.prologue, s with
    | true, .expression (.string _ inner) span =>
      if inner.start == span.start then
        return .inl { found with directives := ⟨t.unquoted, span⟩ :: found.directives }
      else return .inl { found with body := s :: found.body, prologue := false }
    | _, _ => return .inl { found with body := s :: found.body, prologue := false }

/-- The block of a function. -/
def functionBody (g : Grammar) : Reader Tree := do
  let first ← start
  expect .lbrace
  let (ds, ss) ← within ({ · with allowIn := true, inFunction := true, inDecorator := false })
    (statementList g)
  expect .rbrace
  return .body ds ss (← spanFrom first)

/-- A function from its type parameters on; `first` is where it starts. -/
def functionRest (g : Grammar) (first : Nat) (name : Option Name) (isAsync isGenerator : Bool) :
    Reader Tree := do
  let (params, paramsSpan, body) ←
    within ({ · with allowIn := true, inAsync := isAsync, inGenerator := isGenerator }) (do
      typeParameters g
      let (params, paramsSpan) ← formalParameters g
      resultAnnotation g
      if ← at? .lbrace then
        let body ← functionBody g
        return (params, paramsSpan, some body)
      else return (params, paramsSpan, none))
  if body.isNone then
    if !(← isTypescript) then fail
    endStatement
  return .function ⟨name, isAsync, isGenerator, paramsSpan, ← spanFrom first⟩ params body

/-- A function from its keyword on. A declaration needs a name. -/
def functionFromKeyword (g : Grammar) (first : Nat) (isAsync needsName isExpression : Bool) :
    Reader Tree := do
  expectWord "function"
  let isGenerator ← eat .star
  let t ← token
  let name ←
    if t.isIdentifier then do
      let n ←
        if isExpression then
          within ({ · with inAsync := isAsync, inGenerator := isGenerator }) bindingName
        else bindingName
      pure (some n)
    else do
      faultIf needsName
      pure none
  functionRest g first name isAsync isGenerator

/-! ### Object literals -/

/-- A getter has no parameters, and a setter has one, which takes a single value. -/
def checkAccessor (word : String) (f : Tree) : Reader Unit :=
  match f with
  | .function _ params _ =>
    if word == "get" then faultIf !params.isEmpty
    else
      match params with
      | [.rest _ _] => fault
      | _ => faultIf (params.length != 1)
  | _ => pure ()

/-- The current word is `get` or `set` before the name of an accessor. -/
def atAccessor : Reader Bool := do
  if !(← atAnyWord? ["get", "set"]) then return false
  return canFollowModifier (← peek)

/-- One property of an object literal. -/
def objectMember (g : Grammar) : Reader Tree := do
  let first ← start
  if ← at? .ellipsis then
    bump
    let e ← g.assignment
    return .spread e (← spanFrom first)
  let ms ← modifiers
  if ← atAccessor then
    let word := (← token).text
    bump
    let (key, computed) ← propertyKey g
    let f ← functionRest g (← start) none false false
    checkAccessor word f
    return .method key computed [] f (← spanFrom first)
  let isGenerator ← eat .star
  let t ← token
  let (key, computed) ← propertyKey g
  let k ← kind
  if isGenerator || k == .lparen || k == .lt then
    faultIf (ms.any (· != "async"))
    let f ← functionRest g (← start) none (ms.contains "async") isGenerator
    return .method key computed [] f (← spanFrom first)
  faultIf !ms.isEmpty
  if t.isIdentifier && !computed && k != .colon then
    checkName t
    let value := Tree.identifier t.text t.span
    if ← eat .assign then
      let default ← g.assignment
      modify fun s => { s with covers := first :: s.covers }
      return .property key false value true (some default) (← spanFrom first)
    return .property key false value true none (← spanFrom first)
  expect .colon
  let value ← g.assignment
  return .property key computed value false none (← spanFrom first)

/-- An object literal. -/
def objectLiteral (g : Grammar) : Reader Expr := do
  let first ← start
  expect .lbrace
  let (items, _) ← within ({ · with allowIn := true }) (commaList .rbrace (objectMember g))
  expect .rbrace
  return .object items (← spanFrom first)

/-! ### Classes -/

/-- The name of a class member is forbidden for its kind. -/
def checkMemberKey (key : Tree) (isField isAccessor : Bool) : Reader Unit :=
  match key with
  | .name "constructor" _ | .string "constructor" _ => faultIf (isField || isAccessor)
  | .privateName "constructor" _ => fault
  | _ => pure ()

/-- One member of a class. -/
def classMember (g : Grammar) : Reader Tree := do
  let first ← start
  let ds ← decorators g
  let ms ← modifiers
  let typed ← isTypescript
  faultIf (!typed && ms.any typedModifiers.contains)
  if (← atWord? "static") && (← peek).kind == .lbrace then
    bump
    expect .lbrace
    let ss ← within ({ · with
        allowIn := true, inAsync := true, inGenerator := false, inFunction := false })
      (manyUntil (do let k ← kind; return k == .rbrace || k == .eof) (g.tree (.statement .list)))
    expect .rbrace
    return .staticBlock ss (← spanFrom first)
  if ← atAccessor then
    let word := (← token).text
    bump
    let (key, computed) ← propertyKey g
    let f ← functionRest g (← start) none false false
    checkAccessor word f
    if !computed then checkMemberKey key false true
    return .method key computed ds f (← spanFrom first)
  if typed && (← atIndexSignature) then
    faultIf (ms.any fun m => !(["readonly", "static"].contains m))
    indexSignatureRest g
    return .indexSignature (← spanFrom first)
  let isGenerator ← eat .star
  let (key, computed) ← propertyKey g
  if typed then
    let _ ← eat .question
  let k ← kind
  if isGenerator || k == .lparen || k == .lt then
    let isAsync := ms.contains "async"
    let f ← functionRest g (← start) none isAsync isGenerator
    if !computed && (isAsync || isGenerator) && !ms.contains "static" then
      checkMemberKey key false true
    return .method key computed ds f (← spanFrom first)
  if typed && (← at? .bang) then bump
  typeAnnotation g
  let value ←
    if ← eat .assign then do
      let e ← within ({ · with allowIn := true, inAsync := false, inGenerator := false })
        g.assignment
      pure (some e)
    else pure none
  endStatement
  if !computed then checkMemberKey key true false
  return .field key computed ds value (← spanFrom first)

/-- What follows `extends`: one class, or several, which is noted as a fault. -/
def parentClass (g : Grammar) : Reader (Option Expr) :=
  loop (none : Option Expr) fun found => do
    let e ← match ← g.tree .leftHandSide with
      | .ascribe .instantiation inner _ => pure inner
      | e => do
        if ← at? .lt then typeArguments g
        pure e
    let found := found.or (some e)
    if ← eat .comma then fault; return .inl found
    return .inr found

/-- `extends` and `implements` of a class: the class it extends. -/
def heritage (g : Grammar) : Reader (Option Expr) :=
  loop (none : Option Expr) fun found => do
    if ← atWord? "extends" then
      bump
      faultIf found.isSome
      let parent ← parentClass g
      return .inl (found.or parent)
    if (← isTypescript) && (← atWord? "implements") then
      bump
      loop () fun _ => do
        g.anyType
        if ← eat .comma then return .inl () else return .inr ()
      return .inl found
    return .inr found

/-- A class from its keyword on; `first` is where it starts, decorators included. -/
def classDefinition (g : Grammar) (first : Nat) (ds : List Expr) : Reader Tree := do
  expectWord "class"
  let t ← token
  let name ←
    if t.isIdentifier && !t.isWord "implements" then do
      let n ← bindingName
      pure (some n)
    else pure none
  typeParameters g
  let superClass ← heritage g
  expect .lbrace
  let members ← within ({ · with inDecorator := false }) (loop [] fun found => do
    let k ← kind
    if k == .rbrace || k == .eof then return .inr found.reverse
    if ← eat .semi then return .inl found
    let m ← classMember g
    return .inl (m :: found))
  expect .rbrace
  return .classDef name ds superClass members (← spanFrom first)

end SourceRepair.Script
