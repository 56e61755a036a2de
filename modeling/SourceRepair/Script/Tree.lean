import SourceRepair.Text.Span

/-!
# Syntax trees of scripts

Expressions, patterns, statements and JSX elements with their spans. One type holds them all, so
that a walk, a measure or a replacement is a single recursion; `Expr`, `Stmt` and `Pattern` say
which kind of tree a place expects. Types are not kept: no repair looks at them.
-/

namespace SourceRepair.Script

/-- A name where it occurs. -/
structure Name where
  text : String
  span : Span
deriving DecidableEq, Repr, Inhabited

inductive UnaryOp where
  | plus | minus | not | bitNot | typeof | void | delete
deriving DecidableEq, Repr, Inhabited

inductive BinaryOp where
  | eq | notEq | strictEq | strictNotEq | less | lessEq | greater | greaterEq
  | shiftLeft | shiftRight | shiftRightZero | add | subtract | multiply | divide | remainder | power
  | bitOr | bitXor | bitAnd | isIn | instanceOf
deriving DecidableEq, Repr, Inhabited

inductive LogicalOp where
  | and | or | coalesce
deriving DecidableEq, Repr, Inhabited

/-- Literals whose value no repair looks at. -/
inductive Literal where
  | number | bigint | boolean | null | regex
deriving DecidableEq, Repr, Inhabited

/-- Ways to give an expression another type: `e as T`, `e satisfies T`, `e!`, `<T>e`, `e<T>`. -/
inductive Ascription where
  | asType | satisfies | nonNull | assertion | instantiation
deriving DecidableEq, Repr, Inhabited

inductive DeclarationKind where
  | var | let | const | using
deriving DecidableEq, Repr, Inhabited

/-- A directive such as `'use strict'`, with the text between its quotes. -/
structure Directive where
  text : String
  span : Span
deriving DecidableEq, Repr, Inhabited

/-- The name in a JSX tag. -/
inductive JsxName where
  /-- A tag that starts with a lower-case letter or holds a dash. -/
  | intrinsic (name : Name)
  /-- A tag that refers to a variable. -/
  | component (name : Name)
  | this (span : Span)
  | namespaced (space name : Name) (span : Span)
  /-- A dotted tag, from its first name on. -/
  | member (path : List Name) (span : Span)
deriving DecidableEq, Repr, Inhabited

def JsxName.span : JsxName → Span
  | .intrinsic n => n.span
  | .component n => n.span
  | .this s => s
  | .namespaced _ _ s => s
  | .member _ s => s

/-- What an import binds: one exported name, the default export, or the whole module. -/
inductive ImportSpecifier where
  | named (imported bound : Name) (isType : Bool) (span : Span)
  | whole (bound : Name) (span : Span)
  | star (bound : Name) (span : Span)
deriving DecidableEq, Repr, Inhabited

namespace ImportSpecifier

def span : ImportSpecifier → Span
  | named _ _ _ s | whole _ s | star _ s => s

/-- The name that the specifier binds. -/
def bound : ImportSpecifier → Name
  | named _ b _ _ | whole b _ | star b _ => b

end ImportSpecifier

/-- An attribute of an import, such as `type: 'json'`. -/
structure ImportAttribute where
  key : String
  value : String
deriving DecidableEq, Repr, Inhabited

/-- An import declaration. `specifiers` is missing when nothing is bound. -/
structure ImportDecl where
  source : String
  sourceSpan : Span
  specifiers : Option (List ImportSpecifier)
  isType : Bool
  attributes : List ImportAttribute
  span : Span
deriving DecidableEq, Repr, Inhabited

/-- What a function has besides its parameters and body. -/
structure FuncHead where
  name : Option Name
  isAsync : Bool
  isGenerator : Bool
  paramsSpan : Span
  span : Span
deriving DecidableEq, Repr, Inhabited

/-- The parts of a `try` statement. -/
inductive TryPart where
  | body | handler | finalizer
deriving DecidableEq, Repr, Inhabited

inductive Tree where
  -- Names that are no expressions: bindings, keys and labels.
  | name (text : String) (span : Span)
  | privateName (text : String) (span : Span)
  -- Expressions.
  | identifier (text : String) (span : Span)
  | string (value : String) (span : Span)
  | literal (kind : Literal) (span : Span)
  | this (span : Span)
  | super (span : Span)
  /-- `import.meta` and `new.target`. -/
  | metaProperty (span : Span)
  | template (parts : List Tree) (span : Span)
  | tagged (tag : Tree) (parts : List Tree) (span : Span)
  | array (elements : List Tree) (span : Span)
  | object (properties : List Tree) (span : Span)
  /-- A function expression, function declaration or method without its key. -/
  | function (head : FuncHead) (params : List Tree) (body : Option Tree)
  /-- An arrow function; its body is a `body` or an expression. -/
  | arrow (head : FuncHead) (params : List Tree) (body : Tree)
  | classDef (name : Option Name) (decorators : List Tree) (superClass : Option Tree)
      (members : List Tree) (span : Span)
  | unary (op : UnaryOp) (argument : Tree) (span : Span)
  | update (target : Tree) (span : Span)
  | binary (op : BinaryOp) (left right : Tree) (span : Span)
  | logical (op : LogicalOp) (left right : Tree) (span : Span)
  | privateIn (name : Name) (right : Tree) (span : Span)
  | conditional (test yes no : Tree) (span : Span)
  /-- An assignment by `=`, or by an operator such as `+=`. -/
  | assign (compound : Bool) (target value : Tree) (span : Span)
  | sequence (items : List Tree) (span : Span)
  | paren (inner : Tree) (span : Span)
  | call (callee : Tree) (arguments : List Tree) (optional : Bool) (span : Span)
  | construct (callee : Tree) (arguments : List Tree) (span : Span)
  | member (object : Tree) (property : Name) (optional : Bool) (span : Span)
  | index (object key : Tree) (optional : Bool) (span : Span)
  | privateMember (object : Tree) (property : Name) (optional : Bool) (span : Span)
  /-- A whole optional chain, around its outermost link. -/
  | chain (link : Tree) (span : Span)
  | importCall (source : Tree) (options : Option Tree) (span : Span)
  | await (argument : Tree) (span : Span)
  | yield (argument : Option Tree) (span : Span)
  | ascribe (kind : Ascription) (inner : Tree) (span : Span)
  -- Parts of arrays, arguments, objects and classes.
  | spread (inner : Tree) (span : Span)
  | hole (span : Span)
  /-- A property of an object literal. `cover` is the default in `{ a = 1 }`, which is only good as
  a pattern. -/
  | property (key : Tree) (computed : Bool) (value : Tree) (shorthand : Bool) (cover : Option Tree)
      (span : Span)
  /-- A method, getter or setter of an object literal or a class. -/
  | method (key : Tree) (computed : Bool) (decorators : List Tree) (function : Tree) (span : Span)
  | field (key : Tree) (computed : Bool) (decorators : List Tree) (value : Option Tree)
      (span : Span)
  | staticBlock (body : List Tree) (span : Span)
  | indexSignature (span : Span)
  -- Patterns, for bindings and for the targets of assignments.
  | objectPattern (properties : List Tree) (span : Span)
  | arrayPattern (elements : List Tree) (span : Span)
  | patternProperty (key : Tree) (computed : Bool) (value : Tree) (span : Span)
  | withDefault (left right : Tree) (span : Span)
  | rest (inner : Tree) (span : Span)
  | param (decorators : List Tree) (pattern : Tree) (span : Span)
  -- Statements.
  /-- The block of a function. -/
  | body (directives : List Directive) (statements : List Tree) (span : Span)
  | block (statements : List Tree) (span : Span)
  | empty (span : Span)
  | debugger (span : Span)
  | expression (inner : Tree) (span : Span)
  | ifThen (test yes : Tree) (no : Option Tree) (span : Span)
  | returns (argument : Option Tree) (span : Span)
  | throws (argument : Tree) (span : Span)
  | declarator (pattern : Tree) (init : Option Tree) (span : Span)
  | declaration (kind : DeclarationKind) (declarators : List Tree) (span : Span)
  | functionDecl (function : Tree)
  | classDecl (definition : Tree)
  | forLoop (init test update : Option Tree) (body : Tree) (span : Span)
  | forIn (left right body : Tree) (span : Span)
  | forOf (left right body : Tree) (span : Span)
  | whileLoop (test body : Tree) (span : Span)
  | doWhile (body test : Tree) (span : Span)
  | switch (value : Tree) (cases : List Tree) (span : Span)
  | switchCase (test : Option Tree) (body : List Tree) (span : Span)
  | tryCatch (parts : List Tree) (span : Span)
  | tryPart (part : TryPart) (param : Option Tree) (statements : List Tree) (span : Span)
  | labeled (label : Name) (body : Tree) (span : Span)
  | withObject (object body : Tree) (span : Span)
  | jump (span : Span)
  | importDecl (declaration : ImportDecl)
  | exportNamed (declaration : Option Tree) (locals : List Name) (span : Span)
  /-- The default export of a function, a class or a value. -/
  | exportDefault (value : Tree) (span : Span)
  | exportAll (span : Span)
  | enumDecl (name : Name) (members : List Tree) (span : Span)
  | enumMember (name : String) (init : Option Tree) (span : Span)
  /-- A namespace or module declaration. `name` is missing for a module named by a string. -/
  | moduleDecl (name : Option Name) (statements : List Tree) (span : Span)
  /-- An interface or a type alias. -/
  | typeDecl (name : Name) (span : Span)
  /-- `import a = require('b')` and `import a = b.c`. -/
  | importAlias (name : Name) (isType : Bool) (span : Span)
  | exportAssignment (value : Tree) (span : Span)
  | namespaceExport (span : Span)
  -- JSX.
  /-- An element with the spans of its opening tag and, unless it closes itself, of its closing
  tag. -/
  | jsxElement (name : JsxName) (attributes : List Tree) (opening : Span) (children : List Tree)
      (closing : Option Span) (span : Span)
  | jsxFragment (children : List Tree) (span : Span)
  /-- An attribute; the name is missing when it has a namespace. -/
  | jsxAttribute (name : Option String) (value : Option Tree) (span : Span)
  | jsxText (value : String) (span : Span)
  /-- An expression in braces, or the empty braces. -/
  | jsxContainer (inner : Option Tree) (span : Span)
deriving Inhabited

/-- Trees at places that expect an expression. -/
abbrev Expr := Tree

/-- Trees at places that expect a statement. -/
abbrev Stmt := Tree

/-- Trees at places that expect the target of a binding or an assignment. -/
abbrev Pattern := Tree

/-- A whole source file. -/
structure Program where
  span : Span
  hashbang : Option Span
  directives : List Directive
  body : List Stmt
deriving Inhabited

namespace Tree

/-- The range of the text that the tree was read from. -/
def span : Tree → Span
  | name _ s | privateName _ s | identifier _ s | string _ s | literal _ s | this s | super s
  | metaProperty s | template _ s | tagged _ _ s | array _ s | object _ s | classDef _ _ _ _ s
  | unary _ _ s | update _ s | binary _ _ _ s | logical _ _ _ s | privateIn _ _ s
  | conditional _ _ _ s | assign _ _ _ s | sequence _ s | paren _ s | call _ _ _ s | construct _ _ s
  | member _ _ _ s | index _ _ _ s | privateMember _ _ _ s | chain _ s | importCall _ _ s
  | await _ s | yield _ s | ascribe _ _ s | spread _ s | hole s | property _ _ _ _ _ s
  | method _ _ _ _ s | field _ _ _ _ s | staticBlock _ s | indexSignature s | objectPattern _ s
  | arrayPattern _ s | patternProperty _ _ _ s | withDefault _ _ s | rest _ s | param _ _ s
  | body _ _ s | block _ s | empty s | debugger s | expression _ s | ifThen _ _ _ s | returns _ s
  | throws _ s | declarator _ _ s | declaration _ _ s | forLoop _ _ _ _ s | forIn _ _ _ s
  | forOf _ _ _ s | whileLoop _ _ s | doWhile _ _ s | switch _ _ s | switchCase _ _ s
  | tryCatch _ s | tryPart _ _ _ s | labeled _ _ s | withObject _ _ s | jump s | exportNamed _ _ s
  | exportDefault _ s | exportAll s | enumDecl _ _ s | enumMember _ _ s | moduleDecl _ _ s
  | typeDecl _ s | importAlias _ _ s | exportAssignment _ s | namespaceExport s
  | jsxElement _ _ _ _ _ s | jsxFragment _ s | jsxAttribute _ _ s | jsxText _ s
  | jsxContainer _ s => s
  | function head _ _ | arrow head _ _ => head.span
  | functionDecl f => f.span
  | classDecl c => c.span
  | importDecl d => d.span

/-- The expression inside all enclosing parentheses. -/
def stripParens : Expr → Expr
  | paren inner _ => inner.stripParens
  | e => e

/-- The object of a member expression. -/
def memberObject? : Expr → Option Expr
  | member o _ _ _ | index o _ _ _ | privateMember o _ _ _ => some o
  | _ => none

/-- The expression of an array element or argument that is neither spread nor left out. -/
def element? : Tree → Option Expr
  | spread _ _ | hole _ => none
  | e => some e

/-- The name that the pattern binds, if it is a plain name or one with a default. -/
def bindingName? : Pattern → Option Name
  | name text span => some ⟨text, span⟩
  | withDefault left _ _ => left.bindingName?
  | _ => none

end Tree

mutual

/-- The names that a pattern binds. -/
def Tree.boundNames : Pattern → List Name
  | .name text span => [⟨text, span⟩]
  | .objectPattern properties _ => boundNamesList properties
  | .arrayPattern elements _ => boundNamesList elements
  | .patternProperty _ _ value _ => value.boundNames
  | .withDefault left _ _ => left.boundNames
  | .rest inner _ => inner.boundNames
  | .param _ pattern _ => pattern.boundNames
  | .declarator pattern _ _ => pattern.boundNames
  | _ => []

def boundNamesList : List Tree → List Name
  | [] => []
  | t :: ts => t.boundNames ++ boundNamesList ts

end

end SourceRepair.Script
