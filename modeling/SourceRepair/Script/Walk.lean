import SourceRepair.Script.Subtree

/-!
# Walks over syntax trees

A walk lists the nodes of a program from the outside in and from left to right, each with the nodes
around it. A node is a tree in the role it has there: the same function is entered once as an
expression and once as a function.
-/

namespace SourceRepair.Script

/-- What a tree is entered as. -/
inductive Role where
  | statement
  | expression
  /-- The block of a `try`, `catch` or `finally`. -/
  | block
  | function
  | functionBody
  | switchCase
  | variableDeclaration
  | objectProperty
  /-- A member that is assigned to or updated. -/
  | writeTarget
  /-- The outermost member of an optional chain. -/
  | chainMember
  /-- The outermost call of an optional chain. -/
  | chainCall
  | jsxElement
deriving DecidableEq, Repr, Inhabited

inductive Node where
  | program (p : Program)
  | tree (role : Role) (t : Tree)
deriving Inhabited

/-! ### Children -/

mutual

/-- The expressions in a pattern: defaults and computed keys. -/
def Tree.patternExpressions : Pattern → List Expr
  | .withDefault left right _ => left.patternExpressions ++ [right]
  | .objectPattern properties _ => patternExpressionsList properties
  | .arrayPattern elements _ => patternExpressionsList elements
  | .patternProperty key computed value _ =>
    (if computed then [key] else []) ++ value.patternExpressions
  | .rest inner _ => inner.patternExpressions
  | .param _ pattern _ => pattern.patternExpressions
  | _ => []

def patternExpressionsList : List Tree → List Expr
  | [] => []
  | p :: ps => p.patternExpressions ++ patternExpressionsList ps

end

mutual

/-- The nodes that a child of a JSX element stands for. A fragment stands for its children. -/
def Tree.jsxNodes : Tree → List Node
  | .jsxFragment children _ => jsxNodesList children
  | .jsxContainer (some e) _ => [.tree .expression e]
  | .spread e _ => [.tree .expression e]
  | .jsxElement name attributes opening children closing span =>
    [.tree .jsxElement (.jsxElement name attributes opening children closing span)]
  | _ => []

def jsxNodesList : List Tree → List Node
  | [] => []
  | c :: cs => c.jsxNodes ++ jsxNodesList cs

end

namespace Tree

/-- The expression inside a spread, or the expression itself; nothing for a hole. -/
def elementNode : Tree → List Node
  | hole _ => []
  | spread inner _ => [.tree .expression inner]
  | e => [.tree .expression e]

/-- A member that is assigned to. -/
def writeNode : Pattern → List Node
  | member o p q s => [.tree .writeTarget (member o p q s)]
  | index o k q s => [.tree .writeTarget (index o k q s)]
  | privateMember o p q s => [.tree .writeTarget (privateMember o p q s)]
  | _ => []

/-- The children of a member: its object and its computed key. -/
def memberNodes : Expr → List Node
  | index o k _ _ => [.tree .expression o, .tree .expression k]
  | member o _ _ _ => [.tree .expression o]
  | privateMember o _ _ _ => [.tree .expression o]
  | _ => []

/-- The nodes in a member of a class. -/
def classMemberNodes : Tree → List Node
  | method _ _ _ f _ => [.tree .function f]
  | field _ _ _ (some value) _ => [.tree .expression value]
  | staticBlock statements _ => statements.map (.tree .statement)
  | _ => []

/-- The nodes in a class. -/
def classNodes : Tree → List Node
  | classDef _ _ superClass members _ =>
    superClass.toList.map (.tree .expression) ++ members.flatMap classMemberNodes
  | _ => []

/-- The values of the members of an enumeration. -/
def enumNodes (members : List Tree) : List Node :=
  members.flatMap fun
    | enumMember _ (some init) _ => [.tree .expression init]
    | _ => []

/-- The nodes that a declaration stands for inside another statement. -/
def declarationNodes : Stmt → List Node
  | declaration k ds s => [.tree .variableDeclaration (declaration k ds s)]
  | functionDecl f => [.tree .function f]
  | classDecl c => c.classNodes
  | enumDecl _ members _ => enumNodes members
  | _ => []

/-- The nodes of what stands before the first semicolon of a loop. -/
def loopInitNodes : Tree → List Node
  | declaration k ds s => [.tree .variableDeclaration (declaration k ds s)]
  | e => [.tree .expression e]

/-- The nodes of the variable of a loop over keys or values. -/
def loopTargetNodes : Tree → List Node
  | declaration k ds s => [.tree .variableDeclaration (declaration k ds s)]
  | _ => []

def statementNodes : Stmt → List Node
  | block statements _ => statements.map (.tree .statement)
  | expression e _ => [.tree .expression e]
  | ifThen test yes no _ =>
    [.tree .expression test, .tree .statement yes] ++ no.toList.map (.tree .statement)
  | returns argument _ => argument.toList.map (.tree .expression)
  | throws argument _ => [.tree .expression argument]
  | declaration k ds s => [.tree .variableDeclaration (declaration k ds s)]
  | functionDecl f => [.tree .function f]
  | classDecl c => c.classNodes
  | forLoop init test step inner _ =>
    init.toList.flatMap loopInitNodes ++ test.toList.map (.tree .expression) ++
      step.toList.map (.tree .expression) ++ [.tree .statement inner]
  | forIn left right inner _ | forOf left right inner _ =>
    left.loopTargetNodes ++ [.tree .expression right, .tree .statement inner]
  | whileLoop test inner _ => [.tree .expression test, .tree .statement inner]
  | doWhile inner test _ => [.tree .statement inner, .tree .expression test]
  | switch value cases _ => .tree .expression value :: cases.map (.tree .switchCase)
  | tryCatch parts _ => parts.map (.tree .block)
  | labeled _ inner _ => [.tree .statement inner]
  | withObject o inner _ => [.tree .expression o, .tree .statement inner]
  | enumDecl _ members _ => enumNodes members
  | exportNamed d _ _ => d.toList.flatMap declarationNodes
  | exportDefault (functionDecl f) _ => [.tree .function f]
  | exportDefault (classDecl c) _ => c.classNodes
  | exportDefault (typeDecl _ _) _ => []
  | exportDefault value _ => [.tree .expression value]
  | _ => []

def propertyNodes : Tree → List Node
  | property key computed value _ _ _ =>
    (if computed then [.tree .expression key] else []) ++ [.tree .expression value]
  | method key computed _ f _ =>
    (if computed then [.tree .expression key] else []) ++ [.tree .expression f]
  | _ => []

/-- The nodes in a property of an object literal. -/
def objectNodes (properties : List Tree) : List Node :=
  properties.flatMap fun
    | spread inner _ => [.tree .expression inner]
    | p => [.tree .objectProperty p]

def parameterNodes (params : List Tree) : List Node :=
  (patternExpressionsList params).map (.tree .expression)

def bodyNode : Tree → Node
  | body ds ss s => .tree .functionBody (body ds ss s)
  | e => .tree .expression e

/-- The nodes of the link that a chain is built around. -/
def chainNodes : Expr → List Node
  | call callee args q s => [.tree .chainCall (call callee args q s)]
  | ascribe _ inner _ => [.tree .expression inner]
  | member o p q s => [.tree .chainMember (member o p q s)]
  | index o k q s => [.tree .chainMember (index o k q s)]
  | privateMember o p q s => [.tree .chainMember (privateMember o p q s)]
  | _ => []

def expressionNodes : Expr → List Node
  | array elements _ => elements.flatMap elementNode
  | object properties _ => objectNodes properties
  | assign _ target value _ => target.writeNode ++ [.tree .expression value]
  | update target _ => target.writeNode
  | arrow _ params inner => parameterNodes params ++ [inner.bodyNode]
  | function head params inner => [.tree .function (function head params inner)]
  | classDef n ds p ms s => (classDef n ds p ms s).classNodes
  | await argument _ => [.tree .expression argument]
  | yield argument _ => argument.toList.map (.tree .expression)
  | binary _ left right _ | logical _ left right _ =>
    [.tree .expression left, .tree .expression right]
  | conditional test yes no _ =>
    [.tree .expression test, .tree .expression yes, .tree .expression no]
  | unary _ argument _ => [.tree .expression argument]
  | sequence items _ => items.map (.tree .expression)
  | paren inner _ => [.tree .expression inner]
  | call callee args _ _ | construct callee args _ =>
    .tree .expression callee :: args.flatMap elementNode
  | chain link _ => link.chainNodes
  | member o p q s => (member o p q s).memberNodes
  | index o k q s => (index o k q s).memberNodes
  | privateMember o p q s => (privateMember o p q s).memberNodes
  | template parts _ => parts.map (.tree .expression)
  | tagged tag parts _ => .tree .expression tag :: parts.map (.tree .expression)
  | importCall source _ _ => [.tree .expression source]
  | jsxElement n as o cs c s => [.tree .jsxElement (jsxElement n as o cs c s)]
  | jsxFragment children _ => jsxNodesList children
  | ascribe _ inner _ => [.tree .expression inner]
  | _ => []

/-- The nodes in a variable declaration: those of each pattern, then its value. -/
def declaratorNodes : Tree → List Node
  | declarator pattern init _ =>
    pattern.patternExpressions.map (.tree .expression) ++ init.toList.map (.tree .expression)
  | _ => []

/-- The nodes in the value of a JSX attribute. -/
def attributeNodes : Tree → List Node
  | spread e _ => [.tree .expression e]
  | jsxAttribute _ (some value) _ =>
    match value with
    | string _ _ => []
    | v => v.jsxNodes
  | _ => []

end Tree

namespace Node

/-- The nodes directly inside a node, from left to right. -/
def children : Node → List Node
  | program p => p.body.map (.tree .statement)
  | tree .statement t => t.statementNodes
  | tree .expression t => t.expressionNodes
  | tree .block (.tryPart _ _ statements _) => statements.map (.tree .statement)
  | tree .function (.function _ params body) =>
    Tree.parameterNodes params ++ body.toList.map (.tree .functionBody)
  | tree .functionBody (.body _ statements _) => statements.map (.tree .statement)
  | tree .switchCase (.switchCase test statements _) =>
    test.toList.map (.tree .expression) ++ statements.map (.tree .statement)
  | tree .variableDeclaration (.declaration _ ds _) => ds.flatMap Tree.declaratorNodes
  | tree .objectProperty t => t.propertyNodes
  | tree .writeTarget t | tree .chainMember t => t.memberNodes
  | tree .chainCall (.call callee args _ _) =>
    .tree .expression callee :: args.flatMap Tree.elementNode
  | tree .jsxElement (.jsxElement _ attributes _ children _ _) =>
    attributes.flatMap Tree.attributeNodes ++ jsxNodesList children
  | _ => []

/-- The range of a node in the text. -/
def span : Node → Span
  | program p => p.span
  | tree _ t => t.span

/-- The list of statements that a node holds directly. -/
def statements? : Node → Option (List Stmt)
  | program p => some p.body
  | tree .statement (.block statements _) => some statements
  | tree .block (.tryPart _ _ statements _) => some statements
  | tree .functionBody (.body _ statements _) => some statements
  | tree .switchCase (.switchCase _ statements _) => some statements
  | _ => none

/-- The code below a function runs at another time. -/
def isFunctionBoundary : Node → Bool
  | tree .function _ => true
  | tree .expression (.arrow _ _ _) => true
  | _ => false

/-- The number of trees in a node, a bound for the depth of its walk. -/
def size : Node → Nat
  | program p => 1 + sizeList p.body
  | tree _ t => t.size

end Node

/-- A node with the nodes around it, innermost first. -/
structure Visit where
  node : Node
  ancestors : List Node

/-- The nodes at and below a node, at most `fuel` levels deep. -/
def walkFrom : Nat → List Node → Node → List Visit
  | 0, _, _ => []
  | fuel + 1, ancestors, node =>
    ⟨node, ancestors⟩ :: node.children.flatMap (walkFrom fuel (node :: ancestors))

/-- All nodes of a program. A tree can be entered in two roles in a row, so twice the number of
trees bounds the depth. -/
def Program.walk (p : Program) : List Visit :=
  walkFrom (2 * (Node.program p).size) [] (.program p)

end SourceRepair.Script
