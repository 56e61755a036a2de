import SourceRepair.Repair.Guards

/-!
# Guarded trees

The outline of a tree under some guards is the tree without its spans, in which every node that one
of the guards was recorded for is replaced by that guard: an `if` with a block, a conditional in
parentheses, or a property that is written out. Under no guards it is the bare tree, so two programs
are the same up to their spans when their outlines under no guards agree.
-/

namespace SourceRepair

namespace Script

/-- The span of what was read from no text. -/
def nowhere : Span := .point 0

def Name.bare (n : Name) : Name := ⟨n.text, nowhere⟩

def Directive.bare (d : Directive) : Directive := ⟨d.text, nowhere⟩

def FuncHead.bare (h : FuncHead) : FuncHead :=
  ⟨h.name.map Name.bare, h.isAsync, h.isGenerator, nowhere, nowhere⟩

def JsxName.bare : JsxName → JsxName
  | .intrinsic n => .intrinsic n.bare
  | .component n => .component n.bare
  | .this _ => .this nowhere
  | .namespaced s n _ => .namespaced s.bare n.bare nowhere
  | .member path _ => .member (path.map Name.bare) nowhere

def ImportSpecifier.bare : ImportSpecifier → ImportSpecifier
  | .named i b isType _ => .named i.bare b.bare isType nowhere
  | .whole b _ => .whole b.bare nowhere
  | .star b _ => .star b.bare nowhere

def ImportDecl.bare (d : ImportDecl) : ImportDecl :=
  ⟨d.source, nowhere, d.specifiers.map (·.map ImportSpecifier.bare), d.isType, d.attributes, nowhere⟩

namespace Tree

/-- The name that a chain of members and calls starts from. -/
def root? : Expr → Option String
  | identifier text _ => some text
  | member o _ _ _ | index o _ _ _ | privateMember o _ _ _ => o.root?
  | call callee _ _ _ => callee.root?
  | paren inner _ | ascribe _ inner _ | chain inner _ => inner.root?
  | _ => none

/-- The expression writes to its operand. -/
def writes : Expr → Bool
  | assign _ _ _ _ | update _ _ | unary .delete _ _ => true
  | _ => false

/-- The statement is an expression. -/
def isExpression : Stmt → Bool
  | expression _ _ => true
  | _ => false

/-- The property is only its name. -/
def isShorthand : Tree → Bool
  | property _ _ _ shorthand _ _ => shorthand
  | _ => false

/-- The property with another value, which is written out. -/
def spelled (change : Expr → Expr) : Tree → Tree
  | property key computed value _ _ span => property key computed (change value) false none span
  | t => t

end Tree

end Script

namespace Repair

open Script

namespace Guard

/-- The guard was recorded for a tree: a statement, a property that is only its name, or else a
chain from the global or a write. -/
def wraps (g : Guard) (t : Tree) : Bool :=
  g.span == t.span &&
    match g.kind with
    | .statement => t.isExpression
    | .shorthand => t.isShorthand
    | .expression => t.root? == some g.root || t.writes

/-- `typeof root !== "undefined"`. -/
def test (g : Guard) : Expr :=
  .binary .strictNotEq (.unary .typeof (.identifier g.root nowhere) nowhere)
    (.string "undefined" nowhere) nowhere

/-- `(typeof root !== "undefined" ? e : undefined)`. -/
def choose (g : Guard) (e : Expr) : Expr :=
  .paren (.conditional g.test e (.identifier "undefined" nowhere) nowhere) nowhere

/-- The tree with the guard around it. -/
def put (g : Guard) (t : Tree) : Tree :=
  match g.kind with
  | .statement => .ifThen g.test (.block [t] nowhere) none nowhere
  | .expression => g.choose t
  | .shorthand => t.spelled g.choose

end Guard

/-- Puts the guards that were recorded for `t` around its outline, the first one outermost. -/
def around (gs : List Guard) (t outline : Tree) : Tree :=
  (gs.filter (·.wraps t)).foldr Guard.put outline

end Repair

open Repair (Guard around)

namespace Script

mutual

/-- The outline of a tree without the guards around the tree itself. What a chain is built around
and what is written to are no nodes that a guard can be recorded for. -/
def Tree.inner (gs : List Guard) : Tree → Tree
  | .name text _ => .name text nowhere
  | .privateName text _ => .privateName text nowhere
  | .identifier text _ => .identifier text nowhere
  | .string value _ => .string value nowhere
  | .literal kind _ => .literal kind nowhere
  | .this _ => .this nowhere
  | .super _ => .super nowhere
  | .metaProperty _ => .metaProperty nowhere
  | .template parts _ => .template (outlines gs parts) nowhere
  | .tagged tag parts _ => .tagged (around gs tag (tag.inner gs)) (outlines gs parts) nowhere
  | .array elements _ => .array (outlines gs elements) nowhere
  | .object properties _ => .object (outlines gs properties) nowhere
  | .function head params body => .function head.bare (outlines gs params) (outline? gs body)
  | .arrow head params body =>
    .arrow head.bare (outlines gs params) (around gs body (body.inner gs))
  | .classDef name decorators superClass members _ =>
    .classDef (name.map Name.bare) (outlines gs decorators) (outline? gs superClass)
      (outlines gs members) nowhere
  | .unary op argument _ => .unary op (around gs argument (argument.inner gs)) nowhere
  | .update target _ => .update (target.inner gs) nowhere
  | .binary op left right _ =>
    .binary op (around gs left (left.inner gs)) (around gs right (right.inner gs)) nowhere
  | .logical op left right _ =>
    .logical op (around gs left (left.inner gs)) (around gs right (right.inner gs)) nowhere
  | .privateIn name right _ => .privateIn name.bare (around gs right (right.inner gs)) nowhere
  | .conditional test yes no _ =>
    .conditional (around gs test (test.inner gs)) (around gs yes (yes.inner gs))
      (around gs no (no.inner gs)) nowhere
  | .assign compound target value _ =>
    .assign compound (target.inner gs) (around gs value (value.inner gs)) nowhere
  | .sequence items _ => .sequence (outlines gs items) nowhere
  | .paren inner _ => .paren (around gs inner (inner.inner gs)) nowhere
  | .call callee args optional _ =>
    .call (around gs callee (callee.inner gs)) (outlines gs args) optional nowhere
  | .construct callee args _ =>
    .construct (around gs callee (callee.inner gs)) (outlines gs args) nowhere
  | .member object property optional _ =>
    .member (around gs object (object.inner gs)) property.bare optional nowhere
  | .index object key optional _ =>
    .index (around gs object (object.inner gs)) (around gs key (key.inner gs)) optional nowhere
  | .privateMember object property optional _ =>
    .privateMember (around gs object (object.inner gs)) property.bare optional nowhere
  | .chain link _ => .chain (link.inner gs) nowhere
  | .importCall source options _ =>
    .importCall (around gs source (source.inner gs)) (outline? gs options) nowhere
  | .await argument _ => .await (around gs argument (argument.inner gs)) nowhere
  | .yield argument _ => .yield (outline? gs argument) nowhere
  | .ascribe kind inner _ => .ascribe kind (around gs inner (inner.inner gs)) nowhere
  | .spread inner _ => .spread (around gs inner (inner.inner gs)) nowhere
  | .hole _ => .hole nowhere
  | .property key computed value shorthand cover _ =>
    .property (around gs key (key.inner gs)) computed (around gs value (value.inner gs)) shorthand
      (outline? gs cover) nowhere
  | .method key computed decorators function _ =>
    .method (around gs key (key.inner gs)) computed (outlines gs decorators)
      (around gs function (function.inner gs)) nowhere
  | .field key computed decorators value _ =>
    .field (around gs key (key.inner gs)) computed (outlines gs decorators) (outline? gs value)
      nowhere
  | .staticBlock body _ => .staticBlock (outlines gs body) nowhere
  | .indexSignature _ => .indexSignature nowhere
  | .objectPattern properties _ => .objectPattern (outlines gs properties) nowhere
  | .arrayPattern elements _ => .arrayPattern (outlines gs elements) nowhere
  | .patternProperty key computed value _ =>
    .patternProperty (around gs key (key.inner gs)) computed (around gs value (value.inner gs))
      nowhere
  | .withDefault left right _ =>
    .withDefault (around gs left (left.inner gs)) (around gs right (right.inner gs)) nowhere
  | .rest inner _ => .rest (around gs inner (inner.inner gs)) nowhere
  | .param decorators pattern _ =>
    .param (outlines gs decorators) (around gs pattern (pattern.inner gs)) nowhere
  | .body directives statements _ =>
    .body (directives.map Directive.bare) (outlines gs statements) nowhere
  | .block statements _ => .block (outlines gs statements) nowhere
  | .empty _ => .empty nowhere
  | .debugger _ => .debugger nowhere
  | .expression inner _ => .expression (around gs inner (inner.inner gs)) nowhere
  | .ifThen test yes no _ =>
    .ifThen (around gs test (test.inner gs)) (around gs yes (yes.inner gs)) (outline? gs no)
      nowhere
  | .returns argument _ => .returns (outline? gs argument) nowhere
  | .throws argument _ => .throws (around gs argument (argument.inner gs)) nowhere
  | .declarator pattern init _ =>
    .declarator (around gs pattern (pattern.inner gs)) (outline? gs init) nowhere
  | .declaration kind declarators _ => .declaration kind (outlines gs declarators) nowhere
  | .functionDecl function => .functionDecl (around gs function (function.inner gs))
  | .classDecl definition => .classDecl (around gs definition (definition.inner gs))
  | .forLoop init test update body _ =>
    .forLoop (outline? gs init) (outline? gs test) (outline? gs update)
      (around gs body (body.inner gs)) nowhere
  | .forIn left right body _ =>
    .forIn (around gs left (left.inner gs)) (around gs right (right.inner gs))
      (around gs body (body.inner gs)) nowhere
  | .forOf left right body _ =>
    .forOf (around gs left (left.inner gs)) (around gs right (right.inner gs))
      (around gs body (body.inner gs)) nowhere
  | .whileLoop test body _ =>
    .whileLoop (around gs test (test.inner gs)) (around gs body (body.inner gs)) nowhere
  | .doWhile body test _ =>
    .doWhile (around gs body (body.inner gs)) (around gs test (test.inner gs)) nowhere
  | .switch value cases _ =>
    .switch (around gs value (value.inner gs)) (outlines gs cases) nowhere
  | .switchCase test body _ => .switchCase (outline? gs test) (outlines gs body) nowhere
  | .tryCatch parts _ => .tryCatch (outlines gs parts) nowhere
  | .tryPart part param statements _ =>
    .tryPart part (outline? gs param) (outlines gs statements) nowhere
  | .labeled label body _ => .labeled label.bare (around gs body (body.inner gs)) nowhere
  | .withObject object body _ =>
    .withObject (around gs object (object.inner gs)) (around gs body (body.inner gs)) nowhere
  | .jump _ => .jump nowhere
  | .importDecl declaration => .importDecl declaration.bare
  | .exportNamed declaration locals _ =>
    .exportNamed (outline? gs declaration) (locals.map Name.bare) nowhere
  | .exportDefault value _ => .exportDefault (around gs value (value.inner gs)) nowhere
  | .exportAll _ => .exportAll nowhere
  | .enumDecl name members _ => .enumDecl name.bare (outlines gs members) nowhere
  | .enumMember name init _ => .enumMember name (outline? gs init) nowhere
  | .moduleDecl name statements _ =>
    .moduleDecl (name.map Name.bare) (outlines gs statements) nowhere
  | .typeDecl name _ => .typeDecl name.bare nowhere
  | .importAlias name isType _ => .importAlias name.bare isType nowhere
  | .exportAssignment value _ => .exportAssignment (around gs value (value.inner gs)) nowhere
  | .namespaceExport _ => .namespaceExport nowhere
  | .jsxElement name attributes _ children closing _ =>
    .jsxElement name.bare (outlines gs attributes) nowhere (outlines gs children)
      (closing.map fun _ => nowhere) nowhere
  | .jsxFragment children _ => .jsxFragment (outlines gs children) nowhere
  | .jsxAttribute name value _ => .jsxAttribute name (outline? gs value) nowhere
  | .jsxText value _ => .jsxText value nowhere
  | .jsxContainer inner _ => .jsxContainer (outline? gs inner) nowhere

def outlines (gs : List Guard) : List Tree → List Tree
  | [] => []
  | t :: ts => around gs t (t.inner gs) :: outlines gs ts

def outline? (gs : List Guard) : Option Tree → Option Tree
  | none => none
  | some t => some (around gs t (t.inner gs))

end

/-- The tree without its spans, with each node that a guard was recorded for replaced by it. -/
def Tree.outline (gs : List Guard) (t : Tree) : Tree := around gs t (t.inner gs)

/-- The program without its spans, with each node that a guard was recorded for replaced by it. -/
def Program.outline (gs : List Guard) (p : Program) : Program :=
  ⟨nowhere, p.hashbang.map fun _ => nowhere, p.directives.map Directive.bare, outlines gs p.body⟩

end Script

end SourceRepair
