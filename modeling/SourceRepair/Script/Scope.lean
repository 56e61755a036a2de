import SourceRepair.Script.Subtree

/-!
# Scopes

A scope is a range of the text in which some names are declared. A name is bound at an offset when
a scope that covers the offset declares it; where in the scope the declaration stands does not
matter. Names of types bind no values.
-/

namespace SourceRepair.Script

/-- A range of the text and the names declared in it. -/
structure Scope where
  span : Span
  names : List String
deriving DecidableEq, Repr, Inhabited

/-- The texts of the names that patterns bind. -/
def patternNames (ps : List Tree) : List String := (boundNamesList ps).map Name.text

namespace Tree

/-- Where names declared by `var` stop. -/
def stopsHoisting : Tree → Bool
  | function _ _ _ | arrow _ _ _ | staticBlock _ _ | moduleDecl _ _ _ => true
  | _ => false

/-- The names declared by `var` in a tree, at most `fuel` levels down. -/
def hoistedNames : Nat → Tree → List String
  | 0, _ => []
  | fuel + 1, t =>
    match t with
    | declaration .var ds _ => patternNames ds ++ ds.flatMap (hoistedNames fuel)
    | t => if t.stopsHoisting then [] else t.children.flatMap (hoistedNames fuel)

/-- The names that a statement declares in the list it stands in. -/
def valueNames : Stmt → List String
  | declaration .var _ _ => []
  | declaration _ ds _ => patternNames ds
  | functionDecl (function head _ _) => head.name.toList.map Name.text
  | classDecl (classDef n _ _ _ _) => n.toList.map Name.text
  | enumDecl n _ _ => [n.text]
  | moduleDecl n _ _ => n.toList.map Name.text
  | importAlias n isType _ => if isType then [] else [n.text]
  | importDecl d =>
    if d.isType then []
    else
      (d.specifiers.getD []).filterMap fun
        | .named _ bound isType _ => if isType then none else some bound.text
        | .whole bound _ => some bound.text
        | .star bound _ => some bound.text
  | exportNamed (some d) _ _ => d.valueNames
  | exportDefault d _ => d.valueNames
  | labeled _ inner _ => inner.valueNames
  | _ => []

/-- The names that a list of statements declares for itself. -/
def listNames (statements : List Stmt) : List String := statements.flatMap valueNames

/-- The names declared by the body of a function, with those hoisted to it. -/
def bodyNames (statements : List Stmt) : List String :=
  listNames statements ++ statements.flatMap fun s => hoistedNames s.size s

/-- The range from the first of some trees to the last. -/
def rangeOf (ts : List Tree) : Option Span := do
  let first ← ts.head?
  let last ← ts.getLast?
  return ⟨first.span.start, last.span.stop⟩

/-- The scope that a tree opens. -/
def scope? : Tree → Option Scope
  | function head params inner =>
    let own := match inner with
      | some (body _ statements _) => bodyNames statements
      | _ => []
    some ⟨head.span, head.name.toList.map Name.text ++ patternNames params ++ own⟩
  | arrow head params inner =>
    let own := match inner with
      | body _ statements _ => bodyNames statements
      | _ => []
    some ⟨head.span, patternNames params ++ own⟩
  | classDef n _ _ _ span => some ⟨span, n.toList.map Name.text⟩
  | staticBlock statements span => some ⟨span, bodyNames statements⟩
  | moduleDecl _ statements span => some ⟨span, bodyNames statements⟩
  | block statements span => some ⟨span, listNames statements⟩
  | tryPart _ caught statements span =>
    some ⟨span, patternNames caught.toList ++ listNames statements⟩
  | forLoop (some init) _ _ _ span => some ⟨span, init.valueNames⟩
  | forIn left _ _ span | forOf left _ _ span => some ⟨span, left.valueNames⟩
  | switch _ cases _ =>
    (rangeOf cases).map fun span =>
      ⟨span, cases.flatMap fun
        | switchCase _ statements _ => listNames statements
        | _ => []⟩
  | enumDecl _ members span =>
    some ⟨span, members.filterMap fun
      | enumMember text _ _ => some text
      | _ => none⟩
  | _ => none

/-- The scopes in a tree, at most `fuel` levels down. -/
def scopes : Nat → Tree → List Scope
  | 0, _ => []
  | fuel + 1, t => t.scope?.toList ++ t.children.flatMap (scopes fuel)

end Tree

/-- All scopes of a program. -/
def Program.scopes (p : Program) : List Scope :=
  ⟨p.span, Tree.bodyNames p.body⟩ :: p.body.flatMap fun s => s.scopes s.size

/-- Some scope declares a name for the text at a span. -/
def isBound (scopes : List Scope) (name : String) (span : Span) : Bool :=
  scopes.any fun s => s.span.covers span && s.names.contains name

end SourceRepair.Script
