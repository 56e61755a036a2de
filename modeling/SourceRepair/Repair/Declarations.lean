import SourceRepair.Repair.Basic
import SourceRepair.Script.Walk

/-!
# Declarations by `var`

A declaration by `var` becomes one by `let` where that keeps its reach: it stands directly in a
program or a function body, its names are declared by `var` once, and none is used before it.
-/

namespace SourceRepair.Repair

open Script (Tree Node Visit Program)

/-- A declaration by `var`, as the names of its declarators (none for a pattern). -/
structure VarDeclaration where
  span : Span
  names : List (Option String)
  /-- The declaration stands directly in a program or a function body. -/
  atTop : Bool
deriving DecidableEq, Repr, Inhabited

/-- The nodes around a declaration put it directly into a program or a function body. -/
def isScopeTop : List Node → Bool
  | .tree .statement (.declaration _ _ _) :: .program _ :: _ => true
  | .tree .statement (.declaration _ _ _) :: .tree .functionBody _ :: _ => true
  | .tree .statement (.exportNamed _ _ _) :: .program _ :: _ => true
  | _ => false

def declaratorName? : Tree → Option String
  | .declarator pattern _ _ => pattern.bindingName?.map (·.text)
  | _ => none

/-- The declarations by `var` in a program. -/
def varDeclarations (p : Program) : List VarDeclaration :=
  p.walk.filterMap fun v =>
    match v.node with
    | .tree .variableDeclaration (.declaration .var ds span) =>
      some ⟨span, ds.map declaratorName?, isScopeTop v.ancestors⟩
    | _ => none

/-- The offsets at which a name is used. -/
def usesOf (p : Program) (name : String) : List Nat :=
  p.walk.filterMap fun v =>
    match v.node with
    | .tree .expression (.identifier text span) => if text == name then some span.start else none
    | _ => none

/-- The declaration can be made by `let`. -/
def VarDeclaration.convertible (d : VarDeclaration) (p : Program) (all : List VarDeclaration) :
    Bool :=
  d.atTop && d.names.all fun
    | some name =>
      (all.flatMap VarDeclaration.names).count (some name) == 1 &&
        (usesOf p name).all (d.span.start < ·)
    | none => false

def varToLet : Repair where
  name := "var-to-let"
  draft src :=
    let all := varDeclarations src.program
    let found := all.filter fun d =>
      d.convertible src.program all &&
        ['v', 'a', 'r'].isPrefixOf (Text.slice src.text d.span)
    .join (found.map fun d =>
      .change [.replace ⟨d.span.start, d.span.start + 3⟩ "let"] .apiMigrated
        "replaced \x60var\x60 with \x60let\x60" d.span.start)

end SourceRepair.Repair
