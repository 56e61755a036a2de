import Mathlib.Data.List.Basic
import Mathlib.Data.List.Flatten
import SourceRepair.Proofs.Script.Trail
import SourceRepair.Script.Parse
import SourceRepair.Script.Shape

/-!
# What a walk covers

The grammar says what may stand at each place of a tree. `Tree.places` lists the places right below
a tree, one for each of its children, and marks the gaps: the places into which no walk goes. The
walk of a program enters the expressions that stand behind no gap, each of them once and in their
order in the text, and misses all expressions behind one.
-/

namespace SourceRepair.Script

/-! ### Places -/

/-- Places of the grammar that hold expressions and into which no walk goes. -/
inductive WalkGap where
  /-- The computed key of a member of a class. -/
  | classKey
  | decorator
  /-- The pattern of a `catch`. -/
  | caught
  /-- What a loop over keys or values writes to without declaring it. -/
  | loopTarget
  /-- What is assigned to or updated and is no member. -/
  | assigned
  /-- The right side of `#x in e`. -/
  | privateIn
  | importOptions
  /-- The statements of a namespace or module. -/
  | moduleBody
  /-- The value in `export = e`. -/
  | exportedValue
deriving DecidableEq, Repr, Inhabited

/-- What the grammar expects at a place. -/
inductive Category where
  /-- A tree that has a role of its own. -/
  | node (role : Role)
  | pattern
  /-- A target of an assignment that is no member. -/
  | target
  | declarator
  /-- A declaration inside an export. -/
  | declared
  | enumMember
  | definition
  | member
  /-- A child of a JSX element, or the value of an attribute. -/
  | jsxChild
  | jsxAttribute
  /-- A spread, or the ascription that a chain is built around. -/
  | wrapped
  /-- A key that is not computed, a hole, or a default that is only good in a pattern. -/
  | inert
deriving DecidableEq, Repr

/-- A tree with what is expected of it, and the gap that keeps walks out. -/
structure Place where
  gap : Option WalkGap
  category : Category
  tree : Tree

namespace Place

def of (category : Category) (t : Tree) : Place := ⟨none, category, t⟩

def missed (gap : WalkGap) (category : Category) (t : Tree) : Place := ⟨some gap, category, t⟩

def node (role : Role) : Tree → Place := of (.node role)

def expression : Expr → Place := node .expression

def statement : Stmt → Place := node .statement

end Place

namespace Tree

/-! Places where trees of different categories may stand. -/

def keyCategory (computed : Bool) : Category := if computed then .node .expression else .inert

/-- An element of an array, or an argument. -/
def elementCategory : Tree → Category
  | hole _ => .inert
  | spread _ _ => .wrapped
  | _ => .node .expression

def objectCategory : Tree → Category
  | spread _ _ => .wrapped
  | _ => .node .objectProperty

/-- What follows the arrow of a function. -/
def arrowCategory : Tree → Category
  | body _ _ _ => .node .functionBody
  | _ => .node .expression

def linkCategory : Expr → Category
  | call _ _ _ _ => .node .chainCall
  | ascribe _ _ _ => .wrapped
  | member _ _ _ _ | index _ _ _ _ | privateMember _ _ _ _ => .node .chainMember
  | _ => .inert

def loopInitCategory : Tree → Category
  | declaration _ _ _ => .node .variableDeclaration
  | _ => .node .expression

def targetCategory : Pattern → Category
  | member _ _ _ _ | index _ _ _ _ | privateMember _ _ _ _ => .node .writeTarget
  | _ => .target

def loopTargetCategory : Tree → Category
  | declaration _ _ _ => .node .variableDeclaration
  | t => t.targetCategory

def exportedCategory : Tree → Category
  | functionDecl _ | classDecl _ | typeDecl _ _ => .declared
  | _ => .node .expression

def keyPlace (computed : Bool) (key : Tree) : Place := .of (keyCategory computed) key

def elementPlace (t : Tree) : Place := .of t.elementCategory t

def targetPlace (t : Pattern) : Place :=
  ⟨if t.targetCategory = .target then some .assigned else none, t.targetCategory, t⟩

def loopTargetPlace (t : Tree) : Place :=
  ⟨if t.loopTargetCategory = .node .variableDeclaration then none else some .loopTarget,
    t.loopTargetCategory, t⟩

/-- What is written to behind a gap, and stands behind it with all that is in it. -/
def missedTarget (t : Pattern) : Place := .missed .assigned t.targetCategory t

def missedDecorator : Expr → Place := .missed .decorator (.node .expression)

/-! The places in a tree of one category, in the order of its children. -/

def accessPlaces : Expr → List Place
  | index o k _ _ => [.expression o, .expression k]
  | member o _ _ _ | privateMember o _ _ _ => [.expression o]
  | _ => []

def callPlaces : Expr → List Place
  | call callee args _ _ => .expression callee :: args.map elementPlace
  | _ => []

def functionPlaces : Tree → List Place
  | function _ params inner => params.map (.of .pattern) ++ inner.toList.map (.node .functionBody)
  | _ => []

def bodyPlaces : Tree → List Place
  | body _ ss _ => ss.map .statement
  | _ => []

def casePlaces : Tree → List Place
  | switchCase test ss _ => test.toList.map .expression ++ ss.map .statement
  | _ => []

def tryPlaces : Tree → List Place
  | tryPart _ caught ss _ => caught.toList.map (.missed .caught .pattern) ++ ss.map .statement
  | _ => []

def declarationPlaces : Tree → List Place
  | declaration _ ds _ => ds.map (.of .declarator)
  | _ => []

def declaratorPlaces : Tree → List Place
  | declarator pattern init _ => .of .pattern pattern :: init.toList.map .expression
  | _ => []

def enumMemberPlaces : Tree → List Place
  | enumMember _ init _ => init.toList.map .expression
  | _ => []

def propertyPlaces : Tree → List Place
  | property key computed value _ cover _ =>
    [keyPlace computed key, .expression value] ++ cover.toList.map (.of .inert)
  | method key computed ds f _ => ds.map missedDecorator ++ [keyPlace computed key, .expression f]
  | _ => []

def definitionPlaces : Tree → List Place
  | classDef _ ds superClass members _ =>
    ds.map missedDecorator ++ superClass.toList.map .expression ++ members.map (.of .member)
  | _ => []

def classMemberPlaces : Tree → List Place
  | method key computed ds f _ =>
    ds.map missedDecorator ++ [.missed .classKey (keyCategory computed) key, .node .function f]
  | field key computed ds value _ =>
    ds.map missedDecorator ++
      .missed .classKey (keyCategory computed) key :: value.toList.map .expression
  | staticBlock ss _ => ss.map .statement
  | _ => []

def patternPlaces : Pattern → List Place
  | objectPattern ps _ | arrayPattern ps _ => ps.map (.of .pattern)
  | patternProperty key computed value _ => [keyPlace computed key, .of .pattern value]
  | withDefault left right _ => [.of .pattern left, .expression right]
  | rest inner _ => [.of .pattern inner]
  | param ds pattern _ => ds.map missedDecorator ++ [.of .pattern pattern]
  | _ => []

def targetPlaces : Pattern → List Place
  | objectPattern ps _ | arrayPattern ps _ => ps.map missedTarget
  | patternProperty key computed value _ =>
    [.missed .assigned (keyCategory computed) key, missedTarget value]
  | withDefault left right _ => [missedTarget left, .missed .assigned (.node .expression) right]
  | rest inner _ => [missedTarget inner]
  | ascribe _ inner _ => [.missed .assigned (.node .expression) inner]
  | _ => []

def wrappedPlaces : Tree → List Place
  | spread inner _ | ascribe _ inner _ => [.expression inner]
  | _ => []

def attributePlaces : Tree → List Place
  | spread inner _ => [.expression inner]
  | jsxAttribute _ value _ => value.toList.map (.of .jsxChild)
  | _ => []

def elementPlaces : Tree → List Place
  | jsxElement _ attributes _ children _ _ =>
    attributes.map (.of .jsxAttribute) ++ children.map (.of .jsxChild)
  | _ => []

def childPlaces : Tree → List Place
  | jsxFragment children _ => children.map (.of .jsxChild)
  | jsxContainer inner _ => inner.toList.map .expression
  | spread inner _ => [.expression inner]
  | t => t.elementPlaces

def declaredPlaces : Stmt → List Place
  | functionDecl f => [.node .function f]
  | classDecl c => [.of .definition c]
  | enumDecl _ members _ => members.map (.of .enumMember)
  | moduleDecl _ ss _ => ss.map (.missed .moduleBody (.node .statement))
  | t => t.declarationPlaces

def statementPlaces : Stmt → List Place
  | block ss _ => ss.map .statement
  | expression e _ | throws e _ => [.expression e]
  | ifThen test yes no _ => [.expression test, .statement yes] ++ no.toList.map .statement
  | returns argument _ => argument.toList.map .expression
  | forLoop init test step inner _ =>
    init.toList.map (fun t => .of t.loopInitCategory t) ++ test.toList.map .expression ++
      step.toList.map .expression ++ [.statement inner]
  | forIn left right inner _ | forOf left right inner _ =>
    [left.loopTargetPlace, .expression right, .statement inner]
  | whileLoop e inner _ | withObject e inner _ => [.expression e, .statement inner]
  | doWhile inner test _ => [.statement inner, .expression test]
  | switch value cases _ => .expression value :: cases.map (.node .switchCase)
  | tryCatch parts _ => parts.map (.node .block)
  | labeled _ inner _ => [.statement inner]
  | exportNamed d _ _ => d.toList.map (.of .declared)
  | exportDefault value _ => [.of value.exportedCategory value]
  | exportAssignment value _ => [.missed .exportedValue (.node .expression) value]
  | t => t.declaredPlaces

def expressionPlaces : Expr → List Place
  | template es _ | sequence es _ => es.map .expression
  | tagged tag es _ => .expression tag :: es.map .expression
  | array es _ => es.map elementPlace
  | object ps _ => ps.map fun p => .of p.objectCategory p
  | arrow _ params inner => params.map (.of .pattern) ++ [.of inner.arrowCategory inner]
  | function head params inner => (function head params inner).functionPlaces
  | classDef n ds superClass members s => (classDef n ds superClass members s).definitionPlaces
  | unary _ e _ | paren e _ | await e _ | ascribe _ e _ => [.expression e]
  | update target _ => [target.targetPlace]
  | binary _ left right _ | logical _ left right _ => [.expression left, .expression right]
  | privateIn _ right _ => [.missed .privateIn (.node .expression) right]
  | conditional test yes no _ => [.expression test, .expression yes, .expression no]
  | assign _ target value _ => [target.targetPlace, .expression value]
  | call callee args _ _ | construct callee args _ => .expression callee :: args.map elementPlace
  | chain link _ => [.of link.linkCategory link]
  | importCall source options _ =>
    .expression source :: options.toList.map (.missed .importOptions (.node .expression))
  | yield argument _ => argument.toList.map .expression
  | jsxElement n as o cs c s => (jsxElement n as o cs c s).elementPlaces
  | jsxFragment children _ => children.map (.of .jsxChild)
  | e => e.accessPlaces

/-- The places right below a tree. A tree of another category has none. -/
def places (t : Tree) : Category → List Place
  | .node .statement => t.statementPlaces
  | .node .expression => t.expressionPlaces
  | .node .block => t.tryPlaces
  | .node .function => t.functionPlaces
  | .node .functionBody => t.bodyPlaces
  | .node .switchCase => t.casePlaces
  | .node .variableDeclaration => t.declarationPlaces
  | .node .objectProperty => t.propertyPlaces
  | .node .writeTarget | .node .chainMember => t.accessPlaces
  | .node .chainCall => t.callPlaces
  | .node .jsxElement => t.elementPlaces
  | .pattern => t.patternPlaces
  | .target => t.targetPlaces
  | .declarator => t.declaratorPlaces
  | .declared => t.declaredPlaces
  | .enumMember => t.enumMemberPlaces
  | .definition => t.definitionPlaces
  | .member => t.classMemberPlaces
  | .jsxChild => t.childPlaces
  | .jsxAttribute => t.attributePlaces
  | .wrapped => t.wrappedPlaces
  | .inert => []

end Tree

/-- The tree at a place, if it is an expression there. -/
def Category.own : Category → Tree → List Expr
  | .node .expression, t | .node .writeTarget, t => [t]
  | _, _ => []

/-- The expressions at and below a place, at most `fuel` levels deep, without those behind gaps
that are not crossed. -/
def Place.expressionsFrom (crosses : WalkGap → Bool) : Nat → Place → List Expr
  | 0, _ => []
  | fuel + 1, q =>
    if q.gap.all crosses then
      q.category.own q.tree ++ (q.tree.places q.category).flatMap (expressionsFrom crosses fuel)
    else []

/-- The expressions at and below a place. The number of trees bounds the depth. -/
def Place.expressions (crosses : WalkGap → Bool) (q : Place) : List Expr :=
  q.expressionsFrom crosses q.tree.size

/-- The expressions of a program, without those behind gaps that are not crossed. -/
def Program.expressions (crosses : WalkGap → Bool) (p : Program) : List Expr :=
  p.body.flatMap fun s => (Place.statement s).expressions crosses

/-- The expression that a walk enters with a node: an expression, or a member that is written to. -/
def Node.expression? : Node → Option Expr
  | .tree .expression t | .tree .writeTarget t => some t
  | _ => none

/-! ### No child is left out -/

namespace Tree

/-- The places are none at all, or one for each child of the tree. -/
def Complete (t : Tree) (places : List Place) : Prop :=
  places = [] ∨ places.map Place.tree = t.children

theorem trees_map {f : Tree → Place} (same : ∀ t, (f t).tree = t) (ts : List Tree) :
    (ts.map f).map Place.tree = ts := by
  rw [List.map_map, show Place.tree ∘ f = id from funext same, List.map_id]

theorem trees_append {ps qs : List Place} {ts us : List Tree} (first : ps.map Place.tree = ts)
    (second : qs.map Place.tree = us) : (ps ++ qs).map Place.tree = ts ++ us := by
  rw [List.map_append, first, second]

theorem complete_access (t : Tree) : Complete t t.accessPlaces := by
  cases t with
  | member | index | privateMember => exact .inr rfl
  | _ => exact .inl rfl

theorem complete_call (t : Tree) : Complete t t.callPlaces := by
  cases t with
  | call callee args => exact .inr (congrArg (callee :: ·) (trees_map (fun _ => rfl) args))
  | _ => exact .inl rfl

theorem complete_function (t : Tree) : Complete t t.functionPlaces := by
  cases t with
  | function => exact .inr (trees_append (trees_map (fun _ => rfl) _) (trees_map (fun _ => rfl) _))
  | _ => exact .inl rfl

theorem complete_body (t : Tree) : Complete t t.bodyPlaces := by
  cases t with
  | body _ ss => exact .inr (trees_map (fun _ => rfl) ss)
  | _ => exact .inl rfl

theorem complete_case (t : Tree) : Complete t t.casePlaces := by
  cases t with
  | switchCase => exact .inr (trees_append (trees_map (fun _ => rfl) _) (trees_map (fun _ => rfl) _))
  | _ => exact .inl rfl

theorem complete_try (t : Tree) : Complete t t.tryPlaces := by
  cases t with
  | tryPart => exact .inr (trees_append (trees_map (fun _ => rfl) _) (trees_map (fun _ => rfl) _))
  | _ => exact .inl rfl

theorem complete_declaration (t : Tree) : Complete t t.declarationPlaces := by
  cases t with
  | declaration _ ds => exact .inr (trees_map (fun _ => rfl) ds)
  | _ => exact .inl rfl

theorem complete_declarator (t : Tree) : Complete t t.declaratorPlaces := by
  cases t with
  | declarator pattern init => exact .inr (congrArg (pattern :: ·) (trees_map (fun _ => rfl) init.toList))
  | _ => exact .inl rfl

theorem complete_enumMember (t : Tree) : Complete t t.enumMemberPlaces := by
  cases t with
  | enumMember _ init => exact .inr (trees_map (fun _ => rfl) init.toList)
  | _ => exact .inl rfl

theorem complete_property (t : Tree) : Complete t t.propertyPlaces := by
  cases t with
  | property => exact .inr (trees_append rfl (trees_map (fun _ => rfl) _))
  | method => exact .inr (trees_append (trees_map (fun _ => rfl) _) rfl)
  | _ => exact .inl rfl

theorem complete_definition (t : Tree) : Complete t t.definitionPlaces := by
  cases t with
  | classDef =>
    exact .inr (trees_append (trees_append (trees_map (fun _ => rfl) _) (trees_map (fun _ => rfl) _))
      (trees_map (fun _ => rfl) _))
  | _ => exact .inl rfl

theorem complete_member (t : Tree) : Complete t t.classMemberPlaces := by
  cases t with
  | method => exact .inr (trees_append (trees_map (fun _ => rfl) _) rfl)
  | field key _ _ value =>
    exact .inr (trees_append (trees_map (fun _ => rfl) _)
      (congrArg (key :: ·) (trees_map (fun _ => rfl) value.toList)))
  | staticBlock ss => exact .inr (trees_map (fun _ => rfl) ss)
  | _ => exact .inl rfl

theorem complete_pattern (t : Tree) : Complete t t.patternPlaces := by
  cases t with
  | objectPattern ts | arrayPattern ts => exact .inr (trees_map (fun _ => rfl) ts)
  | patternProperty | withDefault | rest => exact .inr rfl
  | param => exact .inr (trees_append (trees_map (fun _ => rfl) _) rfl)
  | _ => exact .inl rfl

theorem complete_target (t : Tree) : Complete t t.targetPlaces := by
  cases t with
  | objectPattern ts | arrayPattern ts => exact .inr (trees_map (fun _ => rfl) ts)
  | patternProperty | withDefault | rest | ascribe => exact .inr rfl
  | _ => exact .inl rfl

theorem complete_wrapped (t : Tree) : Complete t t.wrappedPlaces := by
  cases t with
  | spread | ascribe => exact .inr rfl
  | _ => exact .inl rfl

theorem complete_attribute (t : Tree) : Complete t t.attributePlaces := by
  cases t with
  | spread => exact .inr rfl
  | jsxAttribute _ value => exact .inr (trees_map (fun _ => rfl) value.toList)
  | _ => exact .inl rfl

theorem complete_element (t : Tree) : Complete t t.elementPlaces := by
  cases t with
  | jsxElement => exact .inr (trees_append (trees_map (fun _ => rfl) _) (trees_map (fun _ => rfl) _))
  | _ => exact .inl rfl

theorem complete_child (t : Tree) : Complete t t.childPlaces := by
  cases t with
  | jsxFragment ts => exact .inr (trees_map (fun _ => rfl) ts)
  | jsxContainer inner => exact .inr (trees_map (fun _ => rfl) inner.toList)
  | spread => exact .inr rfl
  | _ => exact complete_element _

theorem complete_declared (t : Tree) : Complete t t.declaredPlaces := by
  cases t with
  | functionDecl | classDecl => exact .inr rfl
  | enumDecl _ ts | moduleDecl _ ts => exact .inr (trees_map (fun _ => rfl) ts)
  | _ => exact complete_declaration _

theorem complete_statement (t : Stmt) : Complete t t.statementPlaces := by
  cases t with
  | expression | throws | forIn | forOf | whileLoop | withObject | doWhile | labeled | exportDefault
  | exportAssignment => exact .inr rfl
  | block ts | tryCatch ts => exact .inr (trees_map (fun _ => rfl) ts)
  | returns argument => exact .inr (trees_map (fun _ => rfl) argument.toList)
  | exportNamed d => exact .inr (trees_map (fun _ => rfl) d.toList)
  | switch value cases => exact .inr (congrArg (value :: ·) (trees_map (fun _ => rfl) cases))
  | ifThen => exact .inr (trees_append rfl (trees_map (fun _ => rfl) _))
  | forLoop =>
    exact .inr (trees_append (trees_append (trees_append (trees_map (fun _ => rfl) _)
      (trees_map (fun _ => rfl) _)) (trees_map (fun _ => rfl) _)) rfl)
  | _ => exact complete_declared _

theorem complete_expression (t : Expr) : Complete t t.expressionPlaces := by
  cases t with
  | unary | paren | await | ascribe | update | binary | logical | privateIn | conditional | assign
  | chain => exact .inr rfl
  | template ts | sequence ts | array ts | object ts | jsxFragment ts =>
    exact .inr (trees_map (fun _ => rfl) ts)
  | yield argument => exact .inr (trees_map (fun _ => rfl) argument.toList)
  | tagged t ts | call t ts | construct t ts =>
    exact .inr (congrArg (t :: ·) (trees_map (fun _ => rfl) ts))
  | importCall source options =>
    exact .inr (congrArg (source :: ·) (trees_map (fun _ => rfl) options.toList))
  | arrow => exact .inr (trees_append (trees_map (fun _ => rfl) _) rfl)
  | function => exact complete_function _
  | classDef => exact complete_definition _
  | jsxElement => exact complete_element _
  | _ => exact complete_access _

/-- A tree has no places, or one for each of its children. -/
theorem complete_places (t : Tree) (c : Category) : Complete t (t.places c) := by
  cases c with
  | node role =>
    cases role with
    | statement => exact complete_statement t
    | expression => exact complete_expression t
    | block => exact complete_try t
    | function => exact complete_function t
    | functionBody => exact complete_body t
    | switchCase => exact complete_case t
    | variableDeclaration => exact complete_declaration t
    | objectProperty => exact complete_property t
    | writeTarget | chainMember => exact complete_access t
    | chainCall => exact complete_call t
    | jsxElement => exact complete_element t
  | pattern => exact complete_pattern t
  | target => exact complete_target t
  | declarator => exact complete_declarator t
  | declared => exact complete_declared t
  | enumMember => exact complete_enumMember t
  | definition => exact complete_definition t
  | member => exact complete_member t
  | jsxChild => exact complete_child t
  | jsxAttribute => exact complete_attribute t
  | wrapped => exact complete_wrapped t
  | inert => exact .inl rfl

end Tree

/-! ### Expressions behind no gap -/

open Tree

variable {t : Tree} {c : Category} {q : Place} {crosses : WalkGap → Bool}

theorem child_of_place (below : q ∈ t.places c) : q.tree ∈ t.children := by
  rcases t.complete_places c with none | trees
  · rw [none] at below
    cases below
  · exact trees ▸ List.mem_map_of_mem below

theorem size_lt_of_place (below : q ∈ t.places c) : q.tree.size < t.size :=
  size_lt_of_child (child_of_place below)

namespace Place

theorem size_pos (q : Place) : 0 < q.tree.size := by
  rw [size_eq]
  omega

/-- Levels below the size of the tree hold nothing. -/
theorem expressionsFrom_eq {fuel : Nat} (enough : q.tree.size ≤ fuel) :
    q.expressionsFrom crosses fuel = q.expressions crosses := by
  induction size : q.tree.size using Nat.strongRecOn generalizing q fuel with
  | ind n ih =>
    subst size
    have positive := q.size_pos
    obtain ⟨fuel, rfl⟩ : ∃ n, fuel = n + 1 := ⟨fuel - 1, by omega⟩
    obtain ⟨least, size⟩ : ∃ n, q.tree.size = n + 1 := ⟨q.tree.size - 1, by omega⟩
    rw [expressions, size, expressionsFrom, expressionsFrom]
    congr 2
    refine List.flatMap_congr fun r below => ?_
    have smaller := size_lt_of_place below
    rw [ih _ smaller (by omega) rfl, ih _ smaller (by omega) rfl]

theorem expressions_eq (crosses : WalkGap → Bool) (q : Place) :
    q.expressions crosses =
      if q.gap.all crosses then
        q.category.own q.tree ++ (q.tree.places q.category).flatMap (expressions crosses)
      else [] := by
  rw [← expressionsFrom_eq (Nat.le_succ q.tree.size), expressionsFrom]
  congr 2
  exact List.flatMap_congr fun r below => expressionsFrom_eq (Nat.le_of_lt (size_lt_of_place below))

theorem expressionsFrom_sublist {more : WalkGap → Bool} (le : ∀ gap, crosses gap → more gap) (fuel : Nat)
    (q : Place) : (q.expressionsFrom crosses fuel).Sublist (q.expressionsFrom more fuel) := by
  induction fuel generalizing q with
  | zero => exact .slnil
  | succ fuel ih =>
    rw [expressionsFrom, expressionsFrom]
    by_cases crossed : q.gap.all crosses = true
    · have crossed' : q.gap.all more = true := by
        cases gap : q.gap with
        | none => rfl
        | some g =>
          rw [gap] at crossed
          exact le g crossed
      rw [if_pos crossed, if_pos crossed']
      exact (List.Sublist.refl _).append (.flatMap_right _ fun r _ => ih r)
    · rw [if_neg crossed]
      exact List.nil_sublist _

end Place

/-! ### The nodes of places -/

/-- The nodes that a walk lists for a tree of a category. -/
def Category.nodes : Category → Tree → List Node
  | .node role, t => [.tree role t]
  | .pattern, t => t.patternNodes
  | .declarator, t => t.declaratorNodes
  | .declared, t => t.declarationNodes
  | .enumMember, t => enumNodes [t]
  | .definition, t => t.classNodes
  | .member, t => t.classMemberNodes
  | .jsxChild, t => t.jsxNodes
  | .jsxAttribute, t => t.attributeNodes
  | .wrapped, t => t.wrappedPlaces.map fun q => .tree .expression q.tree
  | .target, _ | .inert, _ => []

/-- The nodes that a walk lists for a place: none behind a gap. -/
def Place.nodes (q : Place) : List Node :=
  if q.gap.isNone then q.category.nodes q.tree else []

namespace Tree

theorem elementPlace_nodes (t : Tree) : t.elementPlace.nodes = t.elementNode := by
  cases t <;> rfl

theorem targetPlace_nodes (t : Pattern) : t.targetPlace.nodes = t.writeNode := by
  cases t <;> rfl

theorem loopTargetPlace_nodes (t : Tree) : t.loopTargetPlace.nodes = t.loopTargetNodes := by
  cases t <;> rfl

theorem object_nodes (t : Tree) : t.objectCategory.nodes t = objectNodes [t] := by
  cases t <;> rfl

theorem arrow_nodes (t : Tree) : t.arrowCategory.nodes t = [t.bodyNode] := by
  cases t <;> rfl

theorem link_nodes (t : Expr) : t.linkCategory.nodes t = t.chainNodes := by
  cases t <;> rfl

theorem loopInit_nodes (t : Tree) : t.loopInitCategory.nodes t = t.loopInitNodes := by
  cases t <;> rfl

theorem exported_nodes (t : Tree) (s : Span) :
    t.exportedCategory.nodes t = (exportDefault t s).statementNodes := by
  cases t <;> rfl

end Tree

section Listed

variable {ns ms : List Node} {ps qs : List Place}

theorem listed_append (first : ns = ps.flatMap Place.nodes) (second : ms = qs.flatMap Place.nodes) :
    ns ++ ms = (ps ++ qs).flatMap Place.nodes := by
  rw [first, second, List.flatMap_append]

theorem listed_one (same : q.nodes = ns) : ns = [q].flatMap Place.nodes := by
  rw [List.flatMap_singleton, same]

theorem listed_map (f : Tree → Place) {g : Tree → List Node} (same : ∀ t, (f t).nodes = g t)
    (ts : List Tree) :
    ts.flatMap g = (ts.map f).flatMap Place.nodes := by
  rw [List.flatMap_map, funext same]

theorem listed_role (role : Role) (ts : List Tree) :
    ts.map (.tree role) = (ts.map (.node role)).flatMap Place.nodes := by
  rw [List.map_eq_flatMap]
  exact listed_map (.node role) (fun _ => rfl) ts

/-- Places without nodes do not count. -/
theorem listed_silent {f : Tree → Place} (silent : ∀ t, (f t).nodes = []) (ts : List Tree) :
    [] = (ts.map f).flatMap Place.nodes := by
  rw [List.flatMap_map, funext silent, List.flatMap_eq_nil_iff.mpr fun _ _ => rfl]

theorem listed_patterns (params : List Tree) :
    parameterNodes params = (params.map (.of .pattern)).flatMap Place.nodes := by
  rw [parameterNodes_eq]
  exact listed_map (.of .pattern) (fun _ => rfl) params

theorem listed_enumMembers (members : List Tree) :
    enumNodes members = (members.map (.of .enumMember)).flatMap Place.nodes := by
  rw [enumNodes_eq]
  exact listed_map (.of .enumMember) (fun _ => rfl) members

theorem listed_properties (ps : List Tree) :
    objectNodes ps = (ps.map fun p => Place.of p.objectCategory p).flatMap Place.nodes := by
  rw [objectNodes_eq]
  exact listed_map (fun p => .of p.objectCategory p) object_nodes ps

theorem listed_jsxChildren (ts : List Tree) :
    jsxNodesList ts = (ts.map (.of .jsxChild)).flatMap Place.nodes := by
  rw [jsxNodesList_eq]
  exact listed_map (.of .jsxChild) (fun _ => rfl) ts

end Listed

/-- The roles in which a tree is entered right below itself. -/
def Role.isInner : Role → Bool
  | .function | .variableDeclaration | .jsxElement => true
  | _ => false

/-- The nodes are those of the places in a tree, or they are the tree itself in an inner role. -/
def Lists (t : Tree) (c : Category) (ns : List Node) : Prop :=
  ns = (t.places c).flatMap Place.nodes ∨
    ∃ role, role.isInner ∧ ns = [.tree role t] ∧ t.places (.node role) = t.places c

theorem lists_pattern (t : Tree) : Lists t .pattern t.patternNodes := by
  left
  cases t with
  | objectPattern ps | arrayPattern ps =>
    rw [patternNodes, patternExpressions, patternExpressionsList_eq, List.map_flatMap]
    exact listed_map (.of .pattern) (fun _ => rfl) ps
  | patternProperty key computed value =>
    cases computed <;> exact (List.append_nil _).symm
  | withDefault left right =>
    change (left.patternExpressions ++ [right]).map _ = _
    rw [List.map_append]
    rfl
  | rest => exact listed_one rfl
  | param => exact listed_append (listed_silent (fun _ => rfl) _) (listed_one rfl)
  | _ => rfl

theorem lists_definition (t : Tree) : Lists t .definition t.classNodes := by
  left
  cases t with
  | classDef n ds superClass members =>
    exact listed_append (listed_append (listed_silent (fun _ => rfl) ds) (listed_role .expression _))
      (listed_map (.of .member) (fun _ => rfl) members)
  | _ => rfl

theorem lists_member (t : Tree) : Lists t .member t.classMemberNodes := by
  left
  cases t with
  | method key computed ds f => exact listed_append (listed_silent (fun _ => rfl) ds) rfl
  | field key computed ds value =>
    cases value with
    | none => exact listed_append (listed_silent (fun _ => rfl) ds) rfl
    | some value => exact listed_append (listed_silent (fun _ => rfl) ds) rfl
  | staticBlock ss => exact listed_role .statement ss
  | _ => rfl

theorem lists_declared (t : Stmt) : Lists t .declared t.declarationNodes := by
  cases t with
  | declaration => exact .inr ⟨.variableDeclaration, rfl, rfl, rfl⟩
  | functionDecl => exact .inl rfl
  | classDecl definition => exact .inl (listed_one rfl)
  | enumDecl n members => exact .inl (listed_enumMembers members)
  | moduleDecl n ss => exact .inl (listed_silent (fun _ => rfl) ss)
  | _ => exact .inl rfl

theorem lists_jsxChild (t : Tree) : Lists t .jsxChild t.jsxNodes := by
  cases t with
  | jsxElement => exact .inr ⟨.jsxElement, rfl, rfl, rfl⟩
  | jsxFragment ts => exact .inl (listed_jsxChildren ts)
  | jsxContainer inner => cases inner <;> exact .inl rfl
  | _ => exact .inl rfl

theorem attributeNodes_some (n : Option String) (value : Tree) (s : Span) :
    (Tree.jsxAttribute n (some value) s).attributeNodes = value.jsxNodes := by
  cases value <;> rfl

theorem lists_jsxAttribute (t : Tree) : Lists t .jsxAttribute t.attributeNodes := by
  left
  cases t with
  | jsxAttribute n value s =>
    cases value with
    | none => rfl
    | some value =>
      rw [attributeNodes_some]
      exact listed_one rfl
  | _ => rfl

/-- The role of a category, if its trees have one. -/
def Category.role? : Category → Option Role
  | .node role => some role
  | _ => none

theorem lists_nodes (t : Tree) {c : Category} (bare : c.role? = none) : Lists t c (c.nodes t) := by
  cases c with
  | node => cases bare
  | pattern => exact lists_pattern t
  | declared => exact lists_declared t
  | definition => exact lists_definition t
  | member => exact lists_member t
  | jsxChild => exact lists_jsxChild t
  | jsxAttribute => exact lists_jsxAttribute t
  | target =>
    left
    cases t with
    | objectPattern ps | arrayPattern ps => exact listed_silent (fun _ => rfl) ps
    | _ => rfl
  | declarator =>
    left
    cases t with
    | declarator pattern init =>
      exact congrArg (pattern.patternNodes ++ ·) (listed_role .expression init.toList)
    | _ => rfl
  | enumMember =>
    left
    cases t with
    | enumMember _ init => cases init <;> rfl
    | _ => rfl
  | wrapped =>
    left
    cases t <;> rfl
  | inert => exact .inl rfl

theorem lists_statement (t : Stmt) : Lists t (.node .statement) t.statementNodes := by
  cases t with
  | declaration => exact .inr ⟨.variableDeclaration, rfl, rfl, rfl⟩
  | block ss => exact .inl (listed_role .statement ss)
  | ifThen test yes no => exact .inl (listed_append rfl (listed_role .statement _))
  | returns argument => exact .inl (listed_role .expression _)
  | classDecl definition => exact .inl (listed_one rfl)
  | enumDecl n members => exact .inl (listed_enumMembers members)
  | moduleDecl n ss => exact .inl (listed_silent (fun _ => rfl) ss)
  | forLoop init test step inner =>
    have head := listed_map (fun t => .of t.loopInitCategory t) loopInit_nodes init.toList
    exact .inl (listed_append (listed_append (listed_append head (listed_role .expression _))
      (listed_role .expression _)) rfl)
  | forIn left | forOf left => exact .inl (listed_append (listed_one left.loopTargetPlace_nodes) rfl)
  | switch value cases =>
    exact .inl (congrArg (Node.tree .expression value :: ·) (listed_role .switchCase cases))
  | tryCatch parts => exact .inl (listed_role .block parts)
  | exportNamed d => exact .inl (listed_map (.of .declared) (fun _ => rfl) d.toList)
  | exportDefault value s => exact .inl (listed_one (exported_nodes value s))
  | _ => exact .inl rfl

theorem lists_expression (t : Expr) : Lists t (.node .expression) t.expressionNodes := by
  cases t with
  | function => exact .inr ⟨.function, rfl, rfl, rfl⟩
  | jsxElement => exact .inr ⟨.jsxElement, rfl, rfl, rfl⟩
  | jsxFragment ts => exact .inl (listed_jsxChildren ts)
  | classDef n ds superClass members s => exact lists_definition (.classDef n ds superClass members s)
  | template es | sequence es => exact .inl (listed_role .expression es)
  | tagged tag es =>
    exact .inl (congrArg (Node.tree .expression tag :: ·) (listed_role .expression es))
  | array es => exact .inl (listed_map elementPlace elementPlace_nodes es)
  | object ps => exact .inl (listed_properties ps)
  | arrow _ params inner =>
    exact .inl (listed_append (listed_patterns params) (listed_one inner.arrow_nodes))
  | update target => exact .inl (listed_one target.targetPlace_nodes)
  | assign _ target => exact .inl (listed_append (listed_one target.targetPlace_nodes) rfl)
  | call callee args | construct callee args =>
    exact .inl (congrArg (Node.tree .expression callee :: ·) (listed_map elementPlace elementPlace_nodes args))
  | chain link => exact .inl (listed_one link.link_nodes)
  | importCall source options =>
    exact .inl (congrArg (Node.tree .expression source :: ·) (listed_silent (fun _ => rfl) options.toList))
  | yield argument => exact .inl (listed_role .expression _)
  | _ => exact .inl rfl

theorem property_children (t : Tree) :
    t.propertyNodes = (t.places (.node .objectProperty)).flatMap Place.nodes := by
  cases t with
  | property key computed value _ cover =>
    rw [← List.append_nil (propertyNodes _)]
    refine listed_append ?_ (listed_silent (fun _ => rfl) cover.toList)
    cases computed <;> rfl
  | method key computed ds f =>
    rw [← List.nil_append (propertyNodes _)]
    refine listed_append (listed_silent (fun _ => rfl) ds) ?_
    cases computed <;> rfl
  | _ => rfl

/-- In the other roles a tree is never its own child. -/
theorem children_eq {role : Role} (other : role ≠ .statement ∧ role ≠ .expression) (t : Tree) :
    (Node.tree role t).children = (t.places (.node role)).flatMap Place.nodes := by
  cases role with
  | statement => exact absurd rfl other.1
  | expression => exact absurd rfl other.2
  | writeTarget | chainMember => cases t <;> rfl
  | objectProperty => exact property_children t
  | function =>
    cases t with
    | function head params inner =>
      exact listed_append (listed_patterns params) (listed_role .functionBody _)
    | _ => rfl
  | variableDeclaration =>
    cases t with
    | declaration _ ds => exact listed_map (.of .declarator) (fun _ => rfl) ds
    | _ => rfl
  | jsxElement =>
    cases t with
    | jsxElement _ attributes _ children =>
      exact listed_append (listed_map (.of .jsxAttribute) (fun _ => rfl) attributes) (listed_jsxChildren children)
    | _ => rfl
  | chainCall =>
    cases t with
    | call callee args =>
      exact congrArg (Node.tree .expression callee :: ·) (listed_map elementPlace elementPlace_nodes args)
    | _ => rfl
  | functionBody =>
    cases t with
    | body _ ss => exact listed_role .statement ss
    | _ => rfl
  | block =>
    cases t with
    | tryPart _ caught ss =>
      exact listed_append (listed_silent (fun _ => rfl) caught.toList) (listed_role .statement ss)
    | _ => rfl
  | switchCase =>
    cases t with
    | switchCase test ss =>
      exact listed_append (listed_role .expression _) (listed_role .statement ss)
    | _ => rfl

theorem lists_children (role : Role) (t : Tree) :
    Lists t (.node role) (Node.tree role t).children := by
  cases role with
  | statement => exact lists_statement t
  | expression => exact lists_expression t
  | _ => exact .inl (children_eq (by decide) t)

theorem children_of_isInner {role : Role} (inner : role.isInner) (t : Tree) :
    (Node.tree role t).children = (t.places (.node role)).flatMap Place.nodes := by
  refine children_eq ⟨?_, ?_⟩ t <;>
  · rintro rfl
    cases inner

/-! ### The trees of nodes -/

/-- A tree is another one or stands inside it. -/
inductive Tree.Inside (t : Tree) : Tree → Prop
  | here : t.Inside t
  | deeper {u v : Tree} (inside : t.Inside u) (child : v ∈ u.children) : t.Inside v

theorem Tree.Inside.trans {u v : Tree} (first : t.Inside u) (second : u.Inside v) : t.Inside v := by
  induction second with
  | here => exact first
  | deeper _ child ih => exact ih.deeper child

theorem Tree.Inside.size_le {u : Tree} (inside : t.Inside u) : u.size ≤ t.size := by
  induction inside with
  | here => exact Nat.le.refl
  | deeper _ child ih => exact Nat.le_trans (Nat.le_of_lt (size_lt_of_child child)) ih

variable {role : Role} {n m : Node}

theorem inside_of_mem_nodes (member : n ∈ c.nodes t) : ∃ role u, n = .tree role u ∧ t.Inside u := by
  induction size : t.size using Nat.strongRecOn generalizing t c with
  | ind k ih =>
    subst size
    cases bare : c.role? with
    | some role =>
      cases c <;> cases bare
      exact ⟨role, t, List.mem_singleton.mp member, .here⟩
    | none =>
      rcases lists_nodes t bare with nodes | ⟨role, -, nodes, -⟩
      · rw [nodes, List.mem_flatMap] at member
        obtain ⟨q, below, member⟩ := member
        unfold Place.nodes at member
        split at member
        · obtain ⟨role, u, rfl, inside⟩ := ih _ (size_lt_of_place below) member rfl
          exact ⟨role, u, rfl, .trans (.deeper .here (child_of_place below)) inside⟩
        · cases member
      · rw [nodes] at member
        exact ⟨role, t, List.mem_singleton.mp member, .here⟩

theorem inside_of_mem_places (member : n ∈ (t.places c).flatMap Place.nodes) :
    ∃ role u v, n = .tree role v ∧ u ∈ t.children ∧ u.Inside v := by
  obtain ⟨q, below, member⟩ := List.mem_flatMap.mp member
  unfold Place.nodes at member
  split at member
  · obtain ⟨role, v, rfl, inside⟩ := inside_of_mem_nodes member
    exact ⟨role, q.tree, v, rfl, child_of_place below, inside⟩
  · cases member

/-- The tree of a child stands inside the tree of its node. -/
theorem inside_of_child (child : n ∈ (Node.tree role t).children) :
    ∃ role' u, n = .tree role' u ∧ t.Inside u := by
  rcases lists_children role t with nodes | ⟨role', -, nodes, -⟩ <;> rw [nodes] at child
  · obtain ⟨role', u, v, rfl, below, inside⟩ := inside_of_mem_places child
    exact ⟨role', v, rfl, .trans (.deeper .here below) inside⟩
  · exact ⟨role', t, List.mem_singleton.mp child, .here⟩

/-! ### The expressions that a walk enters -/

theorem weight_of_isInner (inner : role.isInner) (t : Tree) :
    (Node.tree role t).weight = 2 * t.size := by
  cases role <;> first | rfl | cases inner

theorem weight_lt_of_mem_places (member : n ∈ (t.places c).flatMap Place.nodes) :
    n.weight < 2 * t.size := by
  obtain ⟨role, u, v, rfl, child, inside⟩ := inside_of_mem_places member
  have := size_lt_of_child child
  have := inside.size_le
  have := Node.weight_tree role v
  omega

/-- Every child weighs less than its node. -/
theorem weight_lt_of_child (child : m ∈ n.children) : m.weight < n.weight := by
  cases n with
  | program p =>
    obtain ⟨s, member, rfl⟩ := List.mem_map.mp child
    have := size_le_sizeList member
    simp only [Node.weight, Node.size]
    omega
  | tree role t =>
    have least := Node.weight_tree role t
    by_cases other : role ≠ .statement ∧ role ≠ .expression
    · rw [children_eq other] at child
      have := weight_lt_of_mem_places child
      omega
    · -- A tree that is its own child weighs one less in its inner role.
      have most : (Node.tree role t).weight = 2 * t.size + 1 := by
        cases role <;> first | rfl | simp at other
      rcases lists_children role t with nodes | ⟨role', inner, nodes, -⟩ <;> rw [nodes] at child
      · have := weight_lt_of_mem_places child
        omega
      · rw [List.mem_singleton.mp child, weight_of_isInner inner]
        omega

/-- The expressions that a walk enters at and below a node. -/
def Node.entries (n : Node) : List Expr := (walkFrom n.weight [] n).filterMap (·.node.expression?)

theorem filterMap_walkFrom_succ (fuel : Nat) (ancestors : List Node) (n : Node) :
    (walkFrom (fuel + 1) ancestors n).filterMap (·.node.expression?) =
      n.expression?.toList ++ n.children.flatMap fun c =>
        (walkFrom fuel (n :: ancestors) c).filterMap (·.node.expression?) := by
  rw [walkFrom, List.filterMap_cons, List.filterMap_flatMap]
  cases n.expression? <;> rfl

theorem entries_of_walkFrom {fuel : Nat} (enough : n.weight ≤ fuel) (ancestors : List Node) :
    (walkFrom fuel ancestors n).filterMap (·.node.expression?) = n.entries := by
  induction weight : n.weight using Nat.strongRecOn generalizing n fuel ancestors with
  | ind k ih =>
    subst weight
    have positive := n.weight_pos
    obtain ⟨fuel, rfl⟩ : ∃ m, fuel = m + 1 := ⟨fuel - 1, by omega⟩
    obtain ⟨least, weight⟩ : ∃ m, n.weight = m + 1 := ⟨n.weight - 1, by omega⟩
    rw [Node.entries, weight, filterMap_walkFrom_succ, filterMap_walkFrom_succ]
    congr 1
    refine List.flatMap_congr fun c child => ?_
    have lighter := weight_lt_of_child child
    rw [ih _ lighter (by omega) _ rfl, ih _ lighter (by omega) _ rfl]

theorem entries_eq (n : Node) : n.entries = n.expression?.toList ++ n.children.flatMap Node.entries := by
  rw [← entries_of_walkFrom (Nat.le_succ n.weight) [], filterMap_walkFrom_succ]
  congr 1
  exact List.flatMap_congr fun c child =>
    entries_of_walkFrom (Nat.le_of_lt (weight_lt_of_child child)) _

theorem Lists.entries {ns : List Node} (lists : Lists t c ns) :
    ns.flatMap Node.entries = ((t.places c).flatMap Place.nodes).flatMap Node.entries := by
  rcases lists with rfl | ⟨role, inner, rfl, places⟩
  · rfl
  · have silent : (Node.tree role t).expression? = none := by
      cases role <;> first | rfl | cases inner
    rw [List.flatMap_singleton, entries_eq, silent, children_of_isInner inner, places]
    rfl

theorem entries_nodes (c : Category) (t : Tree) :
    (c.nodes t).flatMap Node.entries =
      c.own t ++ ((t.places c).flatMap Place.nodes).flatMap Node.entries := by
  cases bare : c.role? with
  | some role =>
    cases c <;> cases bare
    rw [Category.nodes, List.flatMap_singleton, entries_eq, (lists_children role t).entries]
    congr 1
    cases role <;> rfl
  | none =>
    have silent : c.own t = [] := by
      cases c <;> first | rfl | cases bare
    rw [(lists_nodes t bare).entries, silent, List.nil_append]

/-- A walk enters the expressions of a place that stand behind no gap. -/
theorem entries_place (q : Place) :
    q.nodes.flatMap Node.entries = q.expressions fun _ => false := by
  induction size : q.tree.size using Nat.strongRecOn generalizing q with
  | ind k ih =>
    subst size
    rw [Place.expressions_eq, Place.nodes]
    cases gap : q.gap with
    | some gap => rfl
    | none =>
      refine (entries_nodes q.category q.tree).trans (congrArg _ ?_)
      rw [List.flatMap_assoc]
      exact List.flatMap_congr fun r below => ih _ (size_lt_of_place below) r rfl

/-- The walk of a program enters the expressions that stand behind no gap, each of them once and in
order, and of all expressions of the program only those. -/
theorem walk_expressions (p : Program) :
    p.walk.filterMap (·.node.expression?) = p.expressions (fun _ => false) ∧
      (p.expressions fun _ => false).Sublist (p.expressions fun _ => true) := by
  constructor
  · have fuel : (Node.program p).weight ≤ 2 * (Node.program p).size := Nat.le.refl
    rw [Program.walk, entries_of_walkFrom fuel, entries_eq]
    change (p.body.map _).flatMap _ = _
    rw [List.flatMap_map]
    exact List.flatMap_congr fun s _ =>
      (List.append_nil _).symm.trans (entries_place (.statement s))
  · exact .flatMap_right _ fun s _ => Place.expressionsFrom_sublist (fun _ h => by cases h) _ _

/-- No walk enters the computed key of a method in a class. -/
theorem class_key_passed_over :
    ∃ p, parse? .strict ⟨false, false, true, .module⟩ "class A { [window.x]() {} }\n" = some p ∧
      p.walk.filterMap (·.node.expression?) = [] ∧
      (p.expressions fun _ => true).map Tree.dottedName? = [some "window.x", some "window"] := by
  have found : (parse? .strict ⟨false, false, true, .module⟩ "class A { [window.x]() {} }\n").map (fun p =>
      ((p.walk.filterMap (·.node.expression?)).isEmpty,
        (p.expressions fun _ => true).map Tree.dottedName?)) =
      some (true, [some "window.x", some "window"]) := by
    decide +kernel
  obtain ⟨p, read, found⟩ := Option.map_eq_some_iff.mp found
  obtain ⟨none, every⟩ := Prod.mk.inj found
  exact ⟨p, read, List.isEmpty_iff.mp none, every⟩

end SourceRepair.Script
