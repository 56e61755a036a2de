import SourceRepair.Proofs.Guards.Outline
import SourceRepair.Proofs.Script.Family

/-!
# The children of an outline

A node of an outline has the outlines of the children that the node has in the program, in the same
order. So a walk over the guarded program follows the walk over the program, apart from the steps
through the guards.
-/

namespace SourceRepair.Script

open Repair (Guard around)

variable (gs : List Guard)

@[simp] theorem around_inner (t : Tree) : around gs t (t.inner gs) = t.outline gs := rfl

theorem outlines_eq_map (ts : List Tree) : outlines gs ts = ts.map (Tree.outline gs) := by
  induction ts with
  | nil => rfl
  | cons t ts ih => exact congrArg (t.outline gs :: ·) ih

theorem outline?_eq_map (o : Option Tree) : outline? gs o = o.map (Tree.outline gs) := by
  cases o <;> rfl

/-! ### Forms that guards give and take -/

/-- Trees of this form can have a guard around them, or be such a guard. -/
def Tree.loose : Tree → Bool
  | .expression _ _ | .ifThen _ _ _ _ | .property _ _ _ _ _ _ | .identifier _ _ | .member _ _ _ _
  | .index _ _ _ _ | .privateMember _ _ _ _ | .call _ _ _ _ | .paren _ _ | .ascribe _ _ _
  | .chain _ _ | .assign _ _ _ _ | .update _ _ | .unary _ _ _ => true
  | _ => false

theorem loose_inner (t : Tree) : (t.inner gs).loose = t.loose := by
  cases t <;> rfl

theorem loose_of_root {t : Tree} {root : String} (chain : t.root? = some root) : t.loose := by
  cases t <;> first | rfl | cases chain

theorem loose_of_writes {t : Tree} (writes : t.writes) : t.loose := by
  cases t <;> first | rfl | cases writes

theorem loose_spelled {t : Tree} (loose : t.loose) (change : Tree → Tree) :
    (t.spelled change).loose := by
  cases t <;> first | rfl | cases loose

theorem loose_of_wraps {g : Guard} {t : Tree} (wraps : g.wraps t) : t.loose := by
  rw [Guard.wraps, Bool.and_eq_true] at wraps
  obtain ⟨-, form⟩ := wraps
  cases kind : g.kind with
  | statement =>
    rw [kind] at form
    cases t <;> first | rfl | cases form
  | shorthand =>
    rw [kind] at form
    cases t <;> first | rfl | cases form
  | expression =>
    rw [kind, Bool.or_eq_true, beq_iff_eq] at form
    exact form.elim loose_of_root loose_of_writes

theorem loose_put (g : Guard) {t : Tree} (loose : t.loose) : (g.put t).loose := by
  unfold Guard.put
  cases g.kind with
  | shorthand => exact loose_spelled loose _
  | _ => rfl

theorem outline_or_loose (t : Tree) :
    t.outline gs = t.inner gs ∨ t.loose ∧ (t.outline gs).loose := by
  unfold Tree.outline around
  cases found : gs.filter (·.wraps t) with
  | nil => exact .inl rfl
  | cons g hs =>
    have member : g ∈ gs.filter (·.wraps t) := by rw [found]; exact List.mem_cons_self
    have loose := loose_of_wraps (List.mem_filter.mp member).2
    refine .inr ⟨loose, ?_⟩
    generalize g :: hs = all
    induction all with
    | nil => exact (loose_inner gs t).trans loose
    | cons g all ih => exact loose_put g ih

theorem outline_of_not_loose {t : Tree} (tight : t.loose = false) : t.outline gs = t.inner gs := by
  rcases outline_or_loose gs t with same | ⟨loose, -⟩
  · exact same
  · rw [tight] at loose
    cases loose

/-! ### Nodes -/

namespace Node

/-- The outline of a node without the guards around the node itself. -/
def inner : Node → Node
  | program p => program (p.outline gs)
  | tree role t => tree role (t.inner gs)

/-- The outline of a node in its role. -/
def outline : Node → Node
  | program p => program (p.outline gs)
  | tree .writeTarget t => tree .writeTarget (t.inner gs)
  | tree .chainMember t => tree .chainMember (t.inner gs)
  | tree .chainCall t => tree .chainCall (t.inner gs)
  | tree role t => tree role (t.outline gs)

end Node

variable {gs} in
/-- A function that lists no nodes for loose trees only has to be checked on the insides. -/
theorem nodes_outline {f : Tree → List Node} (vanishes : ∀ t : Tree, t.loose → f t = [])
    {t : Tree} (inside : f (t.inner gs) = (f t).map (Node.outline gs)) :
    f (t.outline gs) = (f t).map (Node.outline gs) := by
  rcases outline_or_loose gs t with same | ⟨loose, wrapped⟩
  · rw [same, inside]
  · rw [vanishes _ loose, vanishes _ wrapped]
    rfl

variable {gs} in
/-- A function that lists a loose tree itself only has to be checked on the other trees. -/
theorem self_outline {f : Tree → List Node} (role : Role)
    (keeps : ∀ t, (Node.tree role t).outline gs = .tree role (t.outline gs))
    (itself : ∀ t : Tree, t.loose → f t = [.tree role t]) {t : Tree}
    (inside : t.outline gs = t.inner gs → f (t.inner gs) = (f t).map (Node.outline gs)) :
    f (t.outline gs) = (f t).map (Node.outline gs) := by
  rcases outline_or_loose gs t with same | ⟨loose, wrapped⟩
  · rw [same, inside same]
  · rw [itself _ loose, itself _ wrapped, List.map_singleton, keeps]

theorem flatMap_outlines {f : Tree → List Node}
    (each : ∀ t, f (t.outline gs) = (f t).map (Node.outline gs)) (ts : List Tree) :
    (outlines gs ts).flatMap f = (ts.flatMap f).map (Node.outline gs) := by
  induction ts with
  | nil => rfl
  | cons t ts ih =>
    rw [List.flatMap_cons, List.map_append, ← each, ← ih]
    rfl

theorem map_outlines {role : Role}
    (keeps : ∀ t, (Node.tree role t).outline gs = .tree role (t.outline gs)) (ts : List Tree) :
    (outlines gs ts).map (Node.tree role) = (ts.map (Node.tree role)).map (Node.outline gs) := by
  rw [outlines_eq_map, List.map_map, List.map_map]
  exact List.map_congr_left fun t _ => (keeps t).symm

theorem map_outline? {role : Role}
    (keeps : ∀ t, (Node.tree role t).outline gs = .tree role (t.outline gs)) (o : Option Tree) :
    (outline? gs o).toList.map (Node.tree role) =
      (o.toList.map (Node.tree role)).map (Node.outline gs) := by
  cases o with
  | none => rfl
  | some t => exact congrArg (fun n => [n]) (keeps t).symm

namespace Tree

theorem elementNode_outline (t : Tree) :
    (t.outline gs).elementNode = t.elementNode.map (Node.outline gs) := by
  refine self_outline .expression (fun _ => rfl) (fun t loose => ?_) fun same => ?_
  · cases t <;> first | rfl | cases loose
  · cases t with
    | hole => rfl
    | spread => rfl
    | _ => exact congrArg (fun u => [Node.tree .expression u]) same.symm

theorem elements_outlines (elements : List Tree) :
    (outlines gs elements).flatMap elementNode =
      (elements.flatMap elementNode).map (Node.outline gs) :=
  flatMap_outlines gs (elementNode_outline gs) elements

theorem writeNode_inner (t : Tree) :
    (t.inner gs).writeNode = t.writeNode.map (Node.outline gs) := by
  cases t <;> rfl

theorem memberNodes_inner (t : Tree) :
    (t.inner gs).memberNodes = t.memberNodes.map (Node.outline gs) := by
  cases t <;> rfl

theorem chainNodes_inner (t : Tree) :
    (t.inner gs).chainNodes = t.chainNodes.map (Node.outline gs) := by
  cases t <;> rfl

theorem classMemberNodes_outline (t : Tree) :
    (t.outline gs).classMemberNodes = t.classMemberNodes.map (Node.outline gs) := by
  refine nodes_outline (fun t loose => ?_) ?_
  · cases t <;> first | rfl | cases loose
  · cases t with
    | field _ _ _ value => cases value <;> rfl
    | staticBlock statements => exact map_outlines gs (fun _ => rfl) statements
    | _ => rfl

theorem classNodes_inner (t : Tree) :
    (t.inner gs).classNodes = t.classNodes.map (Node.outline gs) := by
  cases t with
  | classDef _ _ superClass members =>
    change (outline? gs superClass).toList.map _ ++ (outlines gs members).flatMap _ =
      List.map _ (_ ++ _)
    rw [map_outline? gs fun _ => rfl, flatMap_outlines gs (classMemberNodes_outline gs),
      List.map_append]
  | _ => rfl

theorem classNodes_outline (t : Tree) :
    (t.outline gs).classNodes = t.classNodes.map (Node.outline gs) := by
  refine nodes_outline (fun t loose => ?_) (classNodes_inner gs t)
  cases t <;> first | rfl | cases loose

mutual

theorem patternExpressions_outline (t : Tree) :
    (t.outline gs).patternExpressions = t.patternExpressions.map (Tree.outline gs) := by
  rcases outline_or_loose gs t with same | ⟨loose, wrapped⟩
  · rw [same]
    cases t with
    | withDefault left right =>
      change (left.outline gs).patternExpressions ++ _ = List.map _ (left.patternExpressions ++ _)
      rw [patternExpressions_outline left, List.map_append]
      rfl
    | objectPattern properties => exact patternExpressionsList_outlines properties
    | arrayPattern elements => exact patternExpressionsList_outlines elements
    | patternProperty key computed value =>
      change _ ++ (value.outline gs).patternExpressions = List.map _ (_ ++ value.patternExpressions)
      rw [patternExpressions_outline value, List.map_append]
      cases computed <;> rfl
    | rest inner => exact patternExpressions_outline inner
    | param _ pattern => exact patternExpressions_outline pattern
    | _ => rfl
  · have vanishes : ∀ u : Tree, u.loose → u.patternExpressions = [] := by
      intro u loose
      cases u <;> first | rfl | cases loose
    rw [vanishes _ loose, vanishes _ wrapped]
    rfl

theorem patternExpressionsList_outlines (ts : List Tree) :
    patternExpressionsList (outlines gs ts) =
      (patternExpressionsList ts).map (Tree.outline gs) := by
  cases ts with
  | nil => rfl
  | cons t ts =>
    change (t.outline gs).patternExpressions ++ patternExpressionsList (outlines gs ts) =
      List.map _ (_ ++ _)
    rw [patternExpressions_outline t, patternExpressionsList_outlines ts, List.map_append]

end

mutual

theorem jsxNodes_outline (t : Tree) :
    (t.outline gs).jsxNodes = t.jsxNodes.map (Node.outline gs) := by
  rcases outline_or_loose gs t with same | ⟨loose, wrapped⟩
  · rw [same]
    cases t with
    | jsxFragment children => exact jsxNodesList_outlines children
    | jsxContainer inner => cases inner <;> rfl
    | jsxElement => exact congrArg (fun u => [Node.tree .jsxElement u]) same.symm
    | _ => rfl
  · have vanishes : ∀ u : Tree, u.loose → u.jsxNodes = [] := by
      intro u loose
      cases u <;> first | rfl | cases loose
    rw [vanishes _ loose, vanishes _ wrapped]
    rfl

theorem jsxNodesList_outlines (ts : List Tree) :
    jsxNodesList (outlines gs ts) = (jsxNodesList ts).map (Node.outline gs) := by
  cases ts with
  | nil => rfl
  | cons t ts =>
    change (t.outline gs).jsxNodes ++ jsxNodesList (outlines gs ts) = List.map _ (_ ++ _)
    rw [jsxNodes_outline t, jsxNodesList_outlines ts, List.map_append]

end

theorem enumNodes_outlines (members : List Tree) :
    enumNodes (outlines gs members) = (enumNodes members).map (Node.outline gs) := by
  rw [enumNodes_eq, enumNodes_eq members]
  refine flatMap_outlines gs (fun t => ?_) members
  refine nodes_outline (f := fun m => enumNodes [m]) (fun t loose => ?_) ?_
  · cases t <;> first | rfl | cases loose
  · cases t with
    | enumMember _ init => cases init <;> rfl
    | _ => rfl

theorem declarationNodes_outline (t : Tree) :
    (t.outline gs).declarationNodes = t.declarationNodes.map (Node.outline gs) := by
  refine nodes_outline (fun t loose => ?_) ?_
  · cases t <;> first | rfl | cases loose
  · cases t with
    | declaration k ds s =>
      exact congrArg (fun u => [Node.tree .variableDeclaration u])
        (outline_of_not_loose gs (t := .declaration k ds s) rfl).symm
    | classDecl c => exact classNodes_outline gs c
    | enumDecl _ members => exact enumNodes_outlines gs members
    | _ => rfl

theorem loopInitNodes_outline (t : Tree) :
    (t.outline gs).loopInitNodes = t.loopInitNodes.map (Node.outline gs) := by
  refine self_outline .expression (fun _ => rfl) (fun t loose => ?_) fun same => ?_
  · cases t <;> first | rfl | cases loose
  · cases t with
    | declaration => exact congrArg (fun u => [Node.tree .variableDeclaration u]) same.symm
    | _ => exact congrArg (fun u => [Node.tree .expression u]) same.symm

theorem loopTargetNodes_outline (t : Tree) :
    (t.outline gs).loopTargetNodes = t.loopTargetNodes.map (Node.outline gs) := by
  refine nodes_outline (fun t loose => ?_) ?_
  · cases t <;> first | rfl | cases loose
  · cases t with
    | declaration k ds s =>
      exact congrArg (fun u => [Node.tree .variableDeclaration u])
        (outline_of_not_loose gs (t := .declaration k ds s) rfl).symm
    | _ => rfl

theorem bodyNode_outline (t : Tree) :
    [(t.outline gs).bodyNode] = [t.bodyNode].map (Node.outline gs) := by
  refine self_outline (f := fun t => [t.bodyNode]) .expression (fun _ => rfl)
    (fun t loose => ?_) fun same => ?_
  · cases t <;> first | rfl | cases loose
  · cases t with
    | body => exact congrArg (fun u => [Node.tree .functionBody u]) same.symm
    | _ => exact congrArg (fun u => [Node.tree .expression u]) same.symm

theorem declaratorNodes_outline (t : Tree) :
    (t.outline gs).declaratorNodes = t.declaratorNodes.map (Node.outline gs) := by
  refine nodes_outline (fun t loose => ?_) ?_
  · cases t <;> first | rfl | cases loose
  · cases t with
    | declarator pattern init =>
      change (pattern.outline gs).patternExpressions.map _ ++ (outline? gs init).toList.map _ =
        List.map _ (_ ++ _)
      rw [patternExpressions_outline, ← outlines_eq_map, map_outlines gs fun _ => rfl,
        map_outline? gs fun _ => rfl, List.map_append]
    | _ => rfl

theorem attributeNodes_outline (t : Tree) :
    (t.outline gs).attributeNodes = t.attributeNodes.map (Node.outline gs) := by
  refine nodes_outline (fun t loose => ?_) ?_
  · cases t <;> first | rfl | cases loose
  · cases t with
    | jsxAttribute name value =>
      cases value with
      | none => rfl
      | some value =>
        -- Apart from a string, whose nodes are none either way, the value is read as a child.
        have plain : ∀ v : Tree,
            (jsxAttribute name (some v) nowhere).attributeNodes = v.jsxNodes := by
          intro v
          cases v <;> rfl
        change (jsxAttribute name (some (value.outline gs)) nowhere).attributeNodes =
          (jsxAttribute name (some value) nowhere).attributeNodes.map _
        rw [plain, plain, jsxNodes_outline]
    | _ => rfl

theorem parameterNodes_outlines (params : List Tree) :
    parameterNodes (outlines gs params) = (parameterNodes params).map (Node.outline gs) := by
  unfold parameterNodes
  rw [patternExpressionsList_outlines, ← outlines_eq_map, map_outlines gs fun _ => rfl]

theorem objectNodes_outlines (properties : List Tree) :
    objectNodes (outlines gs properties) = (objectNodes properties).map (Node.outline gs) := by
  rw [objectNodes_eq, objectNodes_eq properties]
  refine flatMap_outlines gs (fun t => ?_) properties
  refine self_outline (f := fun p => objectNodes [p]) .objectProperty (fun _ => rfl) (fun t loose => ?_)
    fun same => ?_
  · cases t <;> first | rfl | cases loose
  · cases t with
    | spread => rfl
    | _ => exact congrArg (fun u => [Node.tree .objectProperty u]) same.symm

theorem propertyNodes_inner (t : Tree) :
    (t.inner gs).propertyNodes = t.propertyNodes.map (Node.outline gs) := by
  cases t with
  | property key computed => cases computed <;> rfl
  | method key computed => cases computed <;> rfl
  | _ => rfl

theorem expressionNodes_inner (t : Tree) :
    (t.inner gs).expressionNodes = t.expressionNodes.map (Node.outline gs) := by
  cases t with
  | array elements => exact elements_outlines gs elements
  | object properties => exact objectNodes_outlines gs properties
  | assign _ target value =>
    change (target.inner gs).writeNode ++ _ = List.map _ (target.writeNode ++ _)
    rw [writeNode_inner, List.map_append]
    rfl
  | update target => exact writeNode_inner gs target
  | arrow _ params body =>
    change parameterNodes (outlines gs params) ++ [(body.outline gs).bodyNode] = List.map _ (_ ++ _)
    rw [parameterNodes_outlines, bodyNode_outline, List.map_append]
  | function head params body =>
    exact congrArg (fun u => [Node.tree .function u])
      (outline_of_not_loose gs (t := .function head params body) rfl).symm
  | classDef n ds p ms s => exact classNodes_inner gs (.classDef n ds p ms s)
  | yield argument => exact map_outline? gs (fun _ => rfl) argument
  | sequence items => exact map_outlines gs (fun _ => rfl) items
  | call callee args => exact congrArg (_ :: ·) (elements_outlines gs args)
  | construct callee args => exact congrArg (_ :: ·) (elements_outlines gs args)
  | chain link => exact chainNodes_inner gs link
  | template parts => exact map_outlines gs (fun _ => rfl) parts
  | tagged tag parts => exact congrArg (_ :: ·) (map_outlines gs (fun _ => rfl) parts)
  | jsxElement n as o cs c s =>
    exact congrArg (fun u => [Node.tree .jsxElement u])
      (outline_of_not_loose gs (t := .jsxElement n as o cs c s) rfl).symm
  | jsxFragment children => exact jsxNodesList_outlines gs children
  | _ => rfl

theorem exportedNodes_outline (value : Tree) (s : Span) :
    (exportDefault (value.outline gs) s).statementNodes =
      (exportDefault value s).statementNodes.map (Node.outline gs) := by
  refine self_outline (f := fun v => (exportDefault v s).statementNodes) .expression
    (fun _ => rfl) (fun t loose => ?_) fun same => ?_
  · cases t <;> first | rfl | cases loose
  · cases value with
    | functionDecl => rfl
    | classDecl c => exact classNodes_outline gs c
    | typeDecl => rfl
    | _ => exact congrArg (fun u => [Node.tree .expression u]) same.symm

theorem statementNodes_inner (t : Tree) :
    (t.inner gs).statementNodes = t.statementNodes.map (Node.outline gs) := by
  cases t with
  | block statements => exact map_outlines gs (fun _ => rfl) statements
  | ifThen test yes no =>
    exact congrArg ([_, _] ++ ·) (map_outline? gs (fun _ => rfl) no)
  | returns argument => exact map_outline? gs (fun _ => rfl) argument
  | declaration k ds s =>
    exact congrArg (fun u => [Node.tree .variableDeclaration u])
      (outline_of_not_loose gs (t := .declaration k ds s) rfl).symm
  | classDecl c => exact classNodes_outline gs c
  | forLoop init test update body =>
    change (outline? gs init).toList.flatMap _ ++ (outline? gs test).toList.map _ ++
      (outline? gs update).toList.map _ ++ _ = List.map _ (_ ++ _ ++ _ ++ _)
    rw [map_outline? gs fun _ => rfl, map_outline? gs fun _ => rfl, List.map_append,
      List.map_append, List.map_append]
    cases init with
    | none => rfl
    | some init =>
      change (init.outline gs).loopInitNodes ++ [] ++ _ ++ _ ++ _ =
        List.map _ (init.loopInitNodes ++ []) ++ _ ++ _ ++ _
      rw [List.append_nil, List.append_nil, loopInitNodes_outline]
      rfl
  | forIn left right body =>
    change (left.outline gs).loopTargetNodes ++ _ = List.map _ (left.loopTargetNodes ++ _)
    rw [loopTargetNodes_outline, List.map_append]
    rfl
  | forOf left right body =>
    change (left.outline gs).loopTargetNodes ++ _ = List.map _ (left.loopTargetNodes ++ _)
    rw [loopTargetNodes_outline, List.map_append]
    rfl
  | switch value cases => exact congrArg (_ :: ·) (map_outlines gs (fun _ => rfl) cases)
  | tryCatch parts => exact map_outlines gs (fun _ => rfl) parts
  | enumDecl _ members => exact enumNodes_outlines gs members
  | exportNamed d =>
    cases d with
    | none => rfl
    | some d =>
      change (d.outline gs).declarationNodes ++ [] = List.map _ (d.declarationNodes ++ [])
      rw [List.append_nil, List.append_nil, declarationNodes_outline]
  | exportDefault value s =>
    have spanless : (exportDefault (value.outline gs) nowhere).statementNodes =
        (exportDefault (value.outline gs) s).statementNodes := by
      cases value.outline gs <;> rfl
    exact spanless.trans (exportedNodes_outline gs value s)
  | _ => rfl

end Tree

/-- The children of the inside of a node are the outlines of its children. -/
theorem children_inner (n : Node) :
    (n.inner gs).children = n.children.map (Node.outline gs) := by
  cases n with
  | program p => exact map_outlines gs (fun _ => rfl) p.body
  | tree role t =>
    cases role with
    | statement => exact Tree.statementNodes_inner gs t
    | expression => exact Tree.expressionNodes_inner gs t
    | block =>
      cases t with
      | tryPart _ _ statements => exact map_outlines gs (fun _ => rfl) statements
      | _ => rfl
    | function =>
      cases t with
      | function _ params body =>
        change Tree.parameterNodes (outlines gs params) ++ (outline? gs body).toList.map _ =
          List.map _ (_ ++ _)
        rw [Tree.parameterNodes_outlines, map_outline? gs fun _ => rfl, List.map_append]
      | _ => rfl
    | functionBody =>
      cases t with
      | body _ statements => exact map_outlines gs (fun _ => rfl) statements
      | _ => rfl
    | switchCase =>
      cases t with
      | switchCase test statements =>
        change (outline? gs test).toList.map _ ++ (outlines gs statements).map _ =
          List.map _ (_ ++ _)
        rw [map_outline? gs fun _ => rfl, map_outlines gs fun _ => rfl, List.map_append]
      | _ => rfl
    | variableDeclaration =>
      cases t with
      | declaration _ ds => exact flatMap_outlines gs (Tree.declaratorNodes_outline gs) ds
      | _ => rfl
    | objectProperty => exact Tree.propertyNodes_inner gs t
    | writeTarget => exact Tree.memberNodes_inner gs t
    | chainMember => exact Tree.memberNodes_inner gs t
    | chainCall =>
      cases t with
      | call callee args => exact congrArg (_ :: ·) (Tree.elements_outlines gs args)
      | _ => rfl
    | jsxElement =>
      cases t with
      | jsxElement _ attributes _ children =>
        change (outlines gs attributes).flatMap _ ++ jsxNodesList (outlines gs children) =
          List.map _ (_ ++ _)
        rw [flatMap_outlines gs (Tree.attributeNodes_outline gs), Tree.jsxNodesList_outlines,
          List.map_append]
      | _ => rfl

end SourceRepair.Script
