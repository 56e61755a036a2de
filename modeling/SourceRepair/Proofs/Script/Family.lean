import SourceRepair.Proofs.Script.Scopes
import SourceRepair.Script.Walk

/-!
# The children of nodes in the text

The children of a node stand in order inside the span of the node, and each of them is reached from
the tree of the node through trees whose scopes cover it. `Node.family` pairs every child with the
names that those scopes declare, and `family_seats` proves both facts of every node.
-/

namespace SourceRepair.Script

/-! ### The children of a node with the names declared for them -/

namespace Tree

/-- The nodes in a class, each with the names of the class and of the block around it. -/
def classFamily : Tree → List (List String × Node)
  | classDef n ds superClass members s =>
    let own := (classDef n ds superClass members s).scopeNames
    superClass.toList.map (fun e => (own, .tree .expression e)) ++
      members.flatMap fun m => m.classMemberNodes.map fun c => (own ++ m.scopeNames, c)
  | _ => []

def declaredFamily : Stmt → List (List String × Node)
  | classDecl c => c.classFamily
  | enumDecl n members s => (enumNodes members).map fun c => ((enumDecl n members s).scopeNames, c)
  | d => d.declarationNodes.map fun c => ([], c)

end Tree

/-- The children of a node, each with the names that are declared for it between the node and the
child. -/
def Node.family : Node → List (List String × Node)
  | program p => p.body.map fun s => (Tree.bodyNames p.body, .tree .statement s)
  | tree .statement (.switch value cases s) =>
    ([], .tree .expression value) ::
      cases.map fun c => ((Tree.switch value cases s).scopeNames, .tree .switchCase c)
  | tree .statement (.classDecl c) => c.classFamily
  | tree .statement (.exportNamed (some d) _ _) => d.declaredFamily
  | tree .statement (.exportDefault (.classDecl c) _) => c.classFamily
  | tree .expression (.classDef n ds p ms s) => (Tree.classDef n ds p ms s).classFamily
  | tree .expression (.function head params body) =>
    [([], .tree .function (.function head params body))]
  | tree role t => (tree role t).children.map fun c => (t.scopeNames, c)

theorem paired_nodes (names : List String) (cs : List Node) :
    (cs.map fun c => (names, c)).map Prod.snd = cs := by
  rw [List.map_map]
  exact List.map_id cs

theorem classFamily_nodes (t : Tree) : t.classFamily.map Prod.snd = t.classNodes := by
  cases t with
  | classDef n ds superClass members s =>
    change List.map Prod.snd (_ ++ _) = superClass.toList.map _ ++ members.flatMap _
    rw [List.map_append, List.map_flatMap, List.map_map]
    simp only [paired_nodes]
    rfl
  | _ => rfl

theorem family_nodes (n : Node) : n.family.map Prod.snd = n.children := by
  cases n with
  | program p =>
    change List.map Prod.snd (List.map _ _) = p.body.map _
    rw [List.map_map]
    rfl
  | tree role t =>
    cases role with
    | statement =>
      cases t with
      | switch value cases s =>
        change _ :: List.map Prod.snd (cases.map _) = _ :: cases.map _
        rw [List.map_map]
        rfl
      | classDecl c => exact classFamily_nodes c
      | exportNamed d =>
        cases d with
        | none => rfl
        | some d =>
          change d.declaredFamily.map Prod.snd = d.declarationNodes ++ []
          rw [List.append_nil]
          cases d with
          | classDecl c => exact classFamily_nodes c
          | _ => exact paired_nodes _ _
      | exportDefault value =>
        cases value with
        | classDecl c => exact classFamily_nodes c
        | _ => exact paired_nodes _ _
      | _ => exact paired_nodes _ _
    | expression =>
      cases t with
      | classDef n ds p ms s => exact classFamily_nodes (.classDef n ds p ms s)
      | function => rfl
      | _ => exact paired_nodes _ _
    | _ => exact paired_nodes _ _


/-- The children of the node are smaller trees than the node. Otherwise the only child is the tree
itself, in another role. -/
def Node.descends : Node → Bool
  | tree .expression (.function _ _ _) | tree .expression (.jsxElement _ _ _ _ _ _)
  | tree .statement (.declaration _ _ _) => false
  | _ => true

/-! ### Children in order -/

/-- The nodes stand one after the other between two offsets, inside the tree, and the names paired
with them are those declared on the way. The flag says that none of them is the tree itself. -/
inductive Seats (proper : Bool) (t : Tree) : Nat → Nat → List (List String × Node) → Prop
  | nil {lo hi : Nat} (le : lo ≤ hi) : Seats proper t lo hi []
  | cons {lo mid hi : Nat} {names : List String} {role : Role} {u : Tree}
    {family : List (List String × Node)} (reach : Reach t names u)
    (smaller : proper → u.size < t.size) (order : InOrder lo mid [u])
    (rest : Seats proper t mid hi family) : Seats proper t lo hi ((names, .tree role u) :: family)

theorem Reach.size_le {t u : Tree} {names : List String} (reach : Reach t names u) :
    u.size ≤ t.size := by
  induction reach with
  | here => exact Nat.le.refl
  | @definition t u names _ ih =>
    have := size_lt_of_child (t := .classDecl t) (u := t) List.mem_cons_self
    omega
  | part _ part _ ih =>
    have := size_lt_of_child (mem_children_iff.mpr (.inr (.inr part)))
    omega
  | @subject value u cases span names _ ih =>
    have := size_lt_of_child (t := .switch value cases span) (u := value) List.mem_cons_self
    omega
  | @branch value v u cases span names part _ ih =>
    have := size_lt_of_child (t := .switch value cases span) (List.mem_cons_of_mem _ part)
    omega

theorem size_lt_of_part {t u : Tree} (part : u ∈ t.parts) : u.size < t.size :=
  size_lt_of_child (mem_children_iff.mpr (.inr (.inr part)))

theorem Reach.of_part {t u : Tree} (plain : t.isSwitch = false) (part : u ∈ t.parts) :
    Reach t t.scopeNames u := by
  have reach := Reach.part plain part .here
  rwa [List.append_nil] at reach

namespace Seats

variable {proper : Bool} {t v : Tree} {lo mid hi : Nat} {family others : List (List String × Node)}

theorem le (seats : Seats proper t lo hi family) : lo ≤ hi := by
  induction seats with
  | nil le => exact le
  | cons _ _ order _ rest =>
    have := order.le
    omega

theorem mono (seats : Seats proper t lo hi family) {lo' hi' : Nat} (lower : lo' ≤ lo) (upper : hi ≤ hi') :
    Seats proper t lo' hi' family := by
  induction seats generalizing lo' with
  | nil le => exact .nil (by omega)
  | cons reach smaller order _ rest =>
    exact .cons reach smaller (order.mono lower Nat.le.refl) (rest Nat.le.refl upper)

theorem append (first : Seats proper t lo mid family) (second : Seats proper t mid hi others) :
    Seats proper t lo hi (family ++ others) := by
  induction first with
  | nil le => exact second.mono le Nat.le.refl
  | cons reach smaller order _ rest => exact .cons reach smaller order (rest second)

/-- What is inside a part is inside the tree, and the names of the tree are declared for it. -/
theorem lift (plain : t.isSwitch = false) (part : v ∈ t.parts) (seats : Seats false v lo hi family) :
    Seats proper t lo hi (family.map fun f => (t.scopeNames ++ f.1, f.2)) := by
  induction seats with
  | nil le => exact .nil le
  | cons reach _ order _ rest =>
    have := reach.size_le
    have := size_lt_of_part part
    exact .cons (.part plain part reach) (fun _ => by omega) order rest

/-- Nothing is declared on the way through a tree that opens no scope. -/
theorem through (plain : t.isSwitch = false) (bare : t.scopeNames = []) (part : v ∈ t.parts)
    (seats : Seats false v lo hi family) : Seats proper t lo hi family := by
  have lifted : Seats proper t lo hi _ := seats.lift plain part
  simpa only [bare, List.nil_append, List.map_id'] using lifted

theorem definition (seats : Seats false t lo hi family) :
    Seats proper (.classDecl t) lo hi family := by
  induction seats with
  | nil le => exact .nil le
  | cons reach _ order _ rest =>
    have := reach.size_le
    have := size_lt_of_child (t := .classDecl t) (u := t) List.mem_cons_self
    exact .cons (.definition reach) (fun _ => by omega) order rest

/-- Parts that are nodes of one role. -/
theorem of_parts (plain : t.isSwitch = false) (role : Role) {ts : List Tree}
    (order : InOrder lo hi ts) (parts : ∀ u ∈ ts, u ∈ t.parts) :
    Seats proper t lo hi ((ts.map (Node.tree role)).map fun c => (t.scopeNames, c)) := by
  induction ts generalizing lo with
  | nil => exact .nil order.le
  | cons u ts ih =>
    obtain ⟨mid, first, rest⟩ := order.of_cons
    have part := parts u List.mem_cons_self
    exact .cons (.of_part plain part) (fun _ => size_lt_of_part part) first
      (ih rest fun w member => parts w (List.mem_cons_of_mem _ member))

theorem lift_nodes (plain : t.isSwitch = false) (part : v ∈ t.parts) {cs : List Node}
    (seats : Seats false v lo hi (cs.map fun c => ([], c))) :
    Seats proper t lo hi (cs.map fun c => (t.scopeNames, c)) := by
  have lifted : Seats proper t lo hi _ := seats.lift plain part
  rw [List.map_map] at lifted
  simpa only [Function.comp_def, List.append_nil] using lifted

theorem part_cons (plain : t.isSwitch = false) {role : Role} (part : v ∈ t.parts)
    (order : InOrder lo mid [v]) (rest : Seats proper t mid hi family) :
    Seats proper t lo hi ((t.scopeNames, .tree role v) :: family) :=
  .cons (.of_part plain part) (fun _ => size_lt_of_part part) order rest

theorem of_part (plain : t.isSwitch = false) (role : Role) (part : v ∈ t.parts)
    (order : InOrder lo hi [v]) : Seats proper t lo hi [(t.scopeNames, .tree role v)] :=
  part_cons plain part order (.nil Nat.le.refl)

/-- Parts that hold nodes. -/
theorem of_flatMap (plain : t.isSwitch = false) {f : Tree → List Node} {ts : List Tree}
    (order : InOrder lo hi ts) (parts : ∀ u ∈ ts, u ∈ t.parts)
    (each : ∀ u ∈ ts, ∀ {lo hi : Nat}, InOrder lo hi [u] →
      Seats false u lo hi ((f u).map fun c => ([], c))) :
    Seats proper t lo hi ((ts.flatMap f).map fun c => (t.scopeNames, c)) := by
  induction ts generalizing lo with
  | nil => exact .nil order.le
  | cons u ts ih =>
    obtain ⟨mid, first, rest⟩ := order.of_cons
    rw [List.flatMap_cons, List.map_append]
    have inside : Seats proper t lo mid _ :=
      lift_nodes plain (parts u List.mem_cons_self) (each u List.mem_cons_self first)
    exact inside.append (ih rest (fun w member => parts w (List.mem_cons_of_mem _ member))
      fun w member => each w (List.mem_cons_of_mem _ member))

theorem itself (role : Role) (order : InOrder lo hi [t]) :
    Seats false t lo hi [([], .tree role t)] :=
  .cons .here nofun order (.nil Nat.le.refl)

/-- What stands in the span of a tree stands where the tree stands. -/
theorem widen (order : InOrder lo hi [t]) (seats : Seats proper t t.span.start t.span.stop family) :
    Seats proper t lo hi family :=
  seats.mono order.starts order.stops

end Seats

namespace Tree

variable {proper : Bool} {lo hi : Nat} {t : Tree}

theorem elementNode_seats (order : InOrder lo hi [t]) :
    Seats false t lo hi (t.elementNode.map fun c => ([], c)) := by
  cases t with
  | hole => exact .nil order.le
  | spread inner => exact .widen order (.of_parts rfl .expression order.parts fun _ part => part)
  | _ => exact .itself .expression order

theorem writeNode_seats (order : InOrder lo hi [t]) :
    Seats false t lo hi (t.writeNode.map fun c => ([], c)) := by
  cases t with
  | member | index | privateMember => exact .itself .writeTarget order
  | _ => exact .nil order.le

theorem bodyNode_seats (order : InOrder lo hi [t]) : Seats false t lo hi [([], t.bodyNode)] := by
  cases t with
  | body => exact .itself .functionBody order
  | _ => exact .itself .expression order

theorem loopInitNodes_seats (order : InOrder lo hi [t]) :
    Seats false t lo hi (t.loopInitNodes.map fun c => ([], c)) := by
  cases t with
  | declaration => exact .itself .variableDeclaration order
  | _ => exact .itself .expression order

theorem loopTargetNodes_seats (order : InOrder lo hi [t]) :
    Seats false t lo hi (t.loopTargetNodes.map fun c => ([], c)) := by
  cases t with
  | declaration => exact .itself .variableDeclaration order
  | _ => exact .nil order.le

theorem chainNodes_seats (order : InOrder lo hi [t]) :
    Seats false t lo hi (t.chainNodes.map fun c => ([], c)) := by
  cases t with
  | call => exact .itself .chainCall order
  | member | index | privateMember => exact .itself .chainMember order
  | ascribe => exact .widen order (.of_parts rfl .expression order.parts fun _ part => part)
  | _ => exact .nil order.le

theorem patternExpressionsList_eq (ts : List Tree) :
    patternExpressionsList ts = ts.flatMap patternExpressions := by
  induction ts with
  | nil => rfl
  | cons t ts ih => exact congrArg (t.patternExpressions ++ ·) ih

/-- The nodes of the expressions in a pattern. -/
def patternNodes (t : Tree) : List Node := t.patternExpressions.map (.tree .expression)

theorem parameterNodes_eq (params : List Tree) : parameterNodes params = params.flatMap patternNodes := by
  unfold parameterNodes
  rw [patternExpressionsList_eq, List.map_flatMap]
  rfl

theorem patternNodes_seats (order : InOrder lo hi [t]) :
    Seats false t lo hi (t.patternNodes.map fun c => ([], c)) := by
  induction t using Tree.rec_children generalizing lo hi with
  | step t ih =>
    refine .widen order ?_
    have parts := order.parts
    cases t with
    | withDefault left right =>
      obtain ⟨mid, first, second⟩ := parts.of_cons
      have before := ih left List.mem_cons_self first
      change Seats _ _ _ _ (((left.patternExpressions ++ [right]).map _).map _)
      rw [List.map_append, List.map_append]
      exact (before.lift_nodes rfl List.mem_cons_self).append
        (.of_part rfl .expression (List.mem_cons_of_mem _ List.mem_cons_self) second)
    | objectPattern | arrayPattern =>
      rw [patternNodes, patternExpressions, patternExpressionsList_eq, List.map_flatMap]
      exact .of_flatMap rfl parts (fun _ part => part) fun u part _ _ order => ih u part order
    | patternProperty key computed value =>
      cases computed with
      | true =>
        obtain ⟨mid, first, second⟩ := parts.of_cons
        have among : value ∈ [key, value] := List.mem_cons_of_mem _ List.mem_cons_self
        have after := ih value among second
        exact (Seats.of_part rfl .expression List.mem_cons_self first).append
          (after.lift_nodes rfl among)
      | false =>
        have among : value ∈ [key, value] := List.mem_cons_of_mem _ List.mem_cons_self
        exact (ih value among parts).lift_nodes rfl List.mem_cons_self
    | rest inner => exact (ih inner List.mem_cons_self parts).lift_nodes rfl List.mem_cons_self
    | param decorators pattern =>
      obtain ⟨mid, first, second⟩ := parts.split
      have among : pattern ∈ decorators ++ [pattern] := List.mem_append_right _ List.mem_cons_self
      exact ((ih pattern among second).lift_nodes rfl among).mono first.le Nat.le.refl
    | _ => exact .nil parts.le

theorem jsxNodesList_eq (ts : List Tree) : jsxNodesList ts = ts.flatMap jsxNodes := by
  induction ts with
  | nil => rfl
  | cons t ts ih => exact congrArg (t.jsxNodes ++ ·) ih

theorem jsxNodes_seats (order : InOrder lo hi [t]) :
    Seats false t lo hi (t.jsxNodes.map fun c => ([], c)) := by
  induction t using Tree.rec_children generalizing lo hi with
  | step t ih =>
    have parts := order.parts
    cases t with
    | jsxFragment children =>
      rw [jsxNodes, jsxNodesList_eq]
      exact .widen order (.of_flatMap rfl parts (fun _ part => part) fun u part _ _ order => ih u part order)
    | jsxContainer inner =>
      cases inner with
      | none => exact .nil order.le
      | some e => exact .widen order (.of_part rfl .expression List.mem_cons_self parts)
    | spread e => exact .widen order (.of_part rfl .expression List.mem_cons_self parts)
    | jsxElement => exact .itself .jsxElement order
    | _ => exact .nil order.le

theorem attributeNodes_seats (order : InOrder lo hi [t]) :
    Seats false t lo hi (t.attributeNodes.map fun c => ([], c)) := by
  cases t with
  | spread e => exact .widen order (.of_part rfl .expression List.mem_cons_self order.parts)
  | jsxAttribute _ value =>
    cases value with
    | none => exact .nil order.le
    | some value =>
      refine .widen order ?_
      cases value with
      | string => exact .nil order.parts.le
      | _ => exact (jsxNodes_seats order.parts).lift_nodes rfl List.mem_cons_self
  | _ => exact .nil order.le

theorem declaratorNodes_seats (order : InOrder lo hi [t]) :
    Seats false t lo hi (t.declaratorNodes.map fun c => ([], c)) := by
  cases t with
  | declarator pattern init =>
    refine .widen order ?_
    obtain ⟨mid, first, second⟩ := order.parts.of_cons
    change Seats _ _ _ _ ((pattern.patternNodes ++ init.toList.map _).map _)
    rw [List.map_append]
    exact ((patternNodes_seats first).lift_nodes rfl List.mem_cons_self).append
      (.of_parts rfl .expression second fun _ part => List.mem_cons_of_mem _ part)
  | _ => exact .nil order.le

theorem objectNodes_eq (properties : List Tree) :
    objectNodes properties = properties.flatMap fun p => objectNodes [p] := by
  unfold objectNodes
  simp

theorem objectNodes_seats (order : InOrder lo hi [t]) :
    Seats false t lo hi ((objectNodes [t]).map fun c => ([], c)) := by
  cases t with
  | spread e => exact .widen order (.of_part rfl .expression List.mem_cons_self order.parts)
  | _ => exact .itself .objectProperty order

theorem enumNodes_eq (members : List Tree) :
    enumNodes members = members.flatMap fun m => enumNodes [m] := by
  unfold enumNodes
  simp

theorem enumNodes_seats (order : InOrder lo hi [t]) :
    Seats false t lo hi ((enumNodes [t]).map fun c => ([], c)) := by
  cases t with
  | enumMember _ init =>
    cases init with
    | none => exact .nil order.le
    | some e => exact .widen order (.of_part rfl .expression List.mem_cons_self order.parts)
  | _ => exact .nil order.le

theorem classMemberNodes_seats (order : InOrder lo hi [t]) :
    Seats false t lo hi (t.classMemberNodes.map fun c => (t.scopeNames, c)) := by
  cases t with
  | method key computed decorators f =>
    refine .widen order ?_
    obtain ⟨mid, first, second⟩ := order.parts.split
    exact (Seats.of_part rfl .function (List.mem_append_right _ List.mem_cons_self) second).mono
      first.le Nat.le.refl
  | field key computed decorators value =>
    cases value with
    | none => exact .nil order.le
    | some value =>
      refine .widen order ?_
      obtain ⟨mid, first, second⟩ := order.parts.split
      exact (Seats.of_part rfl .expression (List.mem_append_right _ List.mem_cons_self) second).mono
        first.le Nat.le.refl
  | staticBlock statements => exact .widen order (.of_parts rfl .statement order.parts fun _ part => part)
  | _ => exact .nil order.le

theorem classFamily_seats (order : InOrder lo hi [t]) :
    Seats proper t t.span.start t.span.stop t.classFamily := by
  cases t with
  | classDef n ds superClass members s =>
    have inside : ∀ {a b : Nat} {ms : List Tree}, InOrder a b ms → (∀ m ∈ ms, m ∈ members) →
        Seats proper (classDef n ds superClass members s) a b (ms.flatMap fun m =>
          m.classMemberNodes.map fun c =>
            ((classDef n ds superClass members s).scopeNames ++ m.scopeNames, c)) := by
      intro a b ms order among
      induction ms generalizing a with
      | nil => exact .nil order.le
      | cons m ms ih =>
        obtain ⟨mid, first, rest⟩ := order.of_cons
        have part : m ∈ (classDef n ds superClass members s).parts :=
          List.mem_append_right _ (among m List.mem_cons_self)
        have lifted : Seats proper (classDef n ds superClass members s) _ _ _ :=
          (classMemberNodes_seats first).lift rfl part
        rw [List.map_map] at lifted
        exact lifted.append (ih rest fun u member => among u (List.mem_cons_of_mem _ member))
    obtain ⟨mid, first, second⟩ := order.parts.split
    refine Seats.append ?_ (inside second fun _ member => member)
    have extended : Seats proper (classDef n ds superClass members s) _ _ _ :=
      .of_parts rfl .expression first fun _ part => List.mem_append_left _ part
    rwa [List.map_map] at extended
  | _ => exact .nil order.start_le_stop

theorem definition_seats {c : Tree} (order : InOrder lo hi [classDecl c]) :
    Seats proper (classDecl c) c.span.start c.span.stop c.classFamily := by
  cases order with
  | cons _ _ front => exact (classFamily_seats front).definition

theorem declaredFamily_seats (order : InOrder lo hi [t]) : Seats false t lo hi t.declaredFamily := by
  cases t with
  | classDecl c => exact .widen order (definition_seats order)
  | enumDecl n members s =>
    refine .widen order ?_
    rw [declaredFamily, enumNodes_eq]
    exact .of_flatMap rfl order.parts (fun _ part => part) fun _ _ _ _ order => enumNodes_seats order
  | declaration => exact .itself .variableDeclaration order
  | functionDecl f => exact .widen order (.of_part rfl .function List.mem_cons_self order.parts)
  | _ => exact .nil order.le

theorem elements_seats {ts : List Tree} (plain : t.isSwitch = false) (order : InOrder lo hi ts)
    (parts : ∀ u ∈ ts, u ∈ t.parts) :
    Seats proper t lo hi ((ts.flatMap elementNode).map fun c => (t.scopeNames, c)) :=
  .of_flatMap plain order parts fun _ _ _ _ order => elementNode_seats order

theorem call_seats {callee : Tree} {args : List Tree} (plain : t.isSwitch = false)
    (parts : t.parts = callee :: args) (order : InOrder lo hi t.parts) :
    Seats proper t lo hi ((.tree .expression callee :: args.flatMap elementNode).map
      fun c => (t.scopeNames, c)) := by
  rw [parts] at order
  obtain ⟨mid, first, second⟩ := order.of_cons
  exact (Seats.of_part plain .expression (parts ▸ List.mem_cons_self) first).append
    (elements_seats plain second fun _ member => parts ▸ List.mem_cons_of_mem _ member)

theorem expression_seats (order : InOrder lo hi [t]) :
    Seats (Node.tree .expression t).descends t t.span.start t.span.stop
      (Node.tree .expression t).family := by
  have parts := order.parts
  cases t with
  | array => exact elements_seats rfl parts fun _ part => part
  | object properties =>
    change Seats _ _ _ _ ((objectNodes properties).map _)
    rw [objectNodes_eq]
    exact .of_flatMap rfl parts (fun _ part => part) fun _ _ _ _ order => objectNodes_seats order
  | assign _ target value =>
    obtain ⟨mid, first, second⟩ := parts.of_cons
    change Seats _ _ _ _ ((target.writeNode ++ [_]).map _)
    rw [List.map_append]
    exact ((writeNode_seats first).lift_nodes rfl List.mem_cons_self).append
      (.of_part rfl .expression (List.mem_cons_of_mem _ List.mem_cons_self) second)
  | update target => exact (writeNode_seats parts).lift_nodes rfl List.mem_cons_self
  | arrow head params body =>
    obtain ⟨mid, first, second⟩ := parts.split
    change Seats _ _ _ _ ((parameterNodes params ++ [_]).map _)
    rw [List.map_append, parameterNodes_eq]
    have among : body ∈ params ++ [body] := List.mem_append_right _ List.mem_cons_self
    have last : Seats false body mid _ ([body.bodyNode].map fun c => ([], c)) := bodyNode_seats second
    exact (Seats.of_flatMap rfl first (fun _ part => List.mem_append_left _ part)
      fun _ _ _ _ order => patternNodes_seats order).append (last.lift_nodes rfl among)
  | function => exact .itself .function (order.tight rfl)
  | classDef => exact classFamily_seats order
  | call => exact call_seats rfl rfl parts
  | construct => exact call_seats rfl rfl parts
  | chain link => exact (chainNodes_seats parts).lift_nodes rfl List.mem_cons_self
  | importCall source options =>
    obtain ⟨mid, first, second⟩ := parts.of_cons
    exact (Seats.of_part rfl .expression List.mem_cons_self first).mono Nat.le.refl second.le
  | jsxElement => exact .itself .jsxElement (order.tight rfl)
  | jsxFragment children =>
    change Seats _ _ _ _ ((jsxNodesList children).map _)
    rw [jsxNodesList_eq]
    exact .of_flatMap rfl parts (fun _ part => part) fun _ _ _ _ order => jsxNodes_seats order
  | template | sequence | yield | await | binary | logical | conditional | unary | paren | member
  | index | privateMember | tagged | ascribe =>
    exact .of_parts rfl .expression parts fun _ part => part
  | _ => exact .nil order.start_le_stop

theorem branches_seats {value : Tree} {cases branches : List Tree} {s : Span}
    (order : InOrder lo hi branches) (among : ∀ u ∈ branches, u ∈ cases) :
    Seats proper (switch value cases s) lo hi
      (branches.map fun c => ((switch value cases s).scopeNames, .tree .switchCase c)) := by
  induction branches generalizing lo with
  | nil => exact .nil order.le
  | cons u branches ih =>
    obtain ⟨mid, first, rest⟩ := order.of_cons
    have reach : Reach (switch value cases s) _ u := .branch (among u List.mem_cons_self) .here
    rw [List.append_nil] at reach
    have smaller := size_lt_of_child (t := switch value cases s)
      (List.mem_cons_of_mem _ (among u List.mem_cons_self))
    exact .cons reach (fun _ => smaller) first
      (ih rest fun w member => among w (List.mem_cons_of_mem _ member))

theorem statement_seats (order : InOrder lo hi [t]) :
    Seats (Node.tree .statement t).descends t t.span.start t.span.stop
      (Node.tree .statement t).family := by
  have parts := order.parts
  cases t with
  | block => exact .of_parts rfl .statement parts fun _ part => part
  | expression | returns | throws => exact .of_parts rfl .expression parts fun _ part => part
  | labeled => exact .of_parts rfl .statement parts fun _ part => part
  | tryCatch => exact .of_parts rfl .block parts fun _ part => part
  | functionDecl => exact .of_parts rfl .function parts fun _ part => part
  | declaration => exact .itself .variableDeclaration (order.tight rfl)
  | classDecl c => exact definition_seats order
  | ifThen test yes no =>
    obtain ⟨a, first, rest⟩ := parts.of_cons
    obtain ⟨b, second, last⟩ := rest.of_cons
    refine .part_cons rfl List.mem_cons_self first (.part_cons rfl ?_ second ?_)
    · exact List.mem_cons_of_mem _ List.mem_cons_self
    · exact .of_parts rfl .statement last fun _ part =>
        List.mem_cons_of_mem _ (List.mem_cons_of_mem _ part)
  | whileLoop test body | withObject test body =>
    obtain ⟨mid, first, second⟩ := parts.of_cons
    exact .part_cons rfl List.mem_cons_self first
      (.of_part rfl .statement (List.mem_cons_of_mem _ List.mem_cons_self) second)
  | doWhile body test =>
    obtain ⟨mid, first, second⟩ := parts.of_cons
    exact .part_cons rfl List.mem_cons_self first
      (.of_part rfl .expression (List.mem_cons_of_mem _ List.mem_cons_self) second)
  | forLoop init test step body s =>
    obtain ⟨c, before, last⟩ := parts.split
    obtain ⟨b, before, third⟩ := before.split
    obtain ⟨a, first, second⟩ := before.split
    change Seats _ _ _ _ ((init.toList.flatMap _ ++ test.toList.map _ ++ step.toList.map _ ++ [_]).map _)
    rw [List.map_append, List.map_append, List.map_append]
    refine (((Seats.of_flatMap rfl first ?_ fun _ _ _ _ order => loopInitNodes_seats order).append
      (.of_parts rfl .expression second ?_)).append (.of_parts rfl .expression third ?_)).append
      (.of_part rfl .statement ?_ last)
    all_goals simp +contextual [Tree.parts, Tree.children]
  | forIn left right body | forOf left right body =>
    obtain ⟨a, first, rest⟩ := parts.of_cons
    obtain ⟨b, second, last⟩ := rest.of_cons
    change Seats _ _ _ _ ((left.loopTargetNodes ++ [_, _]).map _)
    rw [List.map_append]
    refine ((loopTargetNodes_seats first).lift_nodes rfl List.mem_cons_self).append
      (.part_cons rfl ?_ second (.of_part rfl .statement ?_ last))
    · exact List.mem_cons_of_mem _ List.mem_cons_self
    · exact List.mem_cons_of_mem _ (List.mem_cons_of_mem _ List.mem_cons_self)
  | switch value cases s =>
    obtain ⟨mid, first, rest⟩ := parts.of_cons
    have smaller := size_lt_of_child (t := switch value cases s) (u := value) List.mem_cons_self
    exact .cons (.subject .here) (fun _ => smaller) first
      (branches_seats rest fun _ member => member)
  | enumDecl n members s =>
    change Seats _ _ _ _ ((enumNodes members).map _)
    rw [enumNodes_eq]
    exact .of_flatMap rfl parts (fun _ part => part) fun _ _ _ _ order => enumNodes_seats order
  | exportNamed d =>
    cases d with
    | none => exact .nil parts.le
    | some d => exact (declaredFamily_seats parts).through rfl rfl List.mem_cons_self
  | exportDefault value =>
    cases value with
    | classDecl c =>
      exact (Seats.widen parts (definition_seats parts)).through rfl rfl List.mem_cons_self
    | functionDecl f =>
      exact (Seats.widen parts (.of_part rfl .function List.mem_cons_self parts.parts)).through rfl
        rfl List.mem_cons_self
    | typeDecl => exact .nil parts.le
    | _ => exact .of_parts rfl .expression parts fun _ part => part
  | _ => exact .nil order.start_le_stop

end Tree

/-- The children of a node stand in order in the span of the node. -/
theorem family_seats {role : Role} {t : Tree} {lo hi : Nat} (order : InOrder lo hi [t]) :
    Seats (Node.tree role t).descends t t.span.start t.span.stop (Node.tree role t).family := by
  have parts := order.parts
  cases role with
  | statement => exact Tree.statement_seats order
  | expression => exact Tree.expression_seats order
  | block =>
    cases t with
    | tryPart => exact .of_parts rfl .statement parts fun _ part => part
    | _ => exact .nil order.start_le_stop
  | function =>
    cases t with
    | function head params body =>
      obtain ⟨mid, first, second⟩ := parts.split
      change Seats _ _ _ _ ((Tree.parameterNodes params ++ body.toList.map _).map _)
      rw [List.map_append, Tree.parameterNodes_eq]
      exact (Seats.of_flatMap rfl first (fun _ part => List.mem_append_left _ part)
        fun _ _ _ _ order => Tree.patternNodes_seats order).append
        (.of_parts rfl .functionBody second fun _ part => List.mem_append_right _ part)
    | _ => exact .nil order.start_le_stop
  | functionBody =>
    cases t with
    | body => exact .of_parts rfl .statement parts fun _ part => part
    | _ => exact .nil order.start_le_stop
  | switchCase =>
    cases t with
    | switchCase test statements =>
      obtain ⟨mid, first, second⟩ := parts.split
      change Seats _ _ _ _ ((test.toList.map _ ++ statements.map _).map _)
      rw [List.map_append]
      exact (Seats.of_parts rfl .expression first fun _ part => List.mem_append_left _ part).append
        (.of_parts rfl .statement second fun _ part => List.mem_append_right _ part)
    | _ => exact .nil order.start_le_stop
  | variableDeclaration =>
    cases t with
    | declaration =>
      exact .of_flatMap rfl parts (fun _ part => part) fun _ _ _ _ order =>
        Tree.declaratorNodes_seats order
    | _ => exact .nil order.start_le_stop
  | objectProperty =>
    cases t with
    | property key computed value shorthand cover =>
      cases computed with
      | true =>
        obtain ⟨a, first, rest⟩ := parts.of_cons
        obtain ⟨b, second, last⟩ := rest.of_cons
        refine (Seats.part_cons rfl List.mem_cons_self first
          (.of_part rfl .expression ?_ second)).mono Nat.le.refl last.le
        exact List.mem_cons_of_mem _ List.mem_cons_self
      | false =>
        obtain ⟨mid, first, last⟩ := parts.of_cons
        exact (Seats.of_part rfl .expression List.mem_cons_self first).mono Nat.le.refl last.le
    | method key computed decorators f =>
      obtain ⟨b, before, last⟩ := parts.split
      obtain ⟨a, first, second⟩ := before.split
      have among : f ∈ decorators ++ (if computed then [key] else []) ++ [f] :=
        List.mem_append_right _ List.mem_cons_self
      cases computed with
      | true =>
        have keyed : key ∈ decorators ++ [key] ++ [f] :=
          List.mem_append_left _ (List.mem_append_right _ List.mem_cons_self)
        exact (Seats.part_cons rfl keyed second (.of_part rfl .expression among last)).mono first.le
          Nat.le.refl
      | false => exact (Seats.of_part rfl .expression among last).mono before.le Nat.le.refl
    | _ => exact .nil order.start_le_stop
  | writeTarget | chainMember =>
    cases t with
    | member | index | privateMember =>
      exact .of_parts rfl .expression parts fun _ part => part
    | _ => exact .nil order.start_le_stop
  | chainCall =>
    cases t with
    | call => exact Tree.call_seats rfl rfl parts
    | _ => exact .nil order.start_le_stop
  | jsxElement =>
    cases t with
    | jsxElement _ attributes _ children =>
      obtain ⟨mid, first, second⟩ := parts.split
      change Seats _ _ _ _ ((attributes.flatMap _ ++ jsxNodesList children).map _)
      rw [List.map_append, Tree.jsxNodesList_eq]
      exact (Seats.of_flatMap rfl first (fun _ part => List.mem_append_left _ part)
        fun _ _ _ _ order => Tree.attributeNodes_seats order).append
        (.of_flatMap rfl second (fun _ part => List.mem_append_right _ part)
          fun _ _ _ _ order => Tree.jsxNodes_seats order)
    | _ => exact .nil order.start_le_stop

end SourceRepair.Script
