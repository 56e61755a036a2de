import SourceRepair.Proofs.Guards.Children
import SourceRepair.Proofs.Script.Trail

/-!
# Names under guards

A guard declares no name and hides no declaration: the outline of a tree declares the names that the
tree declares, and hoists the names that it hoists.
-/

namespace SourceRepair.Script

open Repair (Guard around)

/-! ### Hoisted names -/

namespace Tree

/-- The names declared by `var` in the tree itself. -/
def varNames : Tree → List String
  | declaration .var ds _ => patternNames ds
  | _ => []

/-- The names declared by `var` in a tree. -/
def hoisted (t : Tree) : List String := t.hoistedNames t.size

theorem hoistedNames_succ (fuel : Nat) (t : Tree) :
    t.hoistedNames (fuel + 1) =
      t.varNames ++ if t.stopsHoisting then [] else t.children.flatMap (hoistedNames fuel) := by
  cases t with
  | declaration kind => cases kind <;> rfl
  | _ => rfl

theorem hoistedNames_eq {fuel : Nat} {t : Tree} (enough : t.size ≤ fuel) :
    t.hoistedNames fuel = t.hoisted := by
  induction t using Tree.rec_children generalizing fuel with
  | step t ih =>
    have size := size_eq t
    obtain ⟨fuel, rfl⟩ : ∃ n, fuel = n + 1 := ⟨fuel - 1, by omega⟩
    obtain ⟨rest, whole⟩ : ∃ n, t.size = n + 1 := ⟨t.size - 1, by omega⟩
    have children : t.children.flatMap (hoistedNames fuel) =
        t.children.flatMap (hoistedNames rest) := by
      refine congrArg List.flatten (List.map_congr_left fun u child => ?_)
      have smaller := size_lt_of_child child
      rw [ih u child (by omega), ih u child (by omega)]
    rw [hoisted, whole, hoistedNames_succ, hoistedNames_succ, children]

theorem hoisted_eq (t : Tree) :
    t.hoisted = t.varNames ++ if t.stopsHoisting then [] else t.children.flatMap hoisted := by
  obtain ⟨rest, whole⟩ : ∃ n, t.size = n + 1 := ⟨t.size - 1, by have := size_eq t; omega⟩
  have children : t.children.flatMap (hoistedNames rest) = t.children.flatMap hoisted := by
    refine congrArg List.flatten (List.map_congr_left fun u child => hoistedNames_eq ?_)
    have smaller := size_lt_of_child child
    omega
  rw [hoisted, whole, hoistedNames_succ, children]

end Tree

variable {gs : List Guard} {lo hi : Nat} {t : Tree}

/-! ### Names in patterns and statements -/

/-- What is nothing for loose trees is the same for a tree and its outline, if it is the same for
the tree and its inside. -/
theorem outline_of_vanishes {α : Type} {f : Tree → List α} (vanishes : ∀ t : Tree, t.loose → f t = [])
    (inside : f (t.inner gs) = f t) : f (t.outline gs) = f t := by
  rcases outline_or_loose gs t with same | ⟨loose, wrapped⟩
  · rw [same, inside]
  · rw [vanishes _ loose, vanishes _ wrapped]

theorem patternNames_cons (t : Tree) (ts : List Tree) :
    patternNames (t :: ts) = t.boundNames.map Name.text ++ patternNames ts :=
  List.map_append

mutual

theorem boundNames_outline (t : Tree) :
    (t.outline gs).boundNames.map Name.text = t.boundNames.map Name.text := by
  refine outline_of_vanishes (f := fun t => t.boundNames.map Name.text) (fun t loose => ?_) ?_
  · cases t <;> first | rfl | cases loose
  · cases t with
    | objectPattern properties => exact patternNames_outlines properties
    | arrayPattern elements => exact patternNames_outlines elements
    | patternProperty _ _ value => exact boundNames_outline value
    | withDefault left => exact boundNames_outline left
    | rest inner => exact boundNames_outline inner
    | param _ pattern => exact boundNames_outline pattern
    | declarator pattern => exact boundNames_outline pattern
    | _ => rfl

theorem patternNames_outlines (ts : List Tree) :
    patternNames (outlines gs ts) = patternNames ts := by
  cases ts with
  | nil => rfl
  | cons t ts =>
    change patternNames (t.outline gs :: outlines gs ts) = _
    rw [patternNames_cons, patternNames_cons, boundNames_outline t, patternNames_outlines ts]

end

theorem names_bare (o : Option Name) :
    (o.map Name.bare).toList.map Name.text = o.toList.map Name.text := by
  cases o <;> rfl

theorem functionNames_outline (t : Tree) :
    (Tree.functionDecl (t.outline gs)).valueNames = (Tree.functionDecl t).valueNames := by
  refine outline_of_vanishes (f := fun t => (Tree.functionDecl t).valueNames)
    (fun t loose => ?_) ?_
  · cases t <;> first | rfl | cases loose
  · cases t with
    | function head => exact names_bare head.name
    | _ => rfl

theorem classNames_outline (t : Tree) :
    (Tree.classDecl (t.outline gs)).valueNames = (Tree.classDecl t).valueNames := by
  refine outline_of_vanishes (f := fun t => (Tree.classDecl t).valueNames)
    (fun t loose => ?_) ?_
  · cases t <;> first | rfl | cases loose
  · cases t with
    | classDef n => exact names_bare n
    | _ => rfl

theorem importNames_bare (d : ImportDecl) :
    (Tree.importDecl d.bare).valueNames = (Tree.importDecl d).valueNames := by
  obtain ⟨source, sourceSpan, specifiers, isType, span⟩ := d
  cases specifiers with
  | none => rfl
  | some specifiers =>
    simp only [Tree.valueNames, ImportDecl.bare, Option.map_some, Option.getD_some,
      List.filterMap_map]
    congr 2
    funext specifier
    cases specifier <;> rfl

theorem valueNames_outline (t : Tree) : (t.outline gs).valueNames = t.valueNames := by
  induction t using Tree.rec_children with
  | step t ih =>
    refine outline_of_vanishes (fun t loose => ?_) ?_
    · cases t <;> first | rfl | cases loose
    · cases t with
      | declaration kind ds =>
        cases kind with
        | var => rfl
        | _ => exact patternNames_outlines ds
      | functionDecl f => exact functionNames_outline f
      | classDecl c => exact classNames_outline c
      | moduleDecl n => exact names_bare n
      | importDecl d => exact importNames_bare d
      | exportNamed d =>
        cases d with
        | none => rfl
        | some d => exact ih d List.mem_cons_self
      | exportDefault d => exact ih d List.mem_cons_self
      | labeled _ inner => exact ih inner List.mem_cons_self
      | _ => rfl

theorem listNames_outlines (ts : List Tree) :
    Tree.listNames (outlines gs ts) = Tree.listNames ts := by
  induction ts with
  | nil => rfl
  | cons t ts ih =>
    change (t.outline gs).valueNames ++ Tree.listNames (outlines gs ts) = _ ++ Tree.listNames ts
    rw [valueNames_outline, ih]

/-! ### Hoisted names of an outline -/

/-- What a chain is built around and what is written to have no guards around them; the other parts
of a tree do. -/
def Tree.isBuilt : Tree → Bool
  | .chain _ _ | .update _ _ | .assign _ _ _ _ => true
  | _ => false

theorem outlines_append (ts us : List Tree) :
    outlines gs ts ++ us.map (Tree.outline gs) = (ts ++ us).map (Tree.outline gs) := by
  rw [outlines_eq_map, List.map_append]

theorem parts_inner (t : Tree) (plain : t.isBuilt = false) :
    (t.inner gs).children = t.children.map (Tree.outline gs) := by
  cases t with
  | chain | update | assign => cases plain
  | template | array | object | sequence | staticBlock | objectPattern | arrayPattern | body | block
  | declaration | tryCatch | enumDecl | moduleDecl | jsxFragment => exact outlines_eq_map gs _
  | tagged | call | construct | switch => exact congrArg (_ :: ·) (outlines_eq_map gs _)
  | arrow _ ts t | param ts t => exact outlines_append ts [t]
  | jsxElement _ as _ cs =>
    change outlines gs as ++ outlines gs cs = List.map _ (as ++ cs)
    rw [outlines_eq_map gs cs, outlines_append]
  | function _ ts o =>
    cases o with
    | none => exact outlines_append ts []
    | some body => exact outlines_append ts [body]
  | switchCase o ts | tryPart _ o ts =>
    cases o with
    | none => exact outlines_eq_map gs ts
    | some => exact congrArg (_ :: ·) (outlines_eq_map gs ts)
  | classDef _ ds o ms =>
    change outlines gs ds ++ (outline? gs o).toList ++ outlines gs ms =
      List.map _ (ds ++ o.toList ++ ms)
    rw [outlines_eq_map gs ds, outlines_eq_map gs ms, List.map_append, List.map_append]
    cases o <;> rfl
  | method key _ ds f => exact outlines_append ds [key, f]
  | field key _ ds o =>
    cases o with
    | none => exact outlines_append ds [key]
    | some value => exact outlines_append ds [key, value]
  | forLoop o p q =>
    cases o <;> cases p <;> cases q <;> rfl
  | importCall _ o | declarator _ o | yield o | returns o | exportNamed o | enumMember _ o
  | jsxAttribute _ o | jsxContainer o | property _ _ _ _ o | ifThen _ _ o =>
    cases o <;> rfl
  | _ => rfl

/-- The default of a property hoists nothing. -/
def Tree.Quiet : Tree → Prop
  | .property _ _ _ _ (some cover) _ => cover.hoisted = []
  | _ => True

theorem hoisted_choose (g : Guard) (e : Tree) : (g.choose e).hoisted = e.hoisted := by
  rw [Tree.hoisted_eq]
  change [] ++ ((Tree.conditional g.test e (.identifier "undefined" nowhere) nowhere).hoisted ++ []) = _
  rw [Tree.hoisted_eq]
  change [] ++ (([] ++ (g.test.hoisted ++ (e.hoisted ++ ([] ++ [])))) ++ []) = _
  have quiet : g.test.hoisted = [] := rfl
  simp only [quiet, List.nil_append, List.append_nil]

theorem hoisted_test (g : Guard) (t : Tree) :
    (Tree.ifThen g.test (.block [t] nowhere) none nowhere).hoisted = t.hoisted := by
  rw [Tree.hoisted_eq]
  change [] ++ (g.test.hoisted ++ ((Tree.block [t] nowhere).hoisted ++ [])) = _
  rw [Tree.hoisted_eq (.block _ _)]
  change [] ++ (g.test.hoisted ++ (([] ++ (t.hoisted ++ [])) ++ [])) = _
  have quiet : g.test.hoisted = [] := rfl
  simp only [quiet, List.nil_append, List.append_nil]

theorem hoisted_put (g : Guard) {u : Tree} (quiet : u.Quiet) :
    (g.put u).hoisted = u.hoisted ∧ (g.put u).Quiet := by
  unfold Guard.put
  cases g.kind with
  | statement => exact ⟨hoisted_test g u, trivial⟩
  | expression => exact ⟨hoisted_choose g u, trivial⟩
  | shorthand =>
    cases u with
    | property key computed value shorthand cover span =>
      refine ⟨?_, trivial⟩
      rw [Tree.hoisted_eq, Tree.hoisted_eq (.property ..)]
      change [] ++ (key.hoisted ++ ((g.choose value).hoisted ++ [])) =
        [] ++ (key.hoisted ++ (value.hoisted ++ cover.toList.flatMap Tree.hoisted))
      have none : cover.toList.flatMap Tree.hoisted = [] := by
        cases cover with
        | none => rfl
        | some cover => exact (List.append_nil _).trans quiet
      rw [hoisted_choose, none]
    | _ => exact ⟨rfl, quiet⟩

theorem hoisted_around {hs : List Guard} {u : Tree} (quiet : u.Quiet) :
    (hs.foldr Guard.put u).hoisted = u.hoisted := by
  have both : (hs.foldr Guard.put u).hoisted = u.hoisted ∧ (hs.foldr Guard.put u).Quiet := by
    induction hs with
    | nil => exact ⟨rfl, quiet⟩
    | cons g hs ih =>
      have step := hoisted_put g ih.2
      exact ⟨step.1.trans ih.1, step.2⟩
  exact both.1

theorem varNames_inner (t : Tree) : (t.inner gs).varNames = t.varNames := by
  cases t with
  | declaration kind ds =>
    cases kind with
    | var => exact patternNames_outlines ds
    | _ => rfl
  | _ => rfl

theorem stopsHoisting_inner (t : Tree) : (t.inner gs).stopsHoisting = t.stopsHoisting := by
  cases t <;> rfl

theorem children_hoisted
    (each : ∀ u ∈ t.children,
      (u.inner gs).hoisted = u.hoisted ∧ (u.outline gs).hoisted = u.hoisted) :
    (t.inner gs).children.flatMap Tree.hoisted = t.children.flatMap Tree.hoisted := by
  cases built : t.isBuilt with
  | false =>
    rw [parts_inner t built, List.flatMap_map]
    exact congrArg List.flatten (List.map_congr_left fun u child => (each u child).2)
  | true =>
    cases t with
    | chain inner | update inner =>
      exact congrArg (· ++ []) (each inner List.mem_cons_self).1
    | assign _ target value =>
      change (target.inner gs).hoisted ++ ((value.outline gs).hoisted ++ []) =
        target.hoisted ++ (value.hoisted ++ [])
      rw [(each target List.mem_cons_self).1,
        (each value (List.mem_cons_of_mem _ List.mem_cons_self)).2]
    | _ => cases built

/-- The outline of a tree hoists what the tree hoists. -/
theorem hoisted_outline (order : InOrder lo hi [t]) :
    (t.inner gs).hoisted = t.hoisted ∧ (t.outline gs).hoisted = t.hoisted := by
  induction t using Tree.rec_children generalizing lo hi with
  | step t ih =>
    have each : ∀ u ∈ t.children,
        (u.inner gs).hoisted = u.hoisted ∧ (u.outline gs).hoisted = u.hoisted := by
      intro u child
      rcases mem_children_iff.mp child with key | front | part
      · have isKey := isKey_of_plainKey order key
        cases u with
        | name | privateName | string | literal =>
          rw [outline_of_not_loose gs rfl]
          exact ⟨rfl, rfl⟩
        | _ => cases isKey
      · cases order with
        | cons _ _ inFront =>
          obtain ⟨a, b, -, -, itself⟩ := inFront.of_mem front
          exact ih u child itself
      · obtain ⟨a, b, -, -, itself⟩ := order.parts.of_mem part
        exact ih u child itself
    have inside : (t.inner gs).hoisted = t.hoisted := by
      rw [Tree.hoisted_eq, Tree.hoisted_eq t, varNames_inner, stopsHoisting_inner,
        children_hoisted each]
    refine ⟨inside, ?_⟩
    have quiet : (t.inner gs).Quiet := by
      have sound := order.sound
      cases t with
      | property key computed value shorthand cover =>
        cases cover with
        | none => trivial
        | some cover =>
          have child : cover ∈ [key, value] ++ [cover] :=
            List.mem_append_right _ List.mem_cons_self
          exact (each cover child).2.trans (sound.2.2 cover rfl)
      | _ => trivial
    unfold Tree.outline around
    rw [hoisted_around quiet, inside]

theorem bodyNames_outlines {ts : List Tree} (order : InOrder lo hi ts) :
    Tree.bodyNames (outlines gs ts) = Tree.bodyNames ts := by
  have hoisted : (outlines gs ts).flatMap Tree.hoisted = ts.flatMap Tree.hoisted := by
    rw [outlines_eq_map, List.flatMap_map]
    refine congrArg List.flatten (List.map_congr_left fun t member => ?_)
    obtain ⟨a, b, -, -, itself⟩ := order.of_mem member
    exact (hoisted_outline itself).2
  change Tree.listNames _ ++ (outlines gs ts).flatMap Tree.hoisted =
    Tree.listNames ts ++ ts.flatMap Tree.hoisted
  rw [listNames_outlines, hoisted]

/-! ### Scopes of an outline -/

/-- The names that the body of a function declares. -/
def Tree.ownNames : Tree → List String
  | .body _ statements _ => bodyNames statements
  | _ => []

theorem ownNames_outline (order : InOrder lo hi [t]) :
    (t.outline gs).ownNames = t.ownNames := by
  refine outline_of_vanishes (fun t loose => ?_) ?_
  · cases t <;> first | rfl | cases loose
  · cases t with
    | body => exact bodyNames_outlines order.parts
    | _ => rfl

theorem function_scopeNames (head : FuncHead) (params : List Tree) (body : Option Tree) :
    (Tree.function head params body).scopeNames =
      head.name.toList.map Name.text ++ patternNames params ++ (body.map Tree.ownNames).getD [] := by
  cases body with
  | none => rfl
  | some body => cases body <;> rfl

theorem arrow_scopeNames (head : FuncHead) (params : List Tree) (body : Tree) :
    (Tree.arrow head params body).scopeNames = patternNames params ++ body.ownNames := by
  cases body <;> rfl

/-- The names that the statements of a case declare. -/
def Tree.caseNames : Tree → List String
  | .switchCase _ statements _ => listNames statements
  | _ => []

theorem switch_scopeNames (value : Tree) (cases : List Tree) (span : Span) :
    (Tree.switch value cases span).scopeNames = cases.flatMap Tree.caseNames := by
  cases found : cases.getLast? with
  | none =>
    rw [List.getLast?_eq_none_iff.mp found]
    rfl
  | some last =>
    cases cases with
    | nil => cases found
    | cons c cs =>
      have range : Tree.rangeOf (c :: cs) = some ⟨c.span.start, last.span.stop⟩ := by
        rw [Tree.rangeOf, found]
        rfl
      rw [Tree.scopeNames, Tree.scope?, range]
      refine congrArg List.flatten (List.map_congr_left fun t _ => ?_)
      cases t <;> rfl

theorem caseNames_outlines (cases : List Tree) :
    (outlines gs cases).flatMap Tree.caseNames = cases.flatMap Tree.caseNames := by
  rw [outlines_eq_map, List.flatMap_map]
  refine congrArg List.flatten (List.map_congr_left fun c _ => ?_)
  refine outline_of_vanishes (fun t loose => ?_) ?_
  · cases t <;> first | rfl | cases loose
  · cases c with
    | switchCase _ statements => exact listNames_outlines statements
    | _ => rfl

def Tree.memberName? : Tree → Option String
  | .enumMember text _ _ => some text
  | _ => none

theorem enum_scopeNames (n : Name) (members : List Tree) (span : Span) :
    (Tree.enumDecl n members span).scopeNames = members.filterMap Tree.memberName? := by
  change members.filterMap _ = _
  congr 1

theorem memberName?_outline (t : Tree) : (t.outline gs).memberName? = t.memberName? := by
  rcases outline_or_loose gs t with same | ⟨loose, wrapped⟩
  · rw [same]
    cases t <;> rfl
  · have vanishes : ∀ u : Tree, u.loose → u.memberName? = none := by
      intro u loose
      cases u <;> first | rfl | cases loose
    rw [vanishes _ loose, vanishes _ wrapped]

theorem memberNames_outlines (members : List Tree) :
    (outlines gs members).filterMap Tree.memberName? = members.filterMap Tree.memberName? := by
  rw [outlines_eq_map, List.filterMap_map]
  exact congrArg (List.filterMap · members) (funext memberName?_outline)

theorem scopeNames_inner (order : InOrder lo hi [t]) :
    (t.inner gs).scopeNames = t.scopeNames := by
  cases t with
  | function head params body =>
    change (Tree.function head.bare (outlines gs params) (outline? gs body)).scopeNames = _
    rw [function_scopeNames, function_scopeNames, patternNames_outlines]
    change (head.name.map Name.bare).toList.map _ ++ _ ++ _ = _
    rw [names_bare]
    cases body with
    | none => rfl
    | some body =>
      obtain ⟨a, b, -, -, itself⟩ := order.parts.of_mem
        (List.mem_append_right params List.mem_cons_self)
      exact congrArg (_ ++ ·) (ownNames_outline itself)
  | arrow head params body =>
    change (Tree.arrow head.bare (outlines gs params) (body.outline gs)).scopeNames = _
    obtain ⟨a, b, -, -, itself⟩ := order.parts.of_mem
      (List.mem_append_right params List.mem_cons_self)
    rw [arrow_scopeNames, arrow_scopeNames, patternNames_outlines, ownNames_outline itself]
  | classDef n => exact names_bare n
  | staticBlock | moduleDecl => exact bodyNames_outlines order.parts
  | block statements => exact listNames_outlines statements
  | tryPart _ caught statements =>
    have names : patternNames (outline? gs caught).toList = patternNames caught.toList := by
      cases caught with
      | none => rfl
      | some caught => exact patternNames_outlines [caught]
    change patternNames (outline? gs caught).toList ++ Tree.listNames (outlines gs statements) = _
    rw [names, listNames_outlines]
    rfl
  | forLoop init =>
    cases init with
    | none => rfl
    | some init => exact valueNames_outline init
  | forIn left | forOf left => exact valueNames_outline left
  | switch value cases =>
    change (Tree.switch _ (outlines gs cases) nowhere).scopeNames = _
    rw [switch_scopeNames, switch_scopeNames, caseNames_outlines]
  | enumDecl n members =>
    change (Tree.enumDecl _ (outlines gs members) nowhere).scopeNames = _
    rw [enum_scopeNames, enum_scopeNames, memberNames_outlines]
  | _ => rfl

theorem scopeNames_outline (order : InOrder lo hi [t]) :
    (t.outline gs).scopeNames = t.scopeNames := by
  refine outline_of_vanishes (fun t loose => ?_) (scopeNames_inner order)
  cases t <;> first | rfl | cases loose

/-! ### Names for the children of a node -/

theorem paired_names (names : List String) (cs : List Node) :
    (cs.map fun c => (names, c)).map Prod.fst = List.replicate cs.length names := by
  rw [List.map_map]
  exact List.map_const'

/-- Equally many nodes with equal names. -/
theorem paired_inner {names names' : List String} {cs ds : List Node} (same : names = names')
    (nodes : cs = ds.map (Node.outline gs)) :
    (cs.map fun c => (names, c)).map Prod.fst = (ds.map fun c => (names', c)).map Prod.fst := by
  rw [paired_names, paired_names, same, nodes, List.length_map]

/-- The nodes in a class that declares some names for them. -/
def classPairs (own : List String) (superClass : Option Tree) (members : List Tree) :
    List (List String × Node) :=
  superClass.toList.map (fun e => (own, Node.tree .expression e)) ++
    members.flatMap fun m => m.classMemberNodes.map fun c => (own ++ m.scopeNames, c)

theorem classPairs_outlines (own : List String) (superClass : Option Tree) {members : List Tree}
    (order : InOrder lo hi members) :
    (classPairs own (outline? gs superClass) (outlines gs members)).map Prod.fst =
      (classPairs own superClass members).map Prod.fst := by
  unfold classPairs
  rw [List.map_append, List.map_append, List.map_flatMap, List.map_flatMap, outlines_eq_map,
    List.flatMap_map]
  congr 1
  · cases superClass <;> rfl
  · refine congrArg List.flatten (List.map_congr_left fun m member => ?_)
    obtain ⟨a, b, -, -, itself⟩ := order.of_mem member
    exact paired_inner (congrArg (own ++ ·) (scopeNames_outline itself))
      (Tree.classMemberNodes_outline gs m)

theorem classFamily_outline (order : InOrder lo hi [t]) :
    (t.outline gs).classFamily.map Prod.fst = t.classFamily.map Prod.fst := by
  refine outline_of_vanishes (f := fun t => t.classFamily.map Prod.fst) (fun t loose => ?_) ?_
  · cases t <;> first | rfl | cases loose
  · have names : (t.inner gs).scopeNames = t.scopeNames := scopeNames_inner order
    have parts := order.parts
    cases t with
    | classDef n ds superClass members s =>
      obtain ⟨mid, -, inMembers⟩ := parts.split
      exact (congrArg (fun own => (classPairs own _ _).map Prod.fst) names).trans
        (classPairs_outlines _ superClass inMembers)
    | _ => rfl

theorem declaredFamily_outline (order : InOrder lo hi [t]) :
    (t.outline gs).declaredFamily.map Prod.fst = t.declaredFamily.map Prod.fst := by
  refine outline_of_vanishes (f := fun t => t.declaredFamily.map Prod.fst) (fun t loose => ?_) ?_
  · cases t <;> first | rfl | cases loose
  · have names : (t.inner gs).scopeNames = t.scopeNames := scopeNames_inner order
    cases t with
    | classDecl c =>
      cases order with
      | cons _ _ front => exact classFamily_outline front
    | enumDecl n members s => exact paired_inner names (Tree.enumNodes_outlines gs members)
    | _ => rfl

theorem exportedFamily_inner {value : Tree} {s : Span}
    (order : InOrder lo hi [.exportDefault value s]) :
    ((Node.tree .statement (.exportDefault value s)).inner gs).family.map Prod.fst =
      (Node.tree .statement (.exportDefault value s)).family.map Prod.fst := by
  have nodes := children_inner gs (.tree .statement (.exportDefault value s))
  rcases outline_or_loose gs value with same | ⟨loose, wrapped⟩
  · cases value with
    | classDecl c =>
      have front : ∃ lo hi, InOrder lo hi [c] := by
        cases order.parts with
        | cons _ _ front => exact ⟨_, _, front⟩
      obtain ⟨a, b, inside⟩ := front
      change (Node.tree .statement (.exportDefault (Tree.outline gs (.classDecl c))
        nowhere)).family.map _ = _
      rw [same]
      exact classFamily_outline inside
    | _ =>
      change (Node.tree .statement (.exportDefault (Tree.outline gs _)
        nowhere)).family.map _ = _
      change (Node.tree .statement (.exportDefault (Tree.outline gs _)
        nowhere)).children = _ at nodes
      rw [same] at nodes ⊢
      exact paired_inner rfl nodes
  · -- Neither the value nor its outline is a class, so nothing is declared.
    have plain : ∀ (u : Tree) (s : Span), u.loose →
        (Node.tree .statement (.exportDefault u s)).family =
          (Node.tree .statement (.exportDefault u s)).children.map fun c => ([], c) := by
      intro u s loose
      cases u <;> first | rfl | cases loose
    change (Node.tree .statement (.exportDefault (value.outline gs) nowhere)).family.map _ = _
    rw [plain _ _ wrapped, plain _ _ loose]
    exact paired_inner rfl nodes

theorem family_inner {n : Node} (laid : n.Laid) :
    (n.inner gs).family.map Prod.fst = n.family.map Prod.fst := by
  cases n with
  | program p =>
    have paired : ∀ q : Program, (Node.program q).family =
        (Node.program q).children.map fun c => (Tree.bodyNames q.body, c) := fun q => by
      rw [Node.children, List.map_map]
      rfl
    rw [Node.inner, paired, paired]
    exact paired_inner (bodyNames_outlines laid) (children_inner gs (.program p))
  | tree role t =>
    obtain ⟨lo, hi, order⟩ := laid
    have names : (t.inner gs).scopeNames = t.scopeNames := scopeNames_inner order
    have nodes := children_inner gs (.tree role t)
    cases role with
    | statement =>
      cases t with
      | switch value cases s =>
        have paired : ∀ (names : List String) (cs : List Tree),
            (cs.map fun c => (names, Node.tree .switchCase c)) =
              (cs.map (Node.tree .switchCase)).map fun c => (names, c) := fun names cs => by
          rw [List.map_map]
          rfl
        change [] :: ((outlines gs cases).map _).map Prod.fst = [] :: (cases.map _).map Prod.fst
        have nodes : (outlines gs cases).map (Node.tree .switchCase) =
            (cases.map (Node.tree .switchCase)).map (Node.outline gs) :=
          map_outlines gs (fun _ => rfl) cases
        rw [paired, paired]
        exact congrArg ([] :: ·) (paired_inner names nodes)
      | classDecl c =>
        cases order with
        | cons _ _ front => exact classFamily_outline front
      | exportNamed d =>
        cases d with
        | none => rfl
        | some d => exact declaredFamily_outline order.parts
      | exportDefault value s =>
        exact exportedFamily_inner order
      | _ => exact paired_inner names nodes
    | expression =>
      cases t with
      | classDef n ds p ms s =>
        have whole : (Tree.outline gs (.classDef n ds p ms s)).classFamily.map Prod.fst = _ :=
          classFamily_outline order
        rwa [outline_of_not_loose gs rfl] at whole
      | function => rfl
      | _ => exact paired_inner names nodes
    | _ => exact paired_inner names nodes

/-- A node of the outline declares the names that the node of the program declares. -/
theorem declares_inner {n : Node} (laid : n.Laid) (name : String) (k : Nat) :
    Turn.declares name (n.inner gs, k) = Turn.declares name (n, k) := by
  have by_names : ∀ m : Node, Turn.declares name (m, k) =
      ((m.family.map Prod.fst)[k]?).any (·.contains name) := by
    intro m
    rw [List.getElem?_map, Option.any_map]
    rfl
  rw [by_names, by_names, family_inner laid]

end SourceRepair.Script
