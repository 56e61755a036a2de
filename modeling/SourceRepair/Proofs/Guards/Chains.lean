import SourceRepair.Proofs.Guards.Shields

/-!
# Guards for chains

A use of a global that nothing protects is followed up the chain of members and calls that it
starts. The guard for it goes around a node on the trail to the use: the statement or the property
that the chain makes up, a write to the chain, or the chain itself when no `typeof` is above it.
-/

namespace SourceRepair

namespace Script

/-! ### Where chains and writes are entered -/

/-- The node is neither written to nor what a chain is built around. -/
def Node.isPlain : Node → Bool
  | tree .writeTarget _ | tree .chainMember _ | tree .chainCall _ => false
  | _ => true

namespace Tree

theorem plain_map {role : Role} (plain : ∀ t, (Node.tree role t).isPlain) (ts : List Tree) :
    (ts.map (Node.tree role)).all Node.isPlain := by
  rw [List.all_map]
  exact List.all_eq_true.mpr fun t _ => plain t

theorem plain_flatMap {f : Tree → List Node} {ts : List Tree}
    (plain : ∀ t ∈ ts, (f t).all Node.isPlain) : (ts.flatMap f).all Node.isPlain := by
  rw [List.all_flatMap]
  exact List.all_eq_true.mpr plain

theorem plain_append {cs ds : List Node} (first : cs.all Node.isPlain)
    (second : ds.all Node.isPlain) : (cs ++ ds).all Node.isPlain := by
  rw [List.all_append, first, second]
  rfl

theorem plain_cons {c : Node} {cs : List Node} (first : c.isPlain) (rest : cs.all Node.isPlain) :
    (c :: cs).all Node.isPlain :=
  plain_append (List.all_eq_true.mpr fun _ member => by rwa [List.mem_singleton.mp member]) rest

theorem classNodes_plain (t : Tree) : t.classNodes.all Node.isPlain := by
  cases t with
  | classDef _ _ superClass members =>
    refine plain_append (plain_map (fun _ => rfl) _) (plain_flatMap fun m _ => ?_)
    cases m with
    | field _ _ _ value => cases value <;> rfl
    | staticBlock => exact plain_map (fun _ => rfl) _
    | _ => rfl
  | _ => rfl

theorem enumNodes_plain (members : List Tree) : (enumNodes members).all Node.isPlain := by
  refine plain_flatMap fun m _ => ?_
  cases m with
  | enumMember _ init => cases init <;> rfl
  | _ => rfl

theorem declarationNodes_plain (t : Tree) : t.declarationNodes.all Node.isPlain := by
  cases t with
  | classDecl c => exact classNodes_plain c
  | enumDecl _ members => exact enumNodes_plain members
  | _ => rfl

theorem elements_plain (elements : List Tree) :
    (elements.flatMap elementNode).all Node.isPlain := by
  refine plain_flatMap fun t _ => ?_
  cases t <;> rfl

theorem parameterNodes_plain (params : List Tree) :
    (parameterNodes params).all Node.isPlain :=
  plain_map (fun _ => rfl) _

theorem jsxNodes_plain (t : Tree) : t.jsxNodes.all Node.isPlain := by
  induction t using Tree.rec_children with
  | step t ih =>
    cases t with
    | jsxFragment children =>
      rw [jsxNodes, jsxNodesList_eq]
      exact plain_flatMap ih
    | jsxContainer inner => cases inner <;> rfl
    | _ => rfl

theorem jsxNodesList_plain (ts : List Tree) : (jsxNodesList ts).all Node.isPlain := by
  rw [jsxNodesList_eq]
  exact plain_flatMap fun t _ => jsxNodes_plain t

theorem memberNodes_plain (t : Tree) : t.memberNodes.all Node.isPlain := by
  cases t <;> rfl

theorem propertyNodes_plain (t : Tree) : t.propertyNodes.all Node.isPlain := by
  cases t with
  | property _ computed | method _ computed => cases computed <;> rfl
  | _ => rfl

theorem statementNodes_plain (t : Tree) : t.statementNodes.all Node.isPlain := by
  cases t with
  | block | returns | tryCatch => exact plain_map (fun _ => rfl) _
  | ifThen | switch =>
    refine List.all_eq_true.mpr fun c member => ?_
    simp only [statementNodes, List.cons_append, List.nil_append, List.mem_cons,
      List.mem_map] at member
    grind [Node.isPlain]
  | classDecl c => exact classNodes_plain c
  | enumDecl _ members => exact enumNodes_plain members
  | forLoop init =>
    refine plain_append (plain_append (plain_append (plain_flatMap fun t _ => ?_) ?_) ?_) rfl
    · cases t <;> rfl
    · exact plain_map (fun _ => rfl) _
    · exact plain_map (fun _ => rfl) _
  | forIn left | forOf left =>
    refine plain_append ?_ rfl
    cases left <;> rfl
  | exportNamed => exact plain_flatMap fun d _ => declarationNodes_plain d
  | exportDefault value =>
    cases value with
    | classDecl c => exact classNodes_plain c
    | _ => rfl
  | _ => rfl

theorem plain_or_of_all {cs : List Node} {c : Node} {q : Prop} (child : c ∈ cs)
    (plain : cs.all Node.isPlain) : c.isPlain ∨ q :=
  .inl (List.all_eq_true.mp plain c child)

theorem of_mem_writeNode {t : Tree} {c : Node} (member : c ∈ t.writeNode) :
    ∃ u, c = .tree .writeTarget u := by
  cases t with
  | member | index | privateMember => exact ⟨_, List.mem_singleton.mp member⟩
  | _ => cases member

/-- What is written to is the child of a write, and what a chain is built around that of the
chain. -/
theorem of_mem_expressionNodes {t : Tree} {c : Node} (child : c ∈ t.expressionNodes) :
    c.isPlain ∨ (t.writes ∧ ∃ u, c = .tree .writeTarget u) ∨ ∃ link span, t = .chain link span := by
  cases t with
  | chain link span => exact .inr (.inr ⟨link, span, rfl⟩)
  | update target => exact .inr (.inl ⟨rfl, of_mem_writeNode child⟩)
  | assign _ target value =>
    rcases List.mem_append.mp child with child | child
    · exact .inr (.inl ⟨rfl, of_mem_writeNode child⟩)
    · rw [List.mem_singleton.mp child]
      exact .inl rfl
  | array elements => exact plain_or_of_all child (elements_plain elements)
  | object properties =>
    refine plain_or_of_all child (plain_flatMap fun t _ => ?_)
    cases t <;> rfl
  | arrow _ params body =>
    refine plain_or_of_all child (plain_append (parameterNodes_plain params) ?_)
    cases body <;> rfl
  | classDef n ds p ms s => exact plain_or_of_all child (classNodes_plain (.classDef n ds p ms s))
  | yield => exact plain_or_of_all child (plain_map (fun _ => rfl) _)
  | sequence | template => exact plain_or_of_all child (plain_map (fun _ => rfl) _)
  | tagged tag parts => exact plain_or_of_all child (plain_map (fun _ => rfl) (tag :: parts))
  | call _ args | construct _ args => exact plain_or_of_all child (plain_cons rfl (elements_plain args))
  | jsxFragment children => exact plain_or_of_all child (jsxNodesList_plain children)
  | _ => exact plain_or_of_all child rfl

end Tree

theorem of_mem_children {n c : Node} (child : c ∈ n.children) :
    c.isPlain ∨
      ∃ t, n = .tree .expression t ∧
        ((t.writes ∧ ∃ u, c = .tree .writeTarget u) ∨ ∃ link span, t = .chain link span) := by
  cases n with
  | program => exact Tree.plain_or_of_all child (Tree.plain_map (fun _ => rfl) _)
  | tree role t =>
    cases role with
    | statement => exact Tree.plain_or_of_all child (Tree.statementNodes_plain t)
    | expression => exact (Tree.of_mem_expressionNodes child).imp id fun special => ⟨t, rfl, special⟩
    | objectProperty => exact Tree.plain_or_of_all child (Tree.propertyNodes_plain t)
    | writeTarget | chainMember => exact Tree.plain_or_of_all child (Tree.memberNodes_plain t)
    | block =>
      cases t with
      | tryPart => exact Tree.plain_or_of_all child (Tree.plain_map (fun _ => rfl) _)
      | _ => cases child
    | functionBody =>
      cases t with
      | body => exact Tree.plain_or_of_all child (Tree.plain_map (fun _ => rfl) _)
      | _ => cases child
    | function =>
      cases t with
      | function _ params =>
        exact Tree.plain_or_of_all child (Tree.plain_append (Tree.parameterNodes_plain params)
          (Tree.plain_map (fun _ => rfl) _))
      | _ => cases child
    | switchCase =>
      cases t with
      | switchCase =>
        exact Tree.plain_or_of_all child (Tree.plain_append (Tree.plain_map (fun _ => rfl) _)
          (Tree.plain_map (fun _ => rfl) _))
      | _ => cases child
    | variableDeclaration =>
      cases t with
      | declaration =>
        refine Tree.plain_or_of_all child (Tree.plain_flatMap fun d _ => ?_)
        cases d with
        | declarator =>
          exact Tree.plain_append (Tree.plain_map (fun _ => rfl) _) (Tree.plain_map (fun _ => rfl) _)
        | _ => rfl
      | _ => cases child
    | chainCall =>
      cases t with
      | call _ args => exact Tree.plain_or_of_all child (Tree.plain_cons rfl (Tree.elements_plain args))
      | _ => cases child
    | jsxElement =>
      cases t with
      | jsxElement _ attributes _ children =>
        refine Tree.plain_or_of_all child (Tree.plain_append (Tree.plain_flatMap fun a _ => ?_)
          (Tree.jsxNodesList_plain children))
        cases a with
        | jsxAttribute _ value =>
          cases value with
          | none => rfl
          | some value =>
            cases value with
            | string => rfl
            | _ => exact Tree.jsxNodes_plain _
        | _ => rfl
      | _ => cases child

end Script

namespace Repair

open Script

variable {p : Program} {n m r : Node} {k : Nat} {turns above : List Turn} {root : String}
  {g : Guard}

/-- What a chain is built around belongs to the chain. -/
theorem carries_of_not_plain (child : m.children[k]? = some n) (inner : n.isPlain = false)
    (read : ∀ u, n ≠ .tree .writeTarget u) : carries (m, k) := by
  rcases of_mem_children (List.mem_of_getElem? child) with plain | ⟨t, rfl, write | ⟨l, s, rfl⟩⟩
  · rw [plain] at inner
    cases inner
  · obtain ⟨-, u, same⟩ := write
    exact absurd same (read u)
  · rfl

theorem writes_of_target {u : Tree} (child : m.children[k]? = some (.tree .writeTarget u)) :
    ∃ t, m = .tree .expression t ∧ t.writes := by
  rcases of_mem_children (List.mem_of_getElem? child) with plain | ⟨t, rfl, ⟨writes, -⟩ | special⟩
  · cases plain
  · exact ⟨t, rfl, writes⟩
  · obtain ⟨l, s, rfl⟩ := special
    -- A chain is built around a link, never around a target.
    exfalso
    cases l with
    | call | ascribe | member | index | privateMember =>
      cases List.mem_singleton.mp (List.mem_of_getElem? child)
    | _ => cases child

/-! ### Up the chain -/

/-- The name that the chain of a node starts from. -/
def rootOf? : Node → Option String
  | .program _ => none
  | .tree _ t => t.root?

/-- The node is read as a part of an expression. -/
def isRead : Node → Bool
  | .tree .expression _ | .tree .chainMember _ | .tree .chainCall _ => true
  | _ => false

theorem isRead_of_carries (goesOn : carries (m, k)) : isRead m := by
  cases m with
  | program => cases goesOn
  | tree role t =>
    cases role with
    | expression | chainMember | chainCall => rfl
    | _ => cases goesOn

theorem root_of_carries (child : m.children[k]? = some n) (goesOn : carries (m, k)) :
    rootOf? m = rootOf? n := by
  cases m with
  | program => cases goesOn
  | tree role t =>
    cases role with
    | expression =>
      cases t with
      | member | index | privateMember | call | paren =>
        cases eq_of_beq goesOn
        cases child
        rfl
      | ascribe kind =>
        cases kind with
        | nonNull =>
          cases eq_of_beq goesOn
          cases child
          rfl
        | _ => cases goesOn
      | chain link =>
        cases link with
        | call | ascribe | member | index | privateMember =>
          cases List.mem_singleton.mp (List.mem_of_getElem? child)
          rfl
        | _ => cases child
      | _ => cases goesOn
    | chainMember =>
      cases t with
      | member | index | privateMember =>
        cases eq_of_beq goesOn
        cases child
        rfl
      | _ => cases goesOn
    | chainCall =>
      cases t with
      | call =>
        cases eq_of_beq goesOn
        cases child
        rfl
      | _ => cases goesOn
    | _ => cases goesOn

/-- What following a chain upward comes to: a target that is written to, or the whole chain. -/
inductive Topped (root : String) (turns : List Turn) : Node → List Turn → Bool → Prop
  | write {u : Tree} {above : List Turn} (apart : underTypeof turns = false) :
    Topped root turns (.tree .writeTarget u) above true
  | read {t : Tree} {above : List Turn} (chain : t.root? = some root)
    (operand : underTypeof turns = isOperandOf .typeof (passed above))
    (same : underTypeof above = underTypeof turns) :
    Topped root turns (.tree .expression t) above false

theorem chainTop_spec (trail : Trail p n turns) (chain : rootOf? n = some root)
    (read : isRead n) :
    ∃ r above w, chainTop n turns = (r, above, w) ∧ Trail p r above ∧ Leads r above n turns ∧
      Topped root turns r above w := by
  induction trail with
  | root => cases chain
  | @step n c turns k trail child ih =>
    rw [chainTop]
    cases goesOn : carries (n, k) with
    | true =>
      obtain ⟨r, above, w, top, higher, leads, topped⟩ :=
        ih (by rw [root_of_carries child goesOn, chain]) (isRead_of_carries goesOn)
      refine ⟨r, above, w, by rw [← top]; rfl, higher, leads.step child, ?_⟩
      have same : underTypeof ((n, k) :: turns) = underTypeof turns := by
        rw [underTypeof, goesOn]
        rfl
      cases topped with
      | write apart => exact .write (by rw [same, apart])
      | read chain operand above => exact .read chain (by rw [same, operand]) (by rw [same, above])
    | false =>
      have stops : underTypeof ((n, k) :: turns) = isTypeof n := by
        rw [underTypeof, goesOn]
        rfl
      cases written : assigns (n, k) with
      | true =>
        refine ⟨n, turns, true, rfl, trail, Leads.here.step child, ?_⟩
        cases n with
        | program => cases written
        | tree role t =>
          cases role with
          | writeTarget => exact .write (by rw [stops]; rfl)
          | _ => cases written
      | false =>
        refine ⟨c, (n, k) :: turns, false, rfl, trail.step child, .here, ?_⟩
        have operand : isTypeof n = isOperandOf .typeof (passed ((n, k) :: turns)) := by
          cases n with
          | program => rfl
          | tree role t =>
            cases role with
            | expression =>
              cases t with
              | unary op => cases op <;> rfl
              | _ => rfl
            | _ => rfl
        cases c with
        | program => cases chain
        | tree role t =>
          cases role with
          | expression => exact .read chain (by rw [stops, operand]) rfl
          | chainMember | chainCall =>
            rw [carries_of_not_plain child rfl (fun _ same => by cases same)] at goesOn
            cases goesOn
          | _ => cases read

/-! ### The node that a guard goes around -/

/-- The guard goes around a node: a statement or a property that a chain makes up, a write to a
chain, or a chain that is not checked by `typeof`. -/
inductive Guard.For (g : Guard) : Node → List Turn → Prop
  | statement {t : Tree} {above : List Turn} (kind : g.kind = .statement) (span : g.span = t.span)
    (form : t.isExpression) : g.For (.tree .statement t) above
  | shorthand {t : Tree} {above : List Turn} (kind : g.kind = .shorthand) (span : g.span = t.span)
    (form : t.isShorthand) : g.For (.tree .objectProperty t) above
  | write {t : Tree} {above : List Turn} (kind : g.kind = .expression) (span : g.span = t.span)
    (form : t.writes) : g.For (.tree .expression t) above
  | chain {t : Tree} {above : List Turn} (kind : g.kind = .expression) (span : g.span = t.span)
    (form : t.root? = some g.root) (apart : underTypeof above = false) :
    g.For (.tree .expression t) above

theorem enclosing_step {ms : List Node} {span : Span} {depth : Nat}
    (found : enclosingStatement? (m :: ms) = some (span, depth)) :
    (∃ e, m = .tree .statement (.expression e span) ∧ depth = ms.length) ∨
      enclosingStatement? ms = some (span, depth) := by
  unfold enclosingStatement? at found
  split at found
  · cases found
  · split at found
    · cases found
      exact .inl ⟨_, rfl, rfl⟩
    · exact .inr found
    · exact .inr found
    · exact .inr found
    · exact .inr found
    · cases found

theorem enclosing_spec (trail : Trail p n turns) {span : Span} {depth : Nat}
    (found : enclosingStatement? (passed turns) = some (span, depth)) :
    ∃ t above, Trail p (.tree .statement t) above ∧ Leads (.tree .statement t) above n turns ∧
      t.isExpression ∧ span = t.span ∧ depth = above.length := by
  induction trail with
  | root => cases found
  | @step n c turns k trail child ih =>
    rcases enclosing_step found with ⟨e, rfl, rfl⟩ | found
    · exact ⟨_, turns, trail, Leads.here.step child, rfl, rfl, List.length_map _⟩
    · obtain ⟨t, above, higher, leads, rest⟩ := ih found
      exact ⟨t, above, higher, leads.step child, rest⟩

theorem guardFor?_none {w : Bool} (checked : underTypeof turns)
    (topped : Topped root turns r above w) :
    guardFor? root ⟨r.span, passed above, w⟩ = none := by
  cases topped with
  | write apart =>
    rw [apart] at checked
    cases checked
  | read _ operand =>
    rw [operand] at checked
    rw [guardFor?, if_pos checked]

/-- A node on the trail gets a guard for the global. -/
def Guarded (p : Program) (root : String) (n : Node) (turns : List Turn) (found : Option Guard) :
    Prop :=
  ∃ g, found = some g ∧ g.root = root ∧
    ∃ m above, Trail p m above ∧ Leads m above n turns ∧ g.For m above

end Repair

end SourceRepair
