import SourceRepair.Proofs.Guards.Outline
import SourceRepair.Proofs.Script.Trail

/-!
# Protection on a trail

The search for guards compares spans to see where a use stands in the nodes around it. In a program
whose trees stand in order that comes down to positions: the node on a trail protects a global when
the trail goes on with the right one of its children, and a chain goes on as long as the trail comes
from the first child of each link.
-/

namespace SourceRepair.Repair

open Script

/-! ### Protection by position -/

/-- The node is a statement that leaves when the name is not defined. -/
def exitsWithout (root : String) : Node → Bool
  | .tree .statement s => s.isExitGuard root
  | _ => false

/-- The node of the turn protects a global in the child that the trail goes on with. -/
def shields (root : String) : Turn → Bool
  | (.tree .expression (.conditional test _ _ _), k) | (.tree .statement (.ifThen test _ _ _), k) =>
    (k == 1 && test.testsDefined root) || (k == 2 && test.testsUndefined root)
  | (.tree .expression (.logical op left _ _), k) =>
    k == 1 &&
      match op with
      | .and => left.testsDefined root
      | .or => left.testsUndefined root
      | .coalesce => false
  | (.tree .expression (.call callee args optional span), k) =>
    (Tree.call callee args optional span).isEffectHook &&
      ((Tree.argument? args 0).isSome && k == 1)
  | (n, k) => n.statements?.isSome && (n.children.take k).any (exitsWithout root)

/-- A global is protected on the trail. -/
def shielded (root : String) (turns : List Turn) : Bool := turns.any (shields root)

variable {p : Program} {n c : Node} {k : Nat} {turns above : List Turn} {root : String}

theorem eq_of_span_eq (laid : n.Laid) (child : n.children[k]? = some c)
    (wide : c.span.start < c.span.stop) {j : Nat} {d : Node} (other : n.children[j]? = some d)
    (same : d.span = c.span) : j = k := by
  rcases Nat.lt_trichotomy j k with lt | rfl | lt
  · have := laid.before lt other child
    rw [same] at this
    omega
  · rfl
  · have := laid.before lt child other
    rw [same] at this
    omega

/-- A child has the span of another one only at its own position. -/
theorem span_beq (laid : n.Laid) (child : n.children[k]? = some c)
    (wide : c.span.start < c.span.stop) {j : Nat} {d : Node} (other : n.children[j]? = some d) :
    (d.span == c.span) = (k == j) := by
  rw [Bool.eq_iff_iff, beq_iff_eq, beq_iff_eq]
  constructor
  · exact fun same => (eq_of_span_eq laid child wide other same).symm
  · rintro rfl
    rw [other] at child
    cases child
    rfl

theorem takeWhile_eq_take {α : Type} {f : α → Bool} {xs : List α} {j : Nat}
    (before : ∀ i x, i < j → xs[i]? = some x → f x) (last : ∀ x, xs[j]? = some x → f x = false) :
    xs.takeWhile f = xs.take j := by
  induction xs generalizing j with
  | nil => rw [List.takeWhile_nil, List.take_nil]
  | cons x xs ih =>
    cases j with
    | zero => rw [List.takeWhile_cons_of_neg (by simp [last x rfl]), List.take_zero]
    | succ j =>
      rw [List.takeWhile_cons_of_pos (before 0 x (Nat.succ_pos j) rfl), List.take_succ_cons]
      exact congrArg (x :: ·) (ih (fun i y lt => before (i + 1) y (Nat.succ_lt_succ lt)) last)

/-- The statements that end before a child of the list are those at the positions before it. -/
theorem protects_list (laid : n.Laid) (child : n.children[k]? = some c)
    (wide : c.span.start < c.span.stop) (first : List Node) {ss : List Tree}
    (list : n.children = first ++ ss.map (Node.tree .statement))
    (others : ∀ m ∈ first, exitsWithout root m = false) :
    (ss.takeWhile (·.span.stop ≤ c.span.start)).any (·.isExitGuard root) =
      (n.children.take k).any (exitsWithout root) := by
  have at_statement : ∀ i s, ss[i]? = some s →
      n.children[first.length + i]? = some (.tree .statement s) := by
    intro i s found
    rw [list, List.getElem?_append_right (Nat.le_add_right _ _), Nat.add_sub_cancel_left,
      List.getElem?_map, found]
    rfl
  have taken : ss.takeWhile (·.span.stop ≤ c.span.start) = ss.take (k - first.length) := by
    apply takeWhile_eq_take
    · intro i s lt found
      exact decide_eq_true (laid.before (by omega) (at_statement i s found) child)
    · intro s found
      have place := at_statement _ s found
      refine decide_eq_false fun (early : s.span.stop ≤ c.span.start) => ?_
      rcases Nat.lt_or_ge k first.length with lt | ge
      · have after : c.span.stop ≤ s.span.start := laid.before (by omega) child place
        have ordered : s.span.start ≤ s.span.stop := (laid.child place).2.2.1
        omega
      · rw [Nat.add_sub_cancel' ge, child] at place
        cases place
        exact absurd wide (Nat.not_lt.mpr early)
  have none : (first.take k).any (exitsWithout root) = false :=
    List.any_eq_false.mpr fun m member => by simp [others m (List.mem_of_mem_take member)]
  rw [taken, list, List.take_append, List.any_append, none, Bool.false_or, ← List.map_take,
    List.any_map]
  rfl

theorem protects_eq (laid : n.Laid) (child : n.children[k]? = some c)
    (wide : c.span.start < c.span.stop) : protects root c.span n = shields root (n, k) := by
  have at_child := fun j d => span_beq (j := j) (d := d) laid child wide
  cases n with
  | program q => exact protects_list laid child wide [] rfl nofun
  | tree role t =>
    cases role with
    | expression =>
      cases t with
      | conditional test yes no =>
        have second := at_child 1 (.tree .expression yes) rfl
        have third := at_child 2 (.tree .expression no) rfl
        change ((yes.span == c.span && _) || (no.span == c.span && _)) = _
        change (yes.span == c.span) = _ at second
        change (no.span == c.span) = _ at third
        rw [second, third]
        rfl
      | logical op left right =>
        have second := at_child 1 (.tree .expression right) rfl
        change (right.span == c.span) = _ at second
        change (right.span == c.span && _) = _
        rw [second]
        rfl
      | call callee args optional span =>
        change (_ && (Tree.argument? args 0).any (·.span == c.span)) = (_ && _)
        refine congrArg (_ && ·) ?_
        cases found : Tree.argument? args 0 with
        | none => rfl
        | some e =>
          have place : (Node.tree .expression (.call callee args optional span)).children[1]? =
              some (.tree .expression e) := by
            cases args with
            | nil => cases found
            | cons a args =>
              cases a with
              | spread | hole => cases found
              | _ => cases found; rfl
          exact at_child 1 (.tree .expression e) place
      | _ => rfl
    | statement =>
      cases t with
      | ifThen test yes no =>
        have second := at_child 1 (.tree .statement yes) rfl
        change (yes.span == c.span) = _ at second
        change ((yes.span == c.span && _) || (no.any (·.span == c.span) && _)) = _
        rw [second]
        cases no with
        | none =>
          have short : (k == 2) = false := by
            refine beq_false_of_ne fun third => ?_
            rw [third] at child
            cases child
          change (_ || (false && _)) = ((k == 1 && _) || (k == 2 && _))
          rw [short]
        | some no =>
          have third := at_child 2 (.tree .statement no) rfl
          change (no.span == c.span) = _ at third
          change (_ || (no.span == c.span && _)) = _
          rw [third]
          rfl
      | block => exact protects_list laid child wide [] rfl nofun
      | _ => rfl
    | block =>
      cases t with
      | tryPart => exact protects_list laid child wide [] rfl nofun
      | _ => rfl
    | functionBody =>
      cases t with
      | body => exact protects_list laid child wide [] rfl nofun
      | _ => rfl
    | switchCase =>
      cases t with
      | switchCase test =>
        refine protects_list laid child wide _ rfl fun m member => ?_
        obtain ⟨e, -, rfl⟩ := List.mem_map.mp member
        rfl
      | _ => rfl
    | _ => rfl

/-- The use at the end of a trail is protected exactly when some turn of the trail protects it. -/
theorem isGuarded_eq (trail : Trail p n turns) (laid : p.Laid)
    (wide : n.span.start < n.span.stop) :
    isGuarded root n.span (passed turns) = shielded root turns := by
  induction trail with
  | root => rfl
  | @step n c turns k trail child ih =>
    have inside := (trail.laid laid).child child
    change (protects root c.span n || isGuarded root n.span (passed turns)) = (_ || _)
    rw [protects_eq (trail.laid laid) child wide, ih (by omega)]
    rfl

/-! ### Chains by position -/

/-- The node of the turn goes on with the chain that the trail comes from. -/
def carries : Turn → Bool
  | (.tree .expression t, k) =>
    match t with
    | .member _ _ _ _ | .index _ _ _ _ | .privateMember _ _ _ _ | .call _ _ _ _ | .paren _ _
    | .ascribe .nonNull _ _ => k == 0
    | .chain _ _ => true
    | _ => false
  | (.tree .chainMember t, k) => t.memberObject?.isSome && k == 0
  | (.tree .chainCall (.call _ _ _ _), k) => k == 0
  | _ => false

/-- The node of the turn writes to a member of the chain that the trail comes from. -/
def assigns : Turn → Bool
  | (.tree .writeTarget t, k) => t.memberObject?.isSome && k == 0
  | _ => false

theorem memberObject_child {t : Tree} {o : Tree} (object : t.memberObject? = some o) :
    t.memberNodes[0]? = some (Node.tree .expression o) := by
  cases t with
  | member | index | privateMember => cases object; rfl
  | _ => cases object

theorem memberObject_beq {role : Role} {t : Tree} (laid : (Node.tree role t).Laid)
    (member : (Node.tree role t).children = t.memberNodes)
    (child : (Node.tree role t).children[k]? = some c) (wide : c.span.start < c.span.stop) :
    t.memberObject?.any (·.span == c.span) = (t.memberObject?.isSome && k == 0) := by
  cases object : t.memberObject? with
  | none => rfl
  | some o => exact span_beq laid child wide (by rw [member, memberObject_child object])

theorem link_eq (laid : n.Laid) (child : n.children[k]? = some c)
    (wide : c.span.start < c.span.stop) :
    link c.span n =
      if carries (n, k) then .read else if assigns (n, k) then .write else .none := by
  cases n with
  | program => rfl
  | tree role t =>
    cases role with
    | expression =>
      cases t with
      | member o | index o | privateMember o | paren o =>
        have first := span_beq laid child wide (j := 0) (d := .tree .expression o) rfl
        change (o.span == c.span) = _ at first
        change (if o.span == c.span then Link.read else .none) = _
        rw [first]
        rfl
      | call callee =>
        have first := span_beq laid child wide (j := 0) (d := .tree .expression callee) rfl
        change (callee.span == c.span) = _ at first
        change (if callee.span == c.span then Link.read else .none) = _
        rw [first]
        rfl
      | ascribe kind inner =>
        cases kind with
        | nonNull =>
          have first := span_beq laid child wide (j := 0) (d := .tree .expression inner) rfl
          change (inner.span == c.span) = _ at first
          change (if inner.span == c.span then Link.read else .none) = _
          rw [first]
          rfl
        | _ => rfl
      | _ => rfl
    | chainMember =>
      change (if t.memberObject?.any (·.span == c.span) then Link.read else .none) = _
      rw [memberObject_beq laid rfl child wide]
      rfl
    | chainCall =>
      cases t with
      | call callee =>
        have first := span_beq laid child wide (j := 0) (d := .tree .expression callee) rfl
        change (callee.span == c.span) = _ at first
        change (if callee.span == c.span then Link.read else .none) = _
        rw [first]
        rfl
      | _ => rfl
    | writeTarget =>
      change (if t.memberObject?.any (·.span == c.span) then Link.write else .none) = _
      rw [memberObject_beq laid rfl child wide]
      rfl
    | _ => rfl

/-- The node is the check of a type. -/
def isTypeof : Node → Bool
  | .tree .expression (.unary .typeof _ _) => true
  | _ => false

/-- The chain that the trail comes from is the operand of `typeof`. -/
def underTypeof : List Turn → Bool
  | [] => false
  | turn :: above => if carries turn then underTypeof above else isTypeof turn.1

/-- The chain that a trail ends in, followed upward: the last node of it, the turns above that node,
and whether the node is written to. -/
def chainTop : Node → List Turn → Node × List Turn × Bool
  | n, [] => (n, [], false)
  | n, turn :: above =>
    if carries turn then chainTop turn.1 above
    else if assigns turn then (turn.1, above, true)
    else (n, turn :: above, false)

theorem growChain_eq (trail : Trail p n turns) (laid : p.Laid)
    (wide : n.span.start < n.span.stop) :
    growChain n.span (passed turns) =
      ⟨(chainTop n turns).1.span, passed (chainTop n turns).2.1, (chainTop n turns).2.2⟩ := by
  induction trail with
  | root => rfl
  | @step n c turns k trail child ih =>
    have inside := (trail.laid laid).child child
    change growChain c.span (n :: passed turns) = _
    rw [growChain, link_eq (trail.laid laid) child wide, chainTop]
    cases carries (n, k) with
    | true => exact ih (by omega)
    | false => cases assigns (n, k) <;> rfl

end SourceRepair.Repair
