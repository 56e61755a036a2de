import Mathlib.Data.List.Induction
import SourceRepair.Proofs.Guards.Found

/-!
# The nodes that guards go around

Every guard has a seat: the node with its span, at its depth, on the trail to a use of its global. That
takes nothing but the trail, however the spans of the program lie. If nodes lie in the spans of the nodes
above and siblings stand apart, then two guards have seats on one trail, or apart from each other; and no
guard has its seat below a property that is only its name, or on the same one as another guard.
-/

namespace SourceRepair.Repair

open Script

variable {p : Program} {n m : Node} {turns above others : List Turn} {root : String} {s : Span}
  {g h : Guard}

/-! ### Up from a use -/

theorem isRead_of_link (read : link s n = .read) : isRead n := by
  cases n with
  | program => cases read
  | tree role t =>
    cases role with
    | expression | chainMember | chainCall => rfl
    | writeTarget =>
      change (if t.memberObject?.any (·.span == s) then Link.write else .none) = _ at read
      split at read <;> cases read
    | _ => cases read

theorem ite_ne_write (q : Prop) [Decidable q] : (if q then Link.read else .none) ≠ .write := by
  split <;> nofun

theorem target_of_link (written : link s n = .write) : ∃ u, n = .tree .writeTarget u := by
  cases n with
  | program => cases written
  | tree role t =>
    cases role with
    | writeTarget => exact ⟨t, rfl⟩
    | expression | chainMember => exact absurd written (ite_ne_write _)
    | chainCall =>
      cases t with
      | call => exact absurd written (ite_ne_write _)
      | _ => cases written
    | _ => cases written

/-- What a chain is built around is never the end of it. -/
theorem expression_of_link {k : Nat} (child : m.children[k]? = some n) (read : isRead n)
    (ends : link s m = .none) : ∃ t, n = .tree .expression t := by
  rcases of_mem_children (List.mem_of_getElem? child) with plain | ⟨t, rfl, ⟨-, u, rfl⟩ | ⟨l, span, rfl⟩⟩
  · cases n with
    | program => cases read
    | tree role t =>
      cases role with
      | expression => exact ⟨t, rfl⟩
      | chainMember | chainCall => cases plain
      | _ => cases read
  · cases read
  · cases ends

/-- A chain ends in a node on the trail, in an expression or in a target that is written to. -/
theorem growChain_spec (trail : Trail p n turns) (read : isRead n) :
    ∃ r above w, growChain n.span (passed turns) = ⟨r.span, passed above, w⟩ ∧ Trail p r above ∧
      Leads r above n turns ∧ ∃ t, r = .tree (if w then .writeTarget else .expression) t := by
  induction trail with
  | root => cases read
  | @step m c turns k trail child ih =>
    change ∃ r above w, growChain c.span (m :: passed turns) = _ ∧ _
    rw [growChain]
    cases goesOn : link c.span m with
    | none => exact ⟨c, (m, k) :: turns, false, rfl, trail.step child, .here,
        expression_of_link child read goesOn⟩
    | read =>
      obtain ⟨r, above, w, grown, higher, leads, form⟩ := ih (isRead_of_link goesOn)
      exact ⟨r, above, w, grown, higher, leads.step child, form⟩
    | write => exact ⟨m, turns, true, rfl, trail, Leads.here.step child, target_of_link goesOn⟩

/-! ### Seats -/

/-- The node is of the kind that the guard goes around. -/
def Guard.suits (g : Guard) (n : Node) : Prop :=
  match g.kind with
  | .statement => ∃ t, n = .tree .statement t ∧ t.isExpression
  | .expression => ∃ t, n = .tree .expression t
  | .shorthand => ∃ t, n = .tree .objectProperty t ∧ t.isShorthand

/-- The guard goes around the node, at its depth, for a use of its global at or below the node. -/
structure Guard.Seat (p : Program) (g : Guard) (n : Node) (turns : List Turn) : Prop where
  trail : Trail p n turns
  span : g.span = n.span
  depth : g.depth = turns.length
  suits : g.suits n
  use : ∃ s others, Uses p g.root s others ∧ Leads n turns (.tree .expression (.identifier g.root s)) others ∧
    guardFor? g.root (growChain s (passed others)) = some g

/-- The guard goes around a node on the trail, at the depth of the node. -/
def Guard.Above (p : Program) (g : Guard) (n : Node) (turns : List Turn) : Prop :=
  ∃ m above, Trail p m above ∧ Leads m above n turns ∧ g.span = m.span ∧ g.depth = above.length ∧ g.suits m

theorem above_enclosing {span : Span} {depth : Nat} (trail : Trail p n turns)
    (found : enclosingStatement? (passed turns) = some (span, depth)) :
    Guard.Above p ⟨root, span, depth, .statement⟩ n turns := by
  obtain ⟨t, above, higher, leads, form, same, deep⟩ := enclosing_spec trail found
  exact ⟨_, above, higher, leads, same, deep, t, rfl, form⟩

theorem of_shorthandSpan? {ns : List Node} {span : Span} (found : shorthandSpan? (n :: ns) = some span) :
    ∃ t, n = .tree .objectProperty t ∧ t.isShorthand ∧ span = t.span := by
  unfold shorthandSpan? at found
  split at found
  · rename_i same
    cases same
    cases found
    exact ⟨_, rfl, rfl, rfl⟩
  · cases found

theorem of_isOperandOf {op : UnaryOp} {ns : List Node} (operand : isOperandOf op (n :: ns)) :
    ∃ t, n = .tree .expression t := by
  unfold isOperandOf at operand
  split at operand
  · rename_i same
    cases same
    exact ⟨_, rfl⟩
  · cases operand

/-- A guard for a chain goes around the chain, or around a node on the trail to it. -/
theorem above_of_guardFor? {r : Node} {w : Bool} (trail : Trail p r above)
    (form : ∃ t, r = .tree (if w then .writeTarget else .expression) t)
    (found : guardFor? root ⟨r.span, passed above, w⟩ = some g) :
    g.root = root ∧ Guard.Above p g r above := by
  cases trail with
  | root =>
    obtain ⟨t, same⟩ := form
    cases same
  | @step n _ turns k trail child =>
    have down : Leads n turns r ((n, k) :: turns) := Leads.here.step child
    have whole : w = false →
        Guard.Above p ⟨root, r.span, (n :: passed turns).length, .expression⟩ r ((n, k) :: turns) := by
      rintro rfl
      exact ⟨r, _, trail.step child, .here, rfl, by simp [passed], form⟩
    -- Both a target and the operand of `delete` have an expression above them.
    have parent : w || isOperandOf .delete (n :: passed turns) →
        Guard.Above p ⟨root, n.span, (passed turns).length, .expression⟩ r ((n, k) :: turns) := by
      intro written
      refine ⟨n, turns, trail, down, rfl, List.length_map _, ?_⟩
      rcases (Bool.or_eq_true _ _).mp written with rfl | operand
      · obtain ⟨u, rfl⟩ := form
        obtain ⟨t, same, -⟩ := writes_of_target child
        exact ⟨t, same⟩
      · exact of_isOperandOf operand
    change guardFor? root ⟨r.span, n :: passed turns, w⟩ = some g at found
    simp only [guardFor?] at found
    split at found
    · cases found
    · split at found
      · rename_i span shorthand
        cases found
        obtain ⟨t, rfl, form, same⟩ := of_shorthandSpan? shorthand
        exact ⟨rfl, _, turns, trail, down, same, List.length_map _, t, rfl, form⟩
      · split at found
        · split at found
          · rename_i enclosing
            cases found
            exact ⟨rfl, above_enclosing (trail.step child) enclosing⟩
          · cases written : w || isOperandOf .delete (n :: passed turns) with
            | true =>
              rw [written] at found
              cases found
              exact ⟨rfl, parent written⟩
            | false =>
              rw [written] at found
              cases found
              exact ⟨rfl, whole (Bool.or_eq_false_iff.mp written).1⟩
        · rename_i read
          cases found
          simp only [Bool.or_eq_true, not_or, Bool.not_eq_true] at read
          exact ⟨rfl, whole read.1.1⟩

/-! ### The guards of a program -/

/-- The answer to the use of a global is a guard with a seat on the trail to the use. -/
theorem seat_of_guardFor? (use : Uses p root s turns)
    (found : guardFor? root (growChain s (passed turns)) = some g) :
    g.root = root ∧ ∃ n above, g.Seat p n above ∧
      Leads n above (.tree .expression (.identifier root s)) turns := by
  obtain ⟨r, above, w, grown, trail, leads, form⟩ := growChain_spec use rfl
  change growChain s (passed turns) = _ at grown
  have answer := found
  rw [grown] at answer
  obtain ⟨rfl, n, higher, outer, on, span, depth, suits⟩ := above_of_guardFor? trail form answer
  have down := on.trans leads
  exact ⟨rfl, n, higher, ⟨outer, span, depth, suits, s, turns, use, down, found⟩, down⟩

/-- Each element that a fold adds is the answer to an input after exactly the elements before it. -/
theorem collect_getElem {α β : Type} {f : List β → α → Option β} {xs : List α} {k : Nat} {y : β}
    (found : (xs.foldl (fun found x => found ++ (f found x).toList) [])[k]? = some y) :
    ∃ x ∈ xs, f ((xs.foldl (fun found x => found ++ (f found x).toList) []).take k) x = some y := by
  induction xs using List.reverseRecOn with
  | nil => cases found
  | append_singleton xs x ih =>
    simp only [List.foldl_append, List.foldl_cons, List.foldl_nil] at found ⊢
    generalize xs.foldl (fun found x => found ++ (f found x).toList) [] = before at *
    by_cases earlier : k < before.length
    · rw [List.getElem?_append_left earlier] at found
      obtain ⟨x', member, answer⟩ := ih found
      rw [List.take_append_of_le_length (Nat.le_of_lt earlier)]
      exact ⟨x', List.mem_append_left _ member, answer⟩
    · rw [List.getElem?_append_right (Nat.le_of_not_lt earlier)] at found
      have answer : f before x = some y := Option.mem_toList.mp (List.mem_of_getElem? found)
      rw [answer] at found
      have last : k - before.length < 1 := (List.getElem?_eq_some_iff.mp found).1
      obtain rfl : k = before.length := by omega
      refine ⟨x, by simp, ?_⟩
      rw [List.take_left, answer]

/-- Every guard answers the use of its global that no earlier guard goes around. -/
theorem use_of_getElem {k : Nat} (found : (guards p)[k]? = some g) :
    ∃ s turns, Uses p g.root s turns ∧ guardFor? g.root (growChain s (passed turns)) = some g ∧
      ∀ h ∈ (guards p).take k, h.claims g.root s = false := by
  obtain ⟨v, visited, next⟩ := collect_getElem found
  obtain ⟨root, s, node, -, unclaimed, answer⟩ := nextGuard?_eq_some next
  obtain ⟨turns, trail, ancestors⟩ := trail_of_mem_walk visited
  rw [node] at trail
  rw [ancestors] at answer
  obtain ⟨rfl, -⟩ := seat_of_guardFor? trail answer
  exact ⟨s, turns, trail, answer, fun h earlier => by simpa using List.any_eq_false.mp unclaimed h earlier⟩

theorem exists_seat (member : g ∈ guards p) : ∃ n turns, g.Seat p n turns := by
  obtain ⟨k, found⟩ := List.getElem?_of_mem member
  obtain ⟨s, turns, use, answer, -⟩ := use_of_getElem found
  obtain ⟨-, n, above, seat, -⟩ := seat_of_guardFor? use answer
  exact ⟨n, above, seat⟩

/-! ### Seats in a nested program -/

/-- The value of a property that is only its name, as in `{ window }`, is a use of this name. -/
def namesItself : Node → Bool
  | .tree .objectProperty (.property _ computed (.identifier _ _) true _ _) => !computed
  | .tree .objectProperty (.property _ _ _ true _ _) => false
  | _ => true

/-- Properties in the program that are only their names are what the grammar makes of them. -/
def ShorthandNames (p : Program) : Prop := ∀ n turns, Trail p n turns → namesItself n

theorem ShorthandNames.shape (named : ShorthandNames p) {t : Tree}
    (trail : Trail p (.tree .objectProperty t) turns) (form : t.isShorthand) :
    ∃ key name s cover span, t = .property key false (.identifier name s) true cover span := by
  have names := named _ turns trail
  unfold Tree.isShorthand at form
  split at form
  · subst form
    unfold namesItself at names
    split at names
    · rename_i same
      cases same
      rw [Bool.not_eq_true'] at names
      subst names
      exact ⟨_, _, _, _, _, rfl⟩
    · cases names
    · rename_i other
      exact absurd rfl (other _ _ _ _ _)
  · cases form

/-- The walk of a program finds all its properties. -/
theorem shorthandNames_of_walk (laid : p.Laid) (all : p.walk.all (namesItself ·.node)) :
    ShorthandNames p :=
  fun _ _ trail => List.all_eq_true.mp all _ (trail.mem_walk laid)

/-- Below a property that is only its name there is nothing but the name. -/
theorem ShorthandNames.below (named : ShorthandNames p) {t : Tree}
    (trail : Trail p (.tree .objectProperty t) turns) (form : t.isShorthand)
    (leads : Leads (.tree .objectProperty t) turns m others) :
    (m = .tree .objectProperty t ∧ others = turns) ∨
      ∃ key name s cover span, t = .property key false (.identifier name s) true cover span ∧
        m = .tree .expression (.identifier name s) ∧ others = (.tree .objectProperty t, 0) :: turns := by
  obtain ⟨key, name, s, cover, span, rfl⟩ := named.shape trail form
  rcases leads.first with here | ⟨k, c, child, down⟩
  · exact .inl here
  · cases k with
    | succ k => cases child
    | zero =>
      cases child
      rcases down.first with ⟨rfl, rfl⟩ | ⟨k, c, child, -⟩
      · exact .inr ⟨key, name, s, cover, span, rfl, rfl, rfl⟩
      · cases child

theorem Guard.Seat.shorthand (seat : g.Seat p n turns) (kind : g.kind = .shorthand) :
    ∃ t, n = .tree .objectProperty t ∧ t.isShorthand := by
  have suits := seat.suits
  rwa [Guard.suits, kind] at suits

/-- A use at or below a property that is only its name is its value. -/
theorem ShorthandNames.use (named : ShorthandNames p) {t : Tree}
    (trail : Trail p (.tree .objectProperty t) turns) (form : t.isShorthand)
    (leads : Leads (.tree .objectProperty t) turns (.tree .expression (.identifier root s)) others) :
    ∃ key cover span, t = .property key false (.identifier root s) true cover span := by
  rcases named.below trail form leads with ⟨impossible, -⟩ | ⟨key, name, _, cover, span, spelled, same, -⟩
  · cases impossible
  · cases same
    exact ⟨key, cover, span, spelled⟩

/-- No guard has its seat below a property that is only its name. -/
theorem Guard.Seat.eq_of_shorthand (named : ShorthandNames p) (seat : g.Seat p n turns)
    (kind : g.kind = .shorthand) (other : h.Seat p m others) (leads : Leads n turns m others) :
    m = n ∧ others = turns := by
  obtain ⟨t, rfl, form⟩ := seat.shorthand kind
  rcases named.below seat.trail form leads with here | ⟨key, name, s, cover, span, rfl, rfl, rfl⟩
  · exact here
  · -- The seat is the use itself, whose guard goes around the property.
    exfalso
    obtain ⟨s', uses, -, down, answer⟩ := other.use
    rcases down.first with ⟨same, rfl⟩ | ⟨k, c, child, -⟩
    · cases same
      have property : guardFor? h.root (growChain s
          (passed ((.tree .objectProperty (.property key false (.identifier h.root s) true cover span), 0) :: turns))) =
            some ⟨h.root, span, (passed turns).length, .shorthand⟩ := rfl
      rw [property] at answer
      have shallow : (passed turns).length = h.depth := congrArg Guard.depth (Option.some.inj answer)
      rw [other.depth] at shallow
      simp [passed] at shallow
    · cases child

/-- The spans of two properties that guards spell out do not overlap. -/
theorem shorthands_apart (nested : p.Nested) (named : ShorthandNames p) {j k : Nat} (lt : j < k)
    (first : (guards p)[j]? = some g) (second : (guards p)[k]? = some h) (kind : g.kind = .shorthand)
    (kind' : h.kind = .shorthand) :
    g.span.stop ≤ h.span.start ∨ h.span.stop ≤ g.span.start := by
  obtain ⟨n, turns, seat⟩ := exists_seat (List.mem_of_getElem? first)
  obtain ⟨s, uses, use, answer, unclaimed⟩ := use_of_getElem second
  obtain ⟨-, m, others, other, down⟩ := seat_of_guardFor? use answer
  have apart_or_same : Apart n m ∨ n = m ∧ turns = others := by
    rcases nested.leads_or_apart seat.trail other.trail with up | below | apart
    · exact .inr (other.eq_of_shorthand named kind' seat up)
    · obtain ⟨rfl, rfl⟩ := seat.eq_of_shorthand named kind other below
      exact .inr ⟨rfl, rfl⟩
    · exact .inl apart
  rw [seat.span, other.span]
  rcases apart_or_same with apart | ⟨rfl, rfl⟩
  · exact apart
  · -- Both guards are for the name of the property, so the first one claims the use of the second.
    exfalso
    obtain ⟨t, rfl, form⟩ := seat.shorthand kind
    obtain ⟨s', uses', -, down', -⟩ := seat.use
    obtain ⟨key, cover, span, spelled⟩ := named.use seat.trail form down
    obtain ⟨_, _, _, spelled'⟩ := named.use seat.trail form down'
    have names : h.root = g.root := by
      rw [spelled] at spelled'
      simp only [Tree.property.injEq, Tree.identifier.injEq] at spelled'
      exact spelled'.2.2.1.1
    have covers : g.span.covers s := by
      rw [seat.span]
      exact nested.covers seat.trail down
    have earlier : g ∈ (guards p).take k :=
      List.mem_of_getElem? ((List.getElem?_take_of_lt lt).trans first)
    have claims := unclaimed g earlier
    rw [Guard.claims, names, covers, beq_self_eq_true] at claims
    cases claims

end SourceRepair.Repair
