import Mathlib.Data.List.Pairwise
import SourceRepair.Proofs.Script.Trail
import SourceRepair.Proofs.Text.Removal

/-!
# The order of the walk

The walk enters a node before the nodes below it, and these before the nodes that come later. In a
program whose trees stand in order, a node that is visited later is either below an earlier one or
stands behind it in the text.
-/

namespace SourceRepair.Script

variable {p : Program} {n m c : Node} {ancestors : List Node} {fuel : Nat} {v w : Visit}

/-- Trees in order stand one after the other. -/
theorem InOrder.pairwise {lo hi : Nat} {ts : List Tree} (order : InOrder lo hi ts) :
    ts.Pairwise fun s t => s.span.stop ≤ t.span.start := by
  induction order with
  | nil => exact .nil
  | cons _ _ _ _ stops rest _ _ ih =>
    refine List.pairwise_cons.mpr ⟨fun t member => ?_, ih⟩
    obtain ⟨a, b, lower, -, one⟩ := rest.of_mem member
    exact Nat.le_trans stops (Nat.le_trans lower one.starts)

/-- A node is another one or below it. -/
inductive Node.Below (n : Node) : Node → Prop
  | here : n.Below n
  | step {m c : Node} (below : n.Below m) (child : c ∈ m.children) : n.Below c

theorem Node.Below.trans (first : n.Below m) (second : m.Below c) : n.Below c := by
  induction second with
  | here => exact first
  | step _ child ih => exact ih.step child

/-- What is below a node is the node or below one of its children. -/
theorem Node.Below.first (below : n.Below m) : m = n ∨ ∃ c ∈ n.children, c.Below m := by
  induction below with
  | here => exact .inl rfl
  | @step l d _ child ih =>
    rcases ih with rfl | ⟨c, first, rest⟩
    · exact .inr ⟨d, child, .here⟩
    · exact .inr ⟨c, first, rest.step child⟩

theorem Node.Laid.start_le_stop (laid : n.Laid) : n.span.start ≤ n.span.stop := by
  cases n with
  | program p => exact InOrder.le laid
  | tree role t =>
    obtain ⟨lo, hi, order⟩ := laid
    exact order.start_le_stop

/-- A node lies in the span of a node above it. -/
theorem Node.Laid.of_below (laid : n.Laid) (below : n.Below m) :
    m.Laid ∧ n.span.start ≤ m.span.start ∧ m.span.stop ≤ n.span.stop := by
  induction below with
  | here => exact ⟨laid, Nat.le.refl, Nat.le.refl⟩
  | step _ child ih =>
    obtain ⟨k, found⟩ := List.getElem?_of_mem child
    obtain ⟨inner, starts, -, stops⟩ := ih.1.child found
    exact ⟨inner, by omega, by omega⟩

/-- The second visit is below the first, or behind it in the text. -/
def Visit.Before (v w : Visit) : Prop :=
  (v.node ∈ w.ancestors ∧ ∃ c ∈ v.node.children, c.Below w.node) ∨ v.node.span.stop ≤ w.node.span.start

/-- The walk from a node visits what is below it, and knows the nodes above. -/
theorem of_mem_walkFrom (visited : v ∈ walkFrom fuel ancestors n) :
    n.Below v.node ∧ ancestors ⊆ v.ancestors := by
  induction fuel generalizing ancestors n with
  | zero => cases visited
  | succ fuel ih =>
    rw [walkFrom, List.mem_cons, List.mem_flatMap] at visited
    rcases visited with rfl | ⟨c, child, visited⟩
    · exact ⟨.here, List.Subset.refl _⟩
    · obtain ⟨below, kept⟩ := ih visited
      exact ⟨(Node.Below.here.step child).trans below, List.Subset.trans (List.subset_cons_self _ _) kept⟩

theorem walkFrom_pairwise (laid : n.Laid) : (walkFrom fuel ancestors n).Pairwise Visit.Before := by
  induction fuel generalizing ancestors n with
  | zero => exact .nil
  | succ fuel ih =>
    rw [walkFrom, List.pairwise_cons, List.pairwise_flatMap]
    refine ⟨fun w visited => ?_, fun c child => ?_, ?_⟩
    · obtain ⟨c, child, visited⟩ := List.mem_flatMap.mp visited
      obtain ⟨below, kept⟩ := of_mem_walkFrom visited
      exact .inl ⟨kept List.mem_cons_self, c, child, below⟩
    · obtain ⟨k, found⟩ := List.getElem?_of_mem child
      exact ih (laid.child found).1
    · -- Visits below two children are as far apart as the children.
      refine List.pairwise_iff_getElem.mpr fun j k jlt klt lt v first w second => .inr ?_
      have one := List.getElem?_eq_getElem jlt
      have other := List.getElem?_eq_getElem klt
      have := laid.before lt one other
      have := ((laid.child one).1.of_below (of_mem_walkFrom first).1).2
      have := ((laid.child other).1.of_below (of_mem_walkFrom second).1).2
      omega

theorem Program.Laid.walk_pairwise (laid : p.Laid) : p.walk.Pairwise Visit.Before :=
  walkFrom_pairwise (n := .program p) laid

/-- Of two visits one comes before the other. -/
theorem Program.Laid.before_or_before (laid : p.Laid) (first : v ∈ p.walk) (second : w ∈ p.walk) (other : v ≠ w) :
    v.Before w ∨ w.Before v := by
  have symmetric : Std.Symm fun a b : Visit => a.Before b ∨ b.Before a := ⟨fun _ _ => Or.symm⟩
  have either : p.walk.Pairwise fun a b : Visit => a.Before b ∨ b.Before a := laid.walk_pairwise.imp Or.inl
  exact either.forall first second other

theorem Program.Laid.of_mem_walk (laid : p.Laid) (visited : v ∈ p.walk) : v.node.Laid :=
  (Node.Laid.of_below (n := .program p) laid (of_mem_walkFrom visited).1).1

/-! ### Nodes in a tree -/

theorem Seats.of_mem {proper : Bool} {t : Tree} {lo hi : Nat} {nodes : List Node}
    (seats : Seats proper t lo hi (nodes.map fun c => ([], c))) (member : n ∈ nodes) :
    n.Laid ∧ lo ≤ n.span.start ∧ n.span.stop ≤ hi := by
  obtain ⟨k, found⟩ := List.getElem?_of_mem (List.mem_map_of_mem (f := fun c => (([] : List String), c)) member)
  obtain ⟨role, u, a, b, rfl, -, -, order, lower, upper⟩ := seats.get found
  exact ⟨⟨a, b, order⟩, Nat.le_trans lower order.starts, Nat.le_trans order.stops upper⟩

namespace Tree

variable {t : Tree} {lo hi : Nat}

/-- The node for an argument lies in its span. -/
theorem of_mem_elementNode (order : InOrder lo hi [t]) (member : n ∈ t.elementNode) :
    n.Laid ∧ t.span.start ≤ n.span.start ∧ n.span.stop ≤ t.span.stop := by
  unfold elementNode at member
  split at member
  · cases member
  · obtain rfl := List.mem_singleton.mp member
    have inside := order.parts
    exact ⟨⟨_, _, inside⟩, inside.starts, inside.stops⟩
  · obtain rfl := List.mem_singleton.mp member
    exact ⟨⟨lo, hi, order⟩, Nat.le.refl, Nat.le.refl⟩

theorem of_mem_objectNodes (order : InOrder lo hi [t]) (member : n ∈ objectNodes [t]) :
    n.Laid ∧ t.span.start ≤ n.span.start ∧ n.span.stop ≤ t.span.stop := by
  cases t with
  | spread =>
    obtain rfl := List.mem_singleton.mp member
    have inside := order.parts
    exact ⟨⟨_, _, inside⟩, inside.starts, inside.stops⟩
  | _ =>
    obtain rfl := List.mem_singleton.mp member
    exact ⟨⟨lo, hi, order⟩, Nat.le.refl, Nat.le.refl⟩

theorem of_mem_attributeNodes (order : InOrder lo hi [t]) (member : n ∈ t.attributeNodes) :
    n.Laid ∧ t.span.start ≤ n.span.start ∧ n.span.stop ≤ t.span.stop := by
  have bare : t.front = [] := by cases t <;> first | rfl | cases member
  exact (attributeNodes_seats (order.tight bare)).of_mem member

theorem of_mem_jsxNodes (order : InOrder lo hi [t]) (member : n ∈ t.jsxNodes) :
    n.Laid ∧ t.span.start ≤ n.span.start ∧ n.span.stop ≤ t.span.stop := by
  have bare : t.front = [] := by cases t <;> first | rfl | cases member
  exact (jsxNodes_seats (order.tight bare)).of_mem member

end Tree

/-! ### The nodes above a visit -/

theorem Trail.weight_lt {turns : List Turn} (trail : Trail p n turns) (laid : p.Laid) (above : m ∈ passed turns) :
    n.weight < m.weight := by
  induction trail with
  | root => cases above
  | step trail child ih =>
    have lighter := (trail.laid laid).weight_lt child
    rcases List.mem_cons.mp above with rfl | further
    · exact lighter
    · exact Nat.lt_trans lighter (ih further)

/-- No visit has its own node above it. -/
theorem Program.Laid.notMem_ancestors (laid : p.Laid) (visited : v ∈ p.walk) : v.node ∉ v.ancestors := by
  obtain ⟨turns, trail, above⟩ := trail_of_mem_walk visited
  rw [above]
  exact fun member => Nat.lt_irrefl _ (trail.weight_lt laid member)

theorem Trail.exists_below {turns : List Turn} (trail : Trail p n turns) (above : m ∈ passed turns) :
    ∃ c ∈ m.children, c.Below n := by
  induction trail with
  | root => cases above
  | @step d c turns k trail child ih =>
    have member := List.mem_of_getElem? child
    rcases List.mem_cons.mp above with rfl | further
    · exact ⟨c, member, .here⟩
    · obtain ⟨first, inside, below⟩ := ih further
      exact ⟨first, inside, below.step member⟩

theorem exists_below_of_ancestor (visited : w ∈ p.walk) (above : n ∈ w.ancestors) :
    ∃ c ∈ n.children, c.Below w.node := by
  obtain ⟨turns, trail, passing⟩ := trail_of_mem_walk visited
  rw [passing] at above
  exact trail.exists_below above

end SourceRepair.Script

/-!
## Programs in their texts

A program stands in a text when its trees stand in order, and what edits are made at stands there as
well: statements, properties and arguments start and end with characters that are no white space, names
of members stand behind their objects, and the tags of an element stand around its children. All of
this can be computed.
-/

namespace SourceRepair.Script

open Text (Inked)

namespace Tree

/-- The parts of a tree that edits are made at stand in the text. -/
def standsIn (cs : List Char) : Tree → Bool
  | member o n _ span =>
    decide (Inked cs n.span ∧ o.span.stop ≤ n.span.start ∧ n.span.stop ≤ span.stop)
  | call _ args _ _ => decide (∀ a ∈ args, Inked cs a.span)
  | object properties _ => decide (∀ p ∈ properties, Inked cs p.span)
  | importDecl d =>
    decide (Inked cs d.sourceSpan ∧ d.span.start ≤ d.sourceSpan.start ∧ d.sourceSpan.stop ≤ d.span.stop)
  | jsxElement n attributes opening children closing span =>
    decide ((Inked cs n.span ∧ Inked cs opening ∧ span.covers opening ∧ opening.covers n.span) ∧
      (∀ a ∈ attributes, Inked cs a.span ∧ n.span.stop ≤ a.span.start ∧ a.span.stop ≤ opening.stop) ∧
      (∀ c ∈ children, opening.stop ≤ c.span.start) ∧
      ∀ tag ∈ closing, Inked cs tag ∧ span.covers tag ∧ opening.stop ≤ tag.start ∧
        ∀ c ∈ children, c.span.stop ≤ tag.start)
  | _ => true

/-- What holds of a tree by itself can be computed. -/
def isSound : Tree → Bool
  | identifier _ s => s.start < s.stop
  | unary _ argument s => s.start < argument.span.start
  | paren inner s => s.start < inner.span.start
  | property key computed _ shorthand cover _ =>
    (computed || key.isKey) && (!shorthand || !computed) &&
      cover.all fun default => (default.hoistedNames default.size).isEmpty
  | patternProperty key computed _ _ => computed || key.isKey
  | method key computed _ _ _ => computed || key.isKey
  | field key computed _ _ _ => computed || key.isKey
  | _ => true

theorem sound_of_isSound {t : Tree} (sound : t.isSound) : t.Sound := by
  have key : ∀ {computed isKey : Bool}, computed = true ∨ isKey = true → computed = false → isKey = true := by
    rintro _ _ (rfl | found) plain
    · cases plain
    · exact found
  cases t with
  | identifier | unary | paren => simpa [isSound, Sound] using sound
  | property =>
    simp only [isSound, Bool.and_eq_true, Bool.or_eq_true, Bool.not_eq_true', Option.all_eq_true,
      List.isEmpty_iff] at sound
    obtain ⟨⟨named, short⟩, default⟩ := sound
    refine ⟨key named, fun shorthand => ?_, default⟩
    rcases short with long | plain
    · rw [long] at shorthand
      cases shorthand
    · exact plain
  | patternProperty | method | field =>
    rw [isSound, Bool.or_eq_true] at sound
    exact key sound
  | _ => trivial

end Tree

/-- The trees stand in order between two offsets, down to some depth. -/
def inOrder : Nat → Nat → Nat → List Tree → Bool
  | 0, _, _, _ => false
  | _ + 1, lo, hi, [] => lo ≤ hi
  | fuel + 1, lo, hi, t :: ts =>
    let mid := (t.front.getLast?.map fun u => u.span.stop).getD lo
    t.isSound && lo ≤ t.span.start && inOrder fuel lo mid t.front &&
      inOrder fuel (max mid t.span.start) t.span.stop t.parts && inOrder fuel t.span.stop hi ts

theorem InOrder.of_inOrder {fuel lo hi : Nat} {ts : List Tree} (order : inOrder fuel lo hi ts) :
    InOrder lo hi ts := by
  induction fuel generalizing lo hi ts with
  | zero => cases order
  | succ fuel ih =>
    cases ts with
    | nil => exact .nil (of_decide_eq_true order)
    | cons t ts =>
      simp only [inOrder, Bool.and_eq_true, decide_eq_true_eq] at order
      obtain ⟨⟨⟨⟨sound, starts⟩, front⟩, parts⟩, rest⟩ := order
      exact .cons (Tree.sound_of_isSound sound) starts (ih front) (ih parts) Nat.le.refl (ih rest)

/-- The hashbang, the directives and the statements stand one after the other. -/
def Program.headed (p : Program) (cs : List Char) : Bool :=
  decide ((∀ bang ∈ p.hashbang, Text.IsBoundary cs bang.stop ∧
      (∀ d ∈ p.directives, bang.stop ≤ d.span.start) ∧ ∀ s ∈ p.body, bang.stop ≤ s.span.start) ∧
    (∀ d ∈ p.directives, Inked cs d.span ∧ ∀ s ∈ p.body, d.span.stop ≤ s.span.start) ∧
    p.directives.Pairwise fun d e => d.span.stop ≤ e.span.start)

/-- The program stands in the text. -/
structure Program.Standing (p : Program) (cs : List Char) : Prop where
  laid : p.Laid
  headed : p.headed cs
  statements {s : Tree} (below : (Node.program p).Below (.tree .statement s)) : Inked cs s.span
  trees {role : Role} {t : Tree} (below : (Node.program p).Below (.tree role t)) : t.standsIn cs

/-- The program stands in the text, as far as its trees are followed. -/
def Program.stands (p : Program) (cs : List Char) (fuel : Nat) : Bool :=
  inOrder fuel p.span.start p.span.stop p.body && p.headed cs && p.walk.all fun v =>
    match v.node with
    | .tree .statement s => decide (Inked cs s.span) && s.standsIn cs
    | .tree _ t => t.standsIn cs
    | .program _ => true

theorem Node.Below.exists_trail {p : Program} {n m : Node} {turns : List Turn} (below : n.Below m)
    (trail : Trail p n turns) : ∃ others, Trail p m others := by
  induction below with
  | here => exact ⟨turns, trail⟩
  | step _ child ih =>
    obtain ⟨others, trail⟩ := ih
    obtain ⟨k, found⟩ := List.getElem?_of_mem child
    exact ⟨_, trail.step found⟩

/-- What is below the program is visited. -/
theorem Program.Laid.exists_visit {p : Program} {n : Node} (laid : p.Laid)
    (below : (Node.program p).Below n) : ∃ v ∈ p.walk, v.node = n := by
  obtain ⟨turns, trail⟩ := below.exists_trail .root
  exact ⟨_, trail.mem_walk laid, rfl⟩

theorem Program.Standing.of_stands {p : Program} {cs : List Char} {fuel : Nat}
    (stands : p.stands cs fuel) : p.Standing cs := by
  simp only [Program.stands, Bool.and_eq_true, List.all_eq_true] at stands
  obtain ⟨⟨order, headed⟩, visits⟩ := stands
  have laid : p.Laid := .of_inOrder order
  refine ⟨laid, headed, fun below => ?_, fun {role t} below => ?_⟩
  · obtain ⟨v, visited, same⟩ := laid.exists_visit below
    have found := visits v visited
    rw [same, Bool.and_eq_true] at found
    exact of_decide_eq_true found.1
  · obtain ⟨v, visited, same⟩ := laid.exists_visit below
    have found := visits v visited
    rw [same] at found
    cases role with
    | statement => exact (Bool.and_eq_true_iff.mp found).2
    | _ => exact found

namespace Program.Standing

variable {p : Program} {cs : List Char}

theorem hashbang (standing : p.Standing cs) {bang : Span} (found : p.hashbang = some bang) :
    Text.IsBoundary cs bang.stop :=
  ((of_decide_eq_true standing.headed).1 bang found).1

theorem directive (standing : p.Standing cs) {d : Directive} (member : d ∈ p.directives) :
    Inked cs d.span ∧ ∀ s ∈ p.body, d.span.stop ≤ s.span.start :=
  (of_decide_eq_true standing.headed).2.1 d member

theorem directives (standing : p.Standing cs) :
    p.directives.Pairwise fun d e => d.span.stop ≤ e.span.start :=
  (of_decide_eq_true standing.headed).2.2

theorem statement (standing : p.Standing cs) {s : Stmt} (member : s ∈ p.body) : Inked cs s.span :=
  standing.statements (.step .here (List.mem_map_of_mem member))

/-- The statements of a program stand one after the other. -/
theorem body (standing : p.Standing cs) : p.body.Pairwise fun s t => s.span.stop ≤ t.span.start :=
  InOrder.pairwise standing.laid

end Program.Standing

end SourceRepair.Script
