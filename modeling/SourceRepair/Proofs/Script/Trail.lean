import SourceRepair.Proofs.Script.Family

/-!
# Trails

A trail leads from a program down to a node, and says at each node which child it goes on with. The
trails of a program are the visits of its walk. In a program whose trees stand in order, two nodes
either lie on one trail or stand apart in the text, and a name is bound at a node exactly when it is
declared on the trail to it.
-/

namespace SourceRepair.Script

/-! ### Nodes in order -/

namespace Seats

variable {proper : Bool} {t : Tree} {lo hi : Nat} {family : List (List String × Node)}

theorem get (seats : Seats proper t lo hi family) {k : Nat} {names : List String} {c : Node}
    (found : family[k]? = some (names, c)) :
    ∃ role u a b, c = .tree role u ∧ Reach t names u ∧ (proper → u.size < t.size) ∧
      InOrder a b [u] ∧ lo ≤ a ∧ b ≤ hi := by
  induction seats generalizing k with
  | nil => cases found
  | @cons lo mid hi names' role u family reach smaller order rest ih =>
    cases k with
    | zero =>
      cases found
      exact ⟨role, u, lo, mid, rfl, reach, smaller, order, Nat.le.refl, rest.le⟩
    | succ k =>
      obtain ⟨role, u', a, b, rfl, reach, smaller, inside, above, below⟩ := ih found
      have := order.le
      exact ⟨role, u', a, b, rfl, reach, smaller, inside, by omega, below⟩

theorem before (seats : Seats proper t lo hi family) {j k : Nat} {f g : List String × Node}
    (lt : j < k) (first : family[j]? = some f) (second : family[k]? = some g) :
    f.2.span.stop ≤ g.2.span.start := by
  induction seats generalizing j k with
  | nil => cases first
  | @cons lo mid hi names role u family reach smaller order rest ih =>
    obtain ⟨k, rfl⟩ : ∃ n, k = n + 1 := ⟨k - 1, by omega⟩
    cases j with
    | zero =>
      cases first
      obtain ⟨names', c⟩ := g
      obtain ⟨role', v, a, b, rfl, -, -, inside, above, -⟩ := rest.get second
      have := order.stops
      have := inside.starts
      change u.span.stop ≤ v.span.start
      omega
    | succ j => exact ih (by omega) first second

end Seats

namespace Node

/-- The trees of the node stand in order. -/
def Laid : Node → Prop
  | program p => p.Laid
  | tree _ t => ∃ lo hi, InOrder lo hi [t]

/-- How far a walk from the node can go down. A tree entered as a statement or an expression may be
entered once more in another role. -/
def weight : Node → Nat
  | program p => 2 * (program p).size
  | tree .statement t | tree .expression t => 2 * t.size + 1
  | tree _ t => 2 * t.size

theorem weight_tree (role : Role) (t : Tree) :
    2 * t.size ≤ (tree role t).weight ∧ (tree role t).weight ≤ 2 * t.size + 1 := by
  cases role <;> simp only [weight] <;> omega

theorem weight_pos (n : Node) : 0 < n.weight := by
  cases n with
  | program p =>
    simp only [weight, size]
    omega
  | tree role t =>
    have := weight_tree role t
    have := size_eq t
    omega

variable {n c : Node} {k : Nat}

theorem exists_family (child : n.children[k]? = some c) :
    ∃ names, n.family[k]? = some (names, c) := by
  rw [← family_nodes, List.getElem?_map, Option.map_eq_some_iff] at child
  obtain ⟨⟨names, c'⟩, found, rfl⟩ := child
  exact ⟨names, found⟩

theorem family_program {p : Program} {names : List String}
    (found : (program p).family[k]? = some (names, c)) :
    ∃ s, p.body[k]? = some s ∧ names = Tree.bodyNames p.body ∧ c = .tree .statement s := by
  simp only [family, List.getElem?_map, Option.map_eq_some_iff, Prod.mk.injEq] at found
  obtain ⟨s, member, rfl, rfl⟩ := found
  exact ⟨s, member, rfl, rfl⟩

theorem Laid.exists_tree (laid : n.Laid) (child : n.children[k]? = some c) :
    ∃ role t, c = .tree role t := by
  obtain ⟨names, found⟩ := exists_family child
  cases n with
  | program p =>
    obtain ⟨s, -, -, rfl⟩ := family_program found
    exact ⟨.statement, s, rfl⟩
  | tree role t =>
    obtain ⟨lo, hi, order⟩ := laid
    obtain ⟨role', u, -, -, rfl, -⟩ := (family_seats order).get found
    exact ⟨role', u, rfl⟩

/-- A child stands in the span of its node, and its trees stand in order as well. -/
theorem Laid.child (laid : n.Laid) (child : n.children[k]? = some c) :
    c.Laid ∧ n.span.start ≤ c.span.start ∧ c.span.start ≤ c.span.stop ∧
      c.span.stop ≤ n.span.stop := by
  obtain ⟨names, found⟩ := exists_family child
  cases n with
  | program p =>
    obtain ⟨s, member, rfl, rfl⟩ := family_program found
    obtain ⟨a, b, above, below, order⟩ := laid.of_mem (List.mem_of_getElem? member)
    exact ⟨⟨a, b, order⟩, Nat.le_trans above order.starts, order.start_le_stop,
      Nat.le_trans order.stops below⟩
  | tree role t =>
    obtain ⟨lo, hi, order⟩ := laid
    obtain ⟨role', u, a, b, rfl, -, -, inside, above, below⟩ := (family_seats order).get found
    exact ⟨⟨a, b, inside⟩, Nat.le_trans above inside.starts, inside.start_le_stop,
      Nat.le_trans inside.stops below⟩

theorem before_of_lt {lo hi : Nat} {ts : List Tree} (order : InOrder lo hi ts) {j k : Nat}
    (lt : j < k) {t u : Tree} (first : ts[j]? = some t) (second : ts[k]? = some u) :
    t.span.stop ≤ u.span.start := by
  induction ts generalizing lo j k with
  | nil => cases first
  | cons v ts ih =>
    obtain ⟨mid, itself, rest⟩ := order.of_cons
    obtain ⟨k, rfl⟩ : ∃ n, k = n + 1 := ⟨k - 1, by omega⟩
    cases j with
    | zero =>
      cases first
      obtain ⟨a, b, above, -, inside⟩ := rest.of_mem (List.mem_of_getElem? (i := k) second)
      have := itself.stops
      have := inside.starts
      omega
    | succ j => exact ih rest (by omega) first second

/-- Of two children the first ends before the second starts. -/
theorem Laid.before (laid : n.Laid) {j : Nat} {d : Node} (lt : j < k)
    (first : n.children[j]? = some d) (second : n.children[k]? = some c) :
    d.span.stop ≤ c.span.start := by
  obtain ⟨names, found⟩ := exists_family first
  obtain ⟨names', found'⟩ := exists_family second
  cases n with
  | program p =>
    obtain ⟨s, member, rfl, rfl⟩ := family_program found
    obtain ⟨s', member', rfl, rfl⟩ := family_program found'
    exact before_of_lt laid lt member member'
  | tree role t =>
    obtain ⟨lo, hi, order⟩ := laid
    exact (family_seats order).before lt found found'

/-- A tree that is its own child is entered in its last role there. -/
theorem weight_lt_of_same {role : Role} {t : Tree} (same : (tree role t).descends = false)
    (child : (tree role t).children[k]? = some c) : c.weight < (tree role t).weight := by
  cases role with
  | expression =>
    cases t with
    | function | jsxElement =>
      cases List.mem_singleton.mp (List.mem_of_getElem? child)
      exact Nat.lt_succ_self _
    | _ => cases same
  | statement =>
    cases t with
    | declaration =>
      cases List.mem_singleton.mp (List.mem_of_getElem? child)
      exact Nat.lt_succ_self _
    | _ => cases same
  | _ => cases same

theorem Laid.weight_lt (laid : n.Laid) (child : n.children[k]? = some c) :
    c.weight < n.weight := by
  obtain ⟨names, found⟩ := exists_family child
  cases n with
  | program p =>
    obtain ⟨s, member, rfl, rfl⟩ := family_program found
    have := size_le_sizeList (List.mem_of_getElem? member)
    simp only [weight, size]
    omega
  | tree role t =>
    obtain ⟨lo, hi, order⟩ := laid
    obtain ⟨role', u, a, b, rfl, -, smaller, -⟩ := (family_seats order).get found
    cases descends : (tree role t).descends with
    | true =>
      have := smaller descends
      have := weight_tree role t
      have := weight_tree role' u
      omega
    | false =>
      exact weight_lt_of_same descends child

end Node

/-! ### Trails -/

/-- A node below which a trail goes on, and the child with which it does. -/
abbrev Turn := Node × Nat

/-- The way from the program down to a node, with the last turn first. -/
inductive Trail (p : Program) : Node → List Turn → Prop
  | root : Trail p (.program p) []
  | step {n c : Node} {turns : List Turn} {k : Nat} (trail : Trail p n turns)
    (child : n.children[k]? = some c) : Trail p c ((n, k) :: turns)

/-- The nodes that a trail passes, innermost first. -/
def passed (turns : List Turn) : List Node := turns.map Prod.fst

variable {p : Program} {n m : Node} {turns others : List Turn}

theorem Trail.laid (trail : Trail p n turns) (laid : p.Laid) : n.Laid := by
  induction trail with
  | root => exact laid
  | step _ child ih => exact (ih.child child).1

theorem trail_of_mem_walkFrom {fuel : Nat} {v : Visit} (trail : Trail p n turns)
    (visited : v ∈ walkFrom fuel (passed turns) n) :
    ∃ turns, Trail p v.node turns ∧ v.ancestors = passed turns := by
  induction fuel generalizing n turns with
  | zero => cases visited
  | succ fuel ih =>
    rw [walkFrom, List.mem_cons, List.mem_flatMap] at visited
    rcases visited with rfl | ⟨c, child, visited⟩
    · exact ⟨turns, trail, rfl⟩
    · obtain ⟨k, child⟩ := List.getElem?_of_mem child
      exact ih (trail.step child) visited

/-- Every visit of the walk is at the end of a trail. -/
theorem trail_of_mem_walk {v : Visit} (visited : v ∈ p.walk) :
    ∃ turns, Trail p v.node turns ∧ v.ancestors = passed turns :=
  trail_of_mem_walkFrom .root visited

theorem Trail.walkFrom_subset (trail : Trail p n turns) (laid : p.Laid) :
    ∃ fuel, n.weight ≤ fuel ∧ walkFrom fuel (passed turns) n ⊆ p.walk := by
  induction trail with
  | root => exact ⟨_, Nat.le.refl, fun _ visited => visited⟩
  | @step n c turns k trail child ih =>
    obtain ⟨fuel, enough, within⟩ := ih
    have lighter := (trail.laid laid).weight_lt child
    obtain ⟨fuel, rfl⟩ : ∃ m, fuel = m + 1 := ⟨fuel - 1, by omega⟩
    refine ⟨fuel, by omega, fun v visited => within ?_⟩
    rw [walkFrom, List.mem_cons, List.mem_flatMap]
    exact .inr ⟨c, List.mem_of_getElem? child, visited⟩

/-- The walk visits the end of every trail. -/
theorem Trail.mem_walk (trail : Trail p n turns) (laid : p.Laid) :
    ⟨n, passed turns⟩ ∈ p.walk := by
  obtain ⟨fuel, enough, within⟩ := trail.walkFrom_subset laid
  have positive := n.weight_pos
  obtain ⟨fuel, rfl⟩ : ∃ m, fuel = m + 1 := ⟨fuel - 1, by omega⟩
  apply within
  rw [walkFrom]
  exact List.mem_cons_self

/-! ### Nodes that stand apart -/

/-- A trail goes on from one node to another. -/
inductive Leads (n : Node) (turns : List Turn) : Node → List Turn → Prop
  | here : Leads n turns n turns
  | step {m c : Node} {others : List Turn} {k : Nat} (leads : Leads n turns m others)
    (child : m.children[k]? = some c) : Leads n turns c ((m, k) :: others)

theorem Trail.leads (trail : Trail p n turns) : Leads (.program p) [] n turns := by
  induction trail with
  | root => exact .here
  | step _ child ih => exact ih.step child

theorem Leads.trans {l : Node} {more : List Turn} (first : Leads l more n turns)
    (leads : Leads n turns m others) : Leads l more m others := by
  induction leads with
  | here => exact first
  | step _ child ih => exact ih.step child

theorem Leads.trail (leads : Leads n turns m others) (trail : Trail p n turns) : Trail p m others := by
  induction leads with
  | here => exact trail
  | step _ child ih => exact ih.step child

theorem Leads.length_le (leads : Leads n turns m others) : turns.length ≤ others.length := by
  induction leads with
  | here => exact Nat.le.refl
  | step _ _ ih => exact Nat.le_succ_of_le ih

/-- A trail that is not longer than the one it goes on from has not gone on. -/
theorem Leads.eq_of_length_le (leads : Leads n turns m others) (short : others.length ≤ turns.length) :
    m = n ∧ others = turns := by
  cases leads with
  | here => exact ⟨rfl, rfl⟩
  | step leads =>
    have := leads.length_le
    rw [List.length_cons] at short
    omega

theorem Leads.mem (leads : Leads n turns m others) : n ∈ m :: passed others := by
  induction leads with
  | here => exact List.mem_cons_self
  | step _ _ ih => exact List.mem_cons_of_mem _ ih

theorem Leads.first (leads : Leads n turns m others) :
    (m = n ∧ others = turns) ∨
      ∃ k c, n.children[k]? = some c ∧ Leads c ((n, k) :: turns) m others := by
  induction leads with
  | here => exact .inl ⟨rfl, rfl⟩
  | @step m c others k leads child ih =>
    rcases ih with ⟨rfl, rfl⟩ | ⟨j, d, first, rest⟩
    · exact .inr ⟨k, c, child, .here⟩
    · exact .inr ⟨j, d, first, rest.step child⟩

theorem Leads.within (leads : Leads n turns m others) (laid : n.Laid) :
    m.Laid ∧ n.span.start ≤ m.span.start ∧ m.span.stop ≤ n.span.stop := by
  induction leads with
  | here => exact ⟨laid, Nat.le.refl, Nat.le.refl⟩
  | step _ child ih =>
    obtain ⟨inner, starts, -, stops⟩ := ih.1.child child
    exact ⟨inner, by omega, by omega⟩

/-- One of the nodes stands before the other. -/
def Apart (n m : Node) : Prop := n.span.stop ≤ m.span.start ∨ m.span.stop ≤ n.span.start

/-- In the program every node lies in the span of the one above, and the children of a node stand apart. -/
structure Program.Nested (p : Program) : Prop where
  within {n c : Node} {turns : List Turn} {k : Nat} (trail : Trail p n turns)
    (child : n.children[k]? = some c) : n.span.covers c.span
  apart {n c d : Node} {turns : List Turn} {j k : Nat} (trail : Trail p n turns) (lt : j < k)
    (first : n.children[j]? = some d) (second : n.children[k]? = some c) : Apart d c

theorem Program.Laid.nested (laid : p.Laid) : p.Nested where
  within trail child := by
    obtain ⟨-, starts, -, stops⟩ := (trail.laid laid).child child
    exact covers_iff.mpr ⟨starts, stops⟩
  apart trail lt first second := .inl ((trail.laid laid).before lt first second)

theorem Program.Nested.covers (nested : p.Nested) (trail : Trail p n turns)
    (leads : Leads n turns m others) : n.span.covers m.span := by
  induction leads with
  | here => exact covers_iff.mpr ⟨Nat.le.refl, Nat.le.refl⟩
  | step leads child ih =>
    have outer := covers_iff.mp ih
    have inner := covers_iff.mp (nested.within (leads.trail trail) child)
    exact covers_iff.mpr ⟨by omega, by omega⟩

/-- Two nodes lie on one trail or stand apart. -/
theorem Program.Nested.leads_or_apart (nested : p.Nested) (trail : Trail p n turns)
    (other : Trail p m others) : Leads m others n turns ∨ Leads n turns m others ∨ Apart n m := by
  induction trail with
  | root => exact .inr (.inl other.leads)
  | @step n c turns k trail child ih =>
    have inner := covers_iff.mp (nested.within trail child)
    rcases ih with up | down | apart
    · exact .inl (up.step child)
    · rcases down.first with ⟨rfl, rfl⟩ | ⟨j, d, first, rest⟩
      · exact .inl (Leads.here.step child)
      · have outer := covers_iff.mp (nested.covers (trail.step first) rest)
        rcases Nat.lt_trichotomy j k with lt | rfl | lt
        · rcases nested.apart trail lt first child with before | after
          · exact .inr (.inr (.inr (by omega)))
          · exact .inr (.inr (.inl (by omega)))
        · rw [child] at first
          cases first
          exact .inr (.inl rest)
        · rcases nested.apart trail lt child first with before | after
          · exact .inr (.inr (.inl (by omega)))
          · exact .inr (.inr (.inr (by omega)))
    · rcases apart with before | after
      · exact .inr (.inr (.inl (by omega)))
      · exact .inr (.inr (.inr (by omega)))

theorem Trail.leads_or_apart (trail : Trail p n turns) (other : Trail p m others) (laid : p.Laid) :
    Leads m others n turns ∨ Leads n turns m others ∨ Apart n m :=
  laid.nested.leads_or_apart trail other

/-- The name is declared for the child that the trail goes on with. -/
def Turn.declares (name : String) (turn : Turn) : Bool :=
  (turn.1.family[turn.2]?).any (·.1.contains name)

/-- The name is declared on the trail. -/
def declared (name : String) (turns : List Turn) : Bool := turns.any (Turn.declares name)

theorem Turn.declares_iff {name : String} {names : List String} {c : Node} {k : Nat}
    (found : n.family[k]? = some (names, c)) : Turn.declares name (n, k) ↔ name ∈ names := by
  simp only [Turn.declares, found, Option.any_some, List.contains_iff_mem]

theorem Trail.isBound_iff_step {role : Role} {t : Tree} {name : String} {place : Span}
    (trail : Trail p (.tree role t) turns) (laid : p.Laid) (wide : place.start < place.stop)
    (covers : t.span.covers place) :
    isBound p.scopes name place ↔ declared name turns ∨ Binds [t] name place := by
  generalize ending : Node.tree role t = n at trail
  induction trail generalizing role t with
  | root => cases ending
  | @step n c turns k trail child ih =>
    subst ending
    obtain ⟨names, found⟩ := Node.exists_family child
    rw [declared, List.any_cons, Bool.or_eq_true, Turn.declares_iff found]
    cases n with
    | program q =>
      cases trail with
      | step above inside =>
        obtain ⟨_, _, impossible⟩ := (above.laid laid).exists_tree inside
        cases impossible
      | root =>
        obtain ⟨s, member, rfl, same⟩ := Node.family_program found
        cases same
        have among := List.mem_of_getElem? member
        obtain ⟨a, b, above, below, order⟩ := InOrder.of_mem laid among
        have := covers_iff.mp covers
        have := order.starts
        have := order.stops
        have whole : p.span.covers place := covers_iff.mpr ⟨by omega, by omega⟩
        rw [isBound_iff, InOrder.binds_iff_of_mem laid among wide covers, and_iff_right whole]
        simp only [List.any_nil, Bool.false_eq_true, or_false]
    | tree role' v =>
      obtain ⟨lo, hi, order⟩ := trail.laid laid
      obtain ⟨role'', u, a, b, same, reach, -, inside, -⟩ := (family_seats order).get found
      cases same
      obtain ⟨outer, iff⟩ : v.span.covers place ∧ (Binds [v] name place ↔ _) :=
        reach.binds_iff order wide covers
      rw [ih outer rfl, iff, declared, ← or_assoc, or_comm (b := name ∈ names)]

end SourceRepair.Script
