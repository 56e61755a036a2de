import SourceRepair.Proofs.Guards.Children
import SourceRepair.Proofs.Guards.Found

/-!
# What guards leave as it is

Guards are put around chains, writes and statements, never around a check. So each check of the
program is a check of the guarded program as well: a test for a global, a statement that leaves
without it, and a callback that runs after rendering protect in the outline what they protect in the
program.
-/

namespace SourceRepair

open Script (Tree Node Program Turn Trail nowhere)

namespace Repair

/-! ### The outline of a tree -/

/-- What the outline of a tree can be: its inside, or the last guard put around it. -/
inductive Shape (gs : List Guard) (t : Tree) : Tree → Prop
  | bare : Shape gs t (t.inner gs)
  | chosen {g : Guard} {u : Tree} (member : g ∈ gs) (wraps : g.wraps t)
    (form : t.root? = some g.root ∨ t.writes) : Shape gs t (g.choose u)
  | tested {g : Guard} {u : Tree} (form : t.isExpression) :
    Shape gs t (.ifThen g.test (.block [u] nowhere) none nowhere)
  | spelled {key value : Tree} {computed : Bool} (form : t.isShorthand) :
    Shape gs t (.property key computed value false none nowhere)

variable {gs : List Guard} {t : Tree}

theorem put_shape {g : Guard} {u : Tree} (member : g ∈ gs) (wraps : g.wraps t)
    (inside : Shape gs t u) : Shape gs t (g.put u) := by
  have form := (Bool.and_eq_true_iff.mp wraps).2
  unfold Guard.put
  cases kind : g.kind with
  | statement =>
    rw [kind] at form
    exact .tested form
  | expression =>
    rw [kind, Bool.or_eq_true, beq_iff_eq] at form
    exact .chosen member wraps form
  | shorthand =>
    rw [kind] at form
    cases inside with
    | bare =>
      cases t with
      | property => exact .spelled form
      | _ => cases form
    | chosen _ _ chain =>
      cases t with
      | property => exact chain.elim nofun nofun
      | _ => cases form
    | tested statement =>
      cases t with
      | property => cases statement
      | _ => cases form
    | spelled => exact .spelled form

theorem outline_shape (t : Tree) : Shape gs t (t.outline gs) := by
  have all : ∀ g ∈ gs.filter (·.wraps t), g ∈ gs ∧ g.wraps t := fun g => List.mem_filter.mp
  unfold Tree.outline around
  generalize gs.filter (·.wraps t) = around at all
  induction around with
  | nil => exact .bare
  | cons g hs ih =>
    obtain ⟨member, wraps⟩ := all g List.mem_cons_self
    exact put_shape member wraps (ih fun h among => all h (List.mem_cons_of_mem _ among))

/-- What is the same for everything that guards go around and for the guards is the same for a tree
and its outline, if it is the same for the tree and its inside. -/
theorem outline_congr {β : Type} {f : Tree → β} {z : β} (chosen : ∀ g u, f (Guard.choose g u) = z)
    (tested : ∀ g u, f (.ifThen (Guard.test g) (.block [u] nowhere) none nowhere) = z)
    (statement : ∀ e s, f (.expression e s) = z)
    (property : ∀ k c v h o s, f (.property k c v h o s) = z)
    (wrapped : ∀ g ∈ gs, g.wraps t → t.root? = some g.root ∨ t.writes → f t = z)
    (inside : f (t.inner gs) = f t) : f (t.outline gs) = f t := by
  have shape : Shape gs t (t.outline gs) := outline_shape t
  generalize t.outline gs = u at shape
  cases shape with
  | bare => exact inside
  | chosen member wraps form => rw [chosen, wrapped _ member wraps form]
  | tested form =>
    cases t with
    | expression => rw [tested, statement]
    | _ => cases form
  | spelled form =>
    cases t with
    | property => rw [property, property]
    | _ => cases form

/-- A tree of a guarded form checks nothing. -/
theorem not_check (root : String) {name : String} (form : t.root? = some name ∨ t.writes) :
    t.string? = none ∧ t.isTypeofOf root = false ∧ t.testsDefined root = false ∧
      t.testsUndefined root = false := by
  induction t using Tree.rec_children with
  | step t ih =>
    cases t with
    | paren inner => exact ih inner List.mem_cons_self (form.imp id nofun)
    | unary op =>
      cases op with
      | delete => exact ⟨rfl, rfl, rfl, rfl⟩
      | _ => exact form.elim nofun nofun
    | identifier | member | index | privateMember | call | ascribe | chain | assign | update =>
      exact ⟨rfl, rfl, rfl, rfl⟩
    | _ => exact form.elim nofun nofun

/-! ### Guards that go around no check -/

/-- The guards are for browser globals, and none goes around a name that `typeof` is applied to. -/
structure Mild (gs : List Guard) (p : Program) : Prop where
  roots : ∀ g ∈ gs, g.root ∈ browserGlobals
  operands : ∀ {b : Tree} {turns : List Turn} {name : String},
    Trail p (.tree .expression b) turns → isOperand turns → b.identifier? = some name →
      ∀ g ∈ gs, g.wraps b = false

section Checks

variable {p : Program} {n c : Node} {k : Nat} {turns : List Turn} (mild : Mild gs p) (root : String)
include mild

theorem identifier?_outline (trail : Trail p (.tree .expression t) turns)
    (operand : isOperand turns) : (t.outline gs).identifier? = t.identifier? := by
  induction t using Tree.rec_children generalizing turns with
  | step t ih =>
    refine outline_congr (z := none) (fun _ _ => rfl) (fun _ _ => rfl) (fun _ _ => rfl)
      (fun _ _ _ _ _ _ => rfl) (fun g member wraps _ => ?_) ?_
    · cases named : t.identifier? with
      | none => rfl
      | some name =>
        rw [mild.operands trail operand named g member] at wraps
        cases wraps
    · cases t with
      | paren inner => exact ih inner List.mem_cons_self (trail.step (k := 0) rfl) operand
      | _ => rfl

theorem isTypeofOf_outline (trail : Trail p (.tree .expression t) turns) :
    (t.outline gs).isTypeofOf root = t.isTypeofOf root := by
  induction t using Tree.rec_children generalizing turns with
  | step t ih =>
    refine outline_congr (z := false) (fun _ _ => rfl) (fun _ _ => rfl) (fun _ _ => rfl)
      (fun _ _ _ _ _ _ => rfl) (fun _ _ _ form => (not_check root form).2.1) ?_
    cases t with
    | paren inner => exact ih inner List.mem_cons_self (trail.step (k := 0) rfl)
    | unary op argument =>
      cases op with
      | typeof =>
        have below := trail.step (k := 0) (c := .tree .expression argument) rfl
        exact congrArg (· == some root) (identifier?_outline mild below rfl)
      | _ => rfl
    | _ => rfl

omit mild in
theorem string?_outline (t : Tree) : (t.outline gs).string? = t.string? := by
  induction t using Tree.rec_children with
  | step t ih =>
    refine outline_congr (z := none) (fun _ _ => rfl) (fun _ _ => rfl) (fun _ _ => rfl)
      (fun _ _ _ _ _ _ => rfl) (fun g _ _ form => (not_check g.root form).1) ?_
    cases t with
    | paren inner => exact ih inner List.mem_cons_self
    | _ => rfl

theorem comparesTypeof_inner {ops : List Script.BinaryOp}
    (trail : Trail p (.tree .expression t) turns) :
    (t.inner gs).comparesTypeof root ops = t.comparesTypeof root ops := by
  cases t with
  | binary op left right =>
    have first := isTypeofOf_outline mild root
      (trail.step (k := 0) (c := .tree .expression left) rfl)
    have second := isTypeofOf_outline mild root
      (trail.step (k := 1) (c := .tree .expression right) rfl)
    change (_ && (((left.outline gs).isTypeofOf root && (right.outline gs).string? == _) ||
      ((right.outline gs).isTypeofOf root && (left.outline gs).string? == _))) = _
    rw [first, second, string?_outline, string?_outline]
    rfl
  | _ => rfl

/-- A test for a global stays one. -/
theorem tests_outline (trail : Trail p (.tree .expression t) turns) :
    (t.outline gs).testsDefined root = t.testsDefined root ∧
      (t.outline gs).testsUndefined root = t.testsUndefined root := by
  induction t using Tree.rec_children generalizing turns with
  | step t ih =>
    constructor
    · refine outline_congr (z := false) (fun _ _ => rfl) (fun _ _ => rfl) (fun _ _ => rfl)
        (fun _ _ _ _ _ _ => rfl) (fun _ _ _ form => (not_check root form).2.2.1) ?_
      cases t with
      | paren inner => exact (ih inner List.mem_cons_self (trail.step (k := 0) rfl)).1
      | logical op left right =>
        cases op with
        | and =>
          have first := (ih left List.mem_cons_self (trail.step (k := 0) rfl)).1
          have second := (ih right (by simp [Tree.children]) (trail.step (k := 1) rfl)).1
          change (_ || _) = (_ || _)
          rw [← first, ← second]
          rfl
        | _ => rfl
      | binary => exact comparesTypeof_inner mild root trail
      | _ => rfl
    · refine outline_congr (z := false) (fun _ _ => rfl) (fun _ _ => rfl) (fun _ _ => rfl)
        (fun _ _ _ _ _ _ => rfl) (fun _ _ _ form => (not_check root form).2.2.2) ?_
      cases t with
      | paren inner => exact (ih inner List.mem_cons_self (trail.step (k := 0) rfl)).2
      | logical op left right =>
        cases op with
        | or =>
          have first := (ih left List.mem_cons_self (trail.step (k := 0) rfl)).2
          have second := (ih right (by simp [Tree.children]) (trail.step (k := 1) rfl)).2
          change (_ || _) = (_ || _)
          rw [← first, ← second]
          rfl
        | _ => rfl
      | binary => exact comparesTypeof_inner mild root trail
      | _ => rfl

/-! ### Statements that leave -/

omit mild in
theorem exits_outline (t : Tree) : (t.outline gs).exits = t.exits := by
  refine outline_congr (z := false) (fun _ _ => rfl) (fun _ _ => rfl) (fun _ _ => rfl)
    (fun _ _ _ _ _ _ => rfl) (fun _ _ _ form => ?_) ?_
  · cases t with
    | returns | throws => exact form.elim nofun nofun
    | _ => rfl
  · cases t <;> rfl

omit mild in
theorem ends_outlines (ts : List Tree) :
    (Script.outlines gs ts).getLast?.any Tree.exits = ts.getLast?.any Tree.exits := by
  rw [Script.outlines_eq_map, List.getLast?_map]
  cases ts.getLast? with
  | none => rfl
  | some t => exact exits_outline t

/-- A branch after which control does not go on. -/
def leaves : Tree → Bool
  | .block statements _ => statements.getLast?.any Tree.exits
  | s => s.exits

omit mild in
theorem leaves_outline (t : Tree) : leaves (t.outline gs) = leaves t := by
  refine outline_congr (z := false) (fun _ _ => rfl) (fun _ _ => rfl) (fun _ _ => rfl)
    (fun _ _ _ _ _ _ => rfl) (fun _ _ _ form => ?_) ?_
  · cases t with
    | returns | throws | block => exact form.elim nofun nofun
    | _ => rfl
  · cases t with
    | block statements => exact ends_outlines statements
    | _ => rfl

omit mild in
theorem isExitGuard_ifThen (test yes : Tree) (no : Option Tree) (s : Span) :
    (Tree.ifThen test yes no s).isExitGuard root =
      (no.isNone && (test.testsUndefined root && leaves yes)) := by
  cases no with
  | none => cases yes <;> rfl
  | some no => cases yes <;> rfl

/-- A statement that leaves without a global stays one. -/
theorem isExitGuard_outline (trail : Trail p (.tree .statement t) turns) :
    (t.outline gs).isExitGuard root = t.isExitGuard root := by
  refine outline_congr (z := false) (fun _ _ => rfl) (fun _ _ => rfl) (fun _ _ => rfl)
    (fun _ _ _ _ _ _ => rfl) (fun _ _ _ form => ?_) ?_
  · cases t with
    | ifThen => exact form.elim nofun nofun
    | _ => rfl
  · cases t with
    | ifThen test yes no s =>
      have kept := (tests_outline mild root
        (trail.step (k := 0) (c := .tree .expression test) rfl)).2
      change (Tree.ifThen (test.outline gs) (yes.outline gs) (Script.outline? gs no)
        nowhere).isExitGuard root = _
      rw [isExitGuard_ifThen, isExitGuard_ifThen, kept, leaves_outline, Script.outline?_eq_map,
        Option.isNone_map]
    | _ => rfl

theorem exitsWithout_outline (trail : Trail p n turns) :
    exitsWithout root (n.outline gs) = exitsWithout root n := by
  cases n with
  | program => rfl
  | tree role t =>
    cases role with
    | statement => exact isExitGuard_outline mild root trail
    | _ => rfl

/-! ### Callbacks after rendering -/

omit mild in
theorem dottedName?_root {name : String} (dotted : t.dottedName? = some name) :
    ∃ root rest, t.root? = some root ∧ name.toList = root.toList ++ rest := by
  induction t using Tree.rec_children generalizing name with
  | step t ih =>
    cases t with
    | identifier text => exact ⟨text, [], rfl, by cases dotted; simp⟩
    | member object property =>
      obtain ⟨first, found, same⟩ := Option.map_eq_some_iff.mp dotted
      obtain ⟨root, rest, chain, start⟩ := ih object List.mem_cons_self found
      refine ⟨root, rest ++ ("." ++ property.text).toList, chain, ?_⟩
      rw [← same, String.append_assoc, String.toList_append, start, List.append_assoc]
    | paren inner => exact ih inner List.mem_cons_self dotted
    | _ => cases dotted

omit mild in
theorem not_effectHook {name root : String} {rest : List Char} (isGlobal : root ∈ browserGlobals)
    (start : name.toList = root.toList ++ rest) : Tree.effectHooks.contains name = false := by
  refine Bool.eq_false_iff.mpr fun hook => ?_
  have apart : ∀ root ∈ browserGlobals, ∀ name ∈ Tree.effectHooks,
      root.toList.isPrefixOf name.toList = false := by decide
  have begins : root.toList.isPrefixOf name.toList = true := by
    rw [List.isPrefixOf_iff_prefix, start]
    exact List.prefix_append _ _
  rw [apart root isGlobal name (List.contains_iff_mem.mp hook)] at begins
  cases begins

omit mild in
theorem dottedName?_of_outline {name : String} (dotted : (t.outline gs).dottedName? = some name) :
    t.dottedName? = some name := by
  induction t using Tree.rec_children generalizing name with
  | step t ih =>
    have shape : Shape gs t (t.outline gs) := outline_shape t
    generalize t.outline gs = u at shape dotted
    cases shape with
    | bare =>
      cases t with
      | member object property =>
        obtain ⟨first, found, same⟩ := Option.map_eq_some_iff.mp dotted
        exact Option.map_eq_some_iff.mpr ⟨first, ih object List.mem_cons_self found, same⟩
      | paren inner => exact ih inner List.mem_cons_self dotted
      | _ => exact dotted
    | _ => cases dotted

/-- Guards for browser globals leave other dotted names as they are. -/
theorem dottedName?_outline {first : String} (chain : t.root? = some first)
    (other : first ∉ browserGlobals) : (t.outline gs).dottedName? = t.dottedName? := by
  induction t using Tree.rec_children with
  | step t ih =>
    refine outline_congr (z := none) (fun _ _ => rfl) (fun _ _ => rfl) (fun _ _ => rfl)
      (fun _ _ _ _ _ _ => rfl) (fun g member _ form => ?_) ?_
    · rcases form with same | writes
      · rw [chain] at same
        cases same
        exact absurd (mild.roots g member) other
      · cases t with
        | member | paren => cases writes
        | identifier => cases writes
        | _ => rfl
    · cases t with
      | member object property =>
        exact congrArg (Option.map _) (ih object List.mem_cons_self chain)
      | paren inner => exact ih inner List.mem_cons_self chain
      | _ => rfl

theorem calls_effectHook_outline (t : Tree) :
    (t.outline gs).dottedName?.any Tree.effectHooks.contains =
      t.dottedName?.any Tree.effectHooks.contains := by
  rw [Bool.eq_iff_iff, Option.any_eq_true, Option.any_eq_true]
  constructor
  · rintro ⟨name, dotted, hook⟩
    exact ⟨name, dottedName?_of_outline dotted, hook⟩
  · rintro ⟨name, dotted, hook⟩
    obtain ⟨first, rest, chain, start⟩ := dottedName?_root dotted
    refine ⟨name, ?_, hook⟩
    rw [dottedName?_outline mild chain, dotted]
    intro isGlobal
    rw [not_effectHook isGlobal start] at hook
    cases hook

/-! ### Turns -/

omit mild in
theorem argument?_outlines (args : List Tree) :
    (Tree.argument? (Script.outlines gs args) 0).isSome = (Tree.argument? args 0).isSome := by
  cases args with
  | nil => rfl
  | cons a args =>
    change (a.outline gs).element?.isSome = a.element?.isSome
    refine outline_congr (f := fun t => t.element?.isSome) (z := true) (fun _ _ => rfl)
      (fun _ _ => rfl) (fun _ _ => rfl) (fun _ _ _ _ _ _ => rfl) (fun _ _ _ form => ?_) ?_
    · cases a with
      | spread | hole => exact form.elim nofun nofun
      | _ => rfl
    · cases a <;> rfl

/-- A node of the outline protects what the node of the program protects. -/
theorem shields_inner (trail : Trail p n turns) (k : Nat) :
    shields root (n.inner gs, k) = shields root (n, k) := by
  have list : ((n.inner gs).children.take k).any (exitsWithout root) =
      (n.children.take k).any (exitsWithout root) := by
    have same : ∀ c ∈ n.children.take k,
        exitsWithout root (c.outline gs) = exitsWithout root c := by
      intro c member
      obtain ⟨j, child⟩ := List.getElem?_of_mem (List.mem_of_mem_take member)
      exact exitsWithout_outline mild root (trail.step child)
    rw [Script.children_inner, ← List.map_take, List.any_map, Bool.eq_iff_iff, List.any_eq_true,
      List.any_eq_true]
    exact exists_congr fun c => and_congr_right fun member => by rw [← same c member]; rfl
  cases n with
  | program => exact list
  | tree role t =>
    cases role with
    | expression =>
      cases t with
      | conditional test yes no =>
        have kept := tests_outline mild root (trail.step (k := 0) (c := .tree .expression test) rfl)
        change ((k == 1 && (test.outline gs).testsDefined root) ||
          (k == 2 && (test.outline gs).testsUndefined root)) = _
        rw [kept.1, kept.2]
        rfl
      | logical op left right =>
        have kept := tests_outline mild root (trail.step (k := 0) (c := .tree .expression left) rfl)
        cases op with
        | and => exact congrArg (k == 1 && ·) kept.1
        | or => exact congrArg (k == 1 && ·) kept.2
        | coalesce => rfl
      | call callee args optional span =>
        change ((callee.outline gs).dottedName?.any _ &&
          ((Tree.argument? (Script.outlines gs args) 0).isSome && _)) = _
        rw [calls_effectHook_outline mild, argument?_outlines]
        rfl
      | _ => rfl
    | statement =>
      cases t with
      | ifThen test yes no =>
        have kept := tests_outline mild root (trail.step (k := 0) (c := .tree .expression test) rfl)
        change ((k == 1 && (test.outline gs).testsDefined root) ||
          (k == 2 && (test.outline gs).testsUndefined root)) = _
        rw [kept.1, kept.2]
        rfl
      | block => exact list
      | _ => rfl
    | block =>
      cases t with
      | tryPart => exact list
      | _ => rfl
    | functionBody =>
      cases t with
      | body => exact list
      | _ => rfl
    | switchCase =>
      cases t with
      | switchCase => exact list
      | _ => rfl
    | _ => rfl

omit mild in
theorem carries_inner (n : Node) (k : Nat) : carries (n.inner gs, k) = carries (n, k) := by
  cases n with
  | program => rfl
  | tree role t =>
    cases role with
    | expression =>
      cases t with
      | ascribe kind => cases kind <;> rfl
      | _ => rfl
    | chainMember | chainCall => cases t <;> rfl
    | _ => rfl

omit mild in
theorem isTypeof_inner (n : Node) : isTypeof (n.inner gs) = isTypeof n := by
  cases n with
  | program => rfl
  | tree role t =>
    cases role with
    | expression =>
      cases t with
      | unary op => cases op <;> rfl
      | _ => rfl
    | _ => rfl

end Checks

end Repair

end SourceRepair
