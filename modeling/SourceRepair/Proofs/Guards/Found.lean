import SourceRepair.Proofs.Guards.Chains

/-!
# The guards that a program needs

Every use of a browser global is bound, protected, checked by `typeof`, or lies inside a node that a
guard for the global goes around; and every guard goes around a node on the trail to a use of its
global. A program in which each use is bound, protected or checked needs no guard. What `typeof` is
applied to never gets one.
-/

namespace SourceRepair.Repair

open Script

/-- The guard goes around the node. -/
def Guard.fits (g : Guard) : Node → Bool
  | .tree .statement t => g.kind == .statement && g.wraps t
  | .tree .objectProperty t => g.kind == .shorthand && g.wraps t
  | .tree .expression t => g.kind == .expression && g.wraps t
  | _ => false

/-- The use of a global at the end of a trail needs no guard. -/
def settled (root : String) (turns : List Turn) : Bool :=
  declared root turns || shielded root turns || underTypeof turns

variable {p : Program} {n m : Node} {turns above : List Turn} {root : String} {s : Span}
  {g : Guard} {found : List Guard}

theorem Guard.For.fits (goesAround : g.For m above) : g.fits m := by
  cases goesAround with
  | statement kind span form | shorthand kind span form =>
    simp only [Guard.fits, Guard.wraps, kind, span, form, beq_self_eq_true, Bool.and_self]
  | write kind span form | chain kind span form =>
    simp only [Guard.fits, Guard.wraps, kind, span, form, beq_self_eq_true, Bool.and_self,
      Bool.or_true, Bool.true_or]

/-! ### A use of a global -/

/-- The end of the trail is a use of the global. -/
abbrev Uses (p : Program) (root : String) (s : Span) (turns : List Turn) : Prop :=
  Trail p (.tree .expression (.identifier root s)) turns

namespace Uses

theorem wide (use : Uses p root s turns) (laid : p.Laid) : s.start < s.stop := by
  obtain ⟨lo, hi, order⟩ := Trail.laid use laid
  exact order.sound

theorem isBound_eq (use : Uses p root s turns) (laid : p.Laid) :
    isBound p.scopes root s = declared root turns := by
  have covers : (Tree.identifier root s).span.covers s :=
    covers_iff.mpr ⟨Nat.le.refl, Nat.le.refl⟩
  rw [Bool.eq_iff_iff, Trail.isBound_iff_step use laid (use.wide laid) covers]
  refine or_iff_left ?_
  rintro ⟨t, member, scope, opens, -⟩
  cases List.mem_singleton.mp member
  cases opens with
  | own opened => cases opened
  | deeper child => cases child

theorem isGuarded_eq (use : Uses p root s turns) (laid : p.Laid) :
    isGuarded root s (passed turns) = shielded root turns :=
  Repair.isGuarded_eq use laid (use.wide laid)

theorem guardFor?_of_checked (use : Uses p root s turns) (laid : p.Laid)
    (checked : underTypeof turns) : guardFor? root (growChain s (passed turns)) = none := by
  obtain ⟨r, above, w, top, -, -, topped⟩ := chainTop_spec use rfl rfl
  have grown := growChain_eq use laid (use.wide laid)
  rw [top] at grown
  exact (congrArg (guardFor? root) grown).trans (guardFor?_none checked topped)

end Uses

/-! ### The guards of a program -/

theorem nextGuard?_eq_some {scopes : List Scope} {v : Visit}
    (next : nextGuard? scopes found v = some g) :
    ∃ root s, v.node = .tree .expression (.identifier root s) ∧ root ∈ browserGlobals ∧
      found.any (·.claims root s) = false ∧
      guardFor? root (growChain s v.ancestors) = some g := by
  unfold nextGuard? at next
  split at next
  · rename_i root s node
    split at next
    · rename_i needed
      simp only [Bool.and_eq_true, List.contains_iff_mem, Bool.not_eq_true'] at needed
      exact ⟨root, s, node, needed.1.1.1, needed.1.2, next⟩
    · cases next
  · cases next

theorem nextGuard?_of_settled (use : Uses p root s turns) (laid : p.Laid)
    (done : settled root turns) :
    nextGuard? p.scopes found ⟨.tree .expression (.identifier root s), passed turns⟩ = none := by
  simp only [settled, Bool.or_eq_true] at done
  simp only [nextGuard?, use.isBound_eq laid, use.isGuarded_eq laid]
  rcases done with (bound | shield) | checked
  · simp only [bound, Bool.not_true, Bool.and_false, Bool.false_and, Bool.false_eq_true, if_false]
  · simp only [shield, Bool.not_true, Bool.and_false, Bool.false_eq_true, if_false]
  · rw [use.guardFor?_of_checked laid checked, ite_self]

section Collect

variable {α β : Type} {f : List β → α → List β} {xs : List α} {init : List β}

theorem of_mem_collect {y : β}
    (member : y ∈ xs.foldl (fun found x => found ++ f found x) init) :
    y ∈ init ∨ ∃ x ∈ xs, ∃ found, y ∈ f found x := by
  induction xs generalizing init with
  | nil => exact .inl member
  | cons x xs ih =>
    rcases ih member with earlier | ⟨x', among, found, added⟩
    · rcases List.mem_append.mp earlier with first | added
      · exact .inl first
      · exact .inr ⟨x, List.mem_cons_self, init, added⟩
    · exact .inr ⟨x', List.mem_cons_of_mem _ among, found, added⟩

end Collect

/-- A program in which every use of a browser global is settled needs no guard. -/
theorem guards_eq_nil (laid : p.Laid)
    (done : ∀ root s turns, root ∈ browserGlobals → Uses p root s turns → settled root turns) :
    guards p = [] := by
  refine List.eq_nil_iff_forall_not_mem.mpr fun g member => ?_
  rcases of_mem_collect member with none | ⟨v, visited, found, added⟩
  · cases none
  · have next := Option.mem_toList.mp added
    obtain ⟨root, s, node, isGlobal, -⟩ := nextGuard?_eq_some next
    obtain ⟨turns, trail, ancestors⟩ := trail_of_mem_walk visited
    rw [node] at trail
    have visit : v = ⟨.tree .expression (.identifier root s), passed turns⟩ := by
      rw [← node, ← ancestors]
    rw [visit, nextGuard?_of_settled trail laid (done root s turns isGlobal trail)] at next
    cases next

/-! ### Operands of `typeof` -/

/-- The trail comes from the operand of `typeof`, or from inside the parentheses around it. -/
def isOperand : List Turn → Bool
  | (.tree .expression (.unary .typeof _ _), _) :: _ => true
  | (.tree .expression (.paren _ _), _) :: above => isOperand above
  | _ => false

end SourceRepair.Repair
