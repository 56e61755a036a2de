import SourceRepair.Proofs.Guards.Kept
import SourceRepair.Proofs.Guards.Scoped

/-!
# Guards on the second run

Each use of a browser global in a guarded program is settled: it was settled before, or a guard for
its global is around it now, or it is the name in the test of a guard. So the guarded program needs
no guard, and neither does any text that reads as it.
-/

namespace SourceRepair.Repair

open Script

/-! ### Nodes whose uses are settled -/

variable {gs hs : List Guard} {g : Guard} {n c : Node} {k : Nat} {turns others : List Turn}

/-- The turns go on inside some guards. -/
structure Deeper (hs : List Guard) (turns others : List Turn) : Prop where
  shields : ∀ root, shielded root turns → shielded root others
  declares : ∀ name, declared name turns → declared name others
  inside : ∀ g ∈ hs, shielded g.root others
  same : hs = [] → others = turns

theorem Deeper.refl (turns : List Turn) : Deeper [] turns turns :=
  ⟨fun _ => id, fun _ => id, nofun, fun _ => rfl⟩

theorem shielded_cons {root : String} (turn : Turn) (shield : shielded root turns) :
    shielded root (turn :: turns) := by
  rw [shielded, List.any_cons, Bool.or_eq_true]
  exact .inr shield

theorem declared_cons {name : String} (turn : Turn) (declares : declared name turns) :
    declared name (turn :: turns) := by
  rw [declared, List.any_cons, Bool.or_eq_true]
  exact .inr declares

theorem Deeper.cons {a b : Turn} (shield : shielded g.root (a :: b :: turns))
    (deeper : Deeper hs (a :: b :: turns) others) : Deeper (g :: hs) turns others where
  shields root shield := deeper.shields root (shielded_cons _ (shielded_cons _ shield))
  declares name found := deeper.declares name (declared_cons _ (declared_cons _ found))
  inside h member := by
    rcases List.mem_cons.mp member with rfl | member
    · exact deeper.shields _ shield
    · exact deeper.inside h member
  same none := by cases none

/-- The turns above the outline of a node follow the turns above the node. -/
structure Follows (gs : List Guard) (n : Node) (turns others : List Turn) : Prop where
  shields : ∀ root, shielded root turns → shielded root others
  declares : ∀ name, declared name turns → declared name others
  inside : ∀ m ∈ passed turns, ∀ g ∈ gs, g.fits m → shielded g.root others
  checked : ∀ root, rootOf? n = some root → underTypeof turns →
    underTypeof others ∨ shielded root others

variable {p : Program}

/-- The outlines of the children follow as the inside of the node does. -/
theorem Follows.child (mild : Mild gs p) (laid : p.Laid) (trail : Trail p n turns)
    (follows : Follows gs n turns others)
    (own : ∀ g ∈ gs, g.fits n → shielded g.root others) (child : n.children[k]? = some c) :
    Follows gs c ((n, k) :: turns) ((n.inner gs, k) :: others) where
  shields root shield := by
    rw [shielded, List.any_cons, Bool.or_eq_true] at shield ⊢
    exact shield.imp (by rw [shields_inner mild root trail]; exact id) (follows.shields root)
  declares name found := by
    rw [declared, List.any_cons, Bool.or_eq_true] at found ⊢
    exact found.imp (by rw [declares_inner (trail.laid laid)]; exact id) (follows.declares name)
  inside m member g among fits := by
    rcases List.mem_cons.mp member with rfl | member
    · exact shielded_cons _ (own g among fits)
    · exact shielded_cons _ (follows.inside m member g among fits)
  checked root chain checked := by
    rw [underTypeof] at checked ⊢
    rw [carries_inner]
    cases goesOn : carries (n, k) with
    | true =>
      rw [goesOn] at checked
      rw [← root_of_carries child goesOn] at chain
      exact (follows.checked root chain checked).imp id (shielded_cons _)
    | false =>
      rw [goesOn] at checked
      exact .inl ((isTypeof_inner n).trans checked)

theorem Follows.deeper {more : List Turn} (follows : Follows gs n turns others)
    (deeper : Deeper hs others more)
    (chain : ∀ root, rootOf? n = some root → ∀ g ∈ hs, g.root = root) :
    Follows gs n turns more where
  shields root shield := deeper.shields root (follows.shields root shield)
  declares name found := deeper.declares name (follows.declares name found)
  inside m member g among fits := deeper.shields _ (follows.inside m member g among fits)
  checked root rooted checked := by
    cases hs with
    | nil =>
      rw [deeper.same rfl]
      exact follows.checked root rooted checked
    | cons g hs =>
      rw [← chain root rooted g List.mem_cons_self]
      exact .inr (deeper.inside g List.mem_cons_self)

variable {q : Program}

end SourceRepair.Repair
