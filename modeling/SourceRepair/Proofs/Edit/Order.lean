import Mathlib.Data.List.Nodup
import Mathlib.Data.Prod.Lex
import Mathlib.Order.Lattice
import SourceRepair.Edit

/-!
# Edits in the order of the text

Edits are sorted by a key: the offset, the part that they have there, and what decides between edits
of one part. `at_pairwise` says what that comes to at one offset: first the closings, the deepest one
first, then insertions as they were recorded, then the openings, the outermost one first, then
replacements.
-/

namespace SourceRepair.Edit

/-- The place of a numbered edit among others: closings go by falling depth and number, openings by
rising depth and number, and all else by rising number. -/
def key (e : Edit × Nat) : ℕ ×ₗ ℕ ×ₗ ℤ ×ₗ ℤ :=
  toLex (e.1.span.start, toLex (e.1.anchor.rank, toLex
    (match e.1.anchor with
      | .closing => (-(e.1.depth : ℤ), -(e.2 : ℤ))
      | .opening => ((e.1.depth : ℤ), (e.2 : ℤ))
      | _ => (0, (e.2 : ℤ)))))

/-- The first edit comes before the second in the text. -/
def Precedes (a b : Edit × Nat) : Prop := key a < key b

theorem le_iff (a b : Edit × Nat) : le a b = true ↔ key a ≤ key b := by
  obtain ⟨⟨s, t, x, d⟩, m⟩ := a
  obtain ⟨⟨s', t', y, d'⟩, n⟩ := b
  cases x <;> cases y <;>
    simp [le, tieLe, key, Anchor.rank, Prod.Lex.toLex_le_toLex] <;> omega

theorem mergeSort_pairwise (found : List (Edit × Nat)) :
    (found.mergeSort le).Pairwise fun a b => le a b = true := by
  refine List.pairwise_mergeSort ?_ ?_ found
  · intro a b c first second
    rw [le_iff] at first second ⊢
    exact first.trans second
  · intro a b
    rw [Bool.or_eq_true, le_iff, le_iff]
    exact le_total _ _

/-- What is sorted has one order only, if all keys differ. -/
theorem mergeSort_eq {found sorted : List (Edit × Nat)} (inOrder : sorted.Pairwise Precedes)
    (same : sorted.Perm found) : found.mergeSort le = sorted := by
  have keys : (sorted.map key).Nodup := by
    rw [List.Nodup, List.pairwise_map]
    exact inOrder.imp fun before => ne_of_lt before
  refine List.Perm.eq_of_pairwise ?_ (mergeSort_pairwise found) (inOrder.imp fun before => ?_)
    ((List.mergeSort_perm found le).trans same.symm)
  · intro a b first second below above
    have inside := ((List.mergeSort_perm found le).trans same.symm).mem_iff.mp first
    exact List.inj_on_of_nodup_map keys inside second
      (le_antisymm ((le_iff a b).mp below) ((le_iff b a).mp above))
  · exact (le_iff _ _).mpr before.le

/-! ### The edits at one offset -/

variable {es : List (Edit × Nat)} {o : Nat} {anchor : Anchor} {e : Edit × Nat}

/-- The edits with a part at an offset. -/
def partAt (anchor : Anchor) (o : Nat) (es : List (Edit × Nat)) : List (Edit × Nat) :=
  es.filter fun e => e.1.anchor == anchor && e.1.span.start == o

/-- The depth of the deepest edit. -/
def deepest (es : List (Edit × Nat)) : Nat := es.foldr (fun e d => max e.1.depth d) 0

/-- The edits by their depth, the outermost first; those of one depth as they were recorded. -/
def outsideIn (es : List (Edit × Nat)) : List (Edit × Nat) :=
  (List.range (deepest es + 1)).flatMap fun d => es.filter (·.1.depth == d)

/-- The edits at an offset, in the order of their texts. -/
def editsAt (es : List (Edit × Nat)) (o : Nat) : List (Edit × Nat) :=
  (outsideIn (partAt .closing o es)).reverse ++ partAt .plain o es ++
    outsideIn (partAt .opening o es) ++ partAt .replacing o es

@[simp] theorem mem_partAt : e ∈ partAt anchor o es ↔
    e ∈ es ∧ e.1.anchor = anchor ∧ e.1.span.start = o := by
  simp [partAt]

theorem depth_le_deepest (member : e ∈ es) : e.1.depth ≤ deepest es := by
  induction es with
  | nil => cases member
  | cons f es ih =>
    have step : deepest (f :: es) = max f.1.depth (deepest es) := rfl
    rcases List.mem_cons.mp member with rfl | later
    · omega
    · have := ih later
      omega

@[simp] theorem mem_outsideIn : e ∈ outsideIn es ↔ e ∈ es := by
  simp only [outsideIn, List.mem_flatMap, List.mem_range, List.mem_filter, beq_iff_eq]
  constructor
  · rintro ⟨d, -, member, -⟩
    exact member
  · intro member
    exact ⟨e.1.depth, Nat.lt_succ_of_le (depth_le_deepest member), member, rfl⟩

theorem mem_editsAt : e ∈ editsAt es o ↔ e ∈ es ∧ e.1.span.start = o := by
  simp only [editsAt, List.mem_append, List.mem_reverse, mem_outsideIn, mem_partAt]
  constructor
  · rintro (((found | found) | found) | found) <;> exact ⟨found.1, found.2.2⟩
  · rintro ⟨member, rfl⟩
    cases part : e.1.anchor <;> simp [member]

/-- Of two edits with the same part the one that comes first has the smaller number. -/
def Rising (es : List (Edit × Nat)) : Prop :=
  es.Pairwise fun a b => a.1.anchor = b.1.anchor → a.2 < b.2

theorem Rising.nodup (rising : Rising es) : es.Nodup := by
  refine rising.imp ?_
  rintro a _ numbered rfl
  exact lt_irrefl a.2 (numbered rfl)

theorem Rising.partAt (rising : Rising es) (anchor : Anchor) (o : Nat) :
    (partAt anchor o es).Pairwise fun a b => a.2 < b.2 := by
  refine (rising.filter _).imp_of_mem ?_
  intro a b first second numbered
  exact numbered ((mem_partAt.mp first).2.1.trans (mem_partAt.mp second).2.1.symm)

theorem outsideIn_pairwise (rising : es.Pairwise fun a b => a.2 < b.2) :
    (outsideIn es).Pairwise fun a b =>
      a.1.depth < b.1.depth ∨ a.1.depth = b.1.depth ∧ a.2 < b.2 := by
  rw [outsideIn, List.pairwise_flatMap]
  constructor
  · intro d _
    refine (rising.filter _).imp_of_mem ?_
    intro a b first second numbered
    simp only [List.mem_filter, beq_iff_eq] at first second
    omega
  · refine List.pairwise_lt_range.imp ?_
    intro c d less a first b second
    simp only [List.mem_filter, beq_iff_eq] at first second
    omega

/-- The edits at an offset stand there as the key says. -/
theorem at_pairwise (rising : Rising es) (o : Nat) : (editsAt es o).Pairwise Precedes := by
  -- Within a part the key decides by depth and number, between two parts by the rank of the part.
  have ordered : ∀ {part : Anchor} {a b : Edit × Nat}, a ∈ partAt part o es → b ∈ partAt part o es →
      (match part with
        | .closing => b.1.depth < a.1.depth ∨ b.1.depth = a.1.depth ∧ b.2 < a.2
        | .opening => a.1.depth < b.1.depth ∨ a.1.depth = b.1.depth ∧ a.2 < b.2
        | _ => a.2 < b.2) → Precedes a b := by
    intro part a b first second decided
    obtain ⟨-, partA, startA⟩ := mem_partAt.mp first
    obtain ⟨-, partB, startB⟩ := mem_partAt.mp second
    cases part <;>
      simp only [Precedes, key, partA, partB, startA, startB, Prod.Lex.toLex_lt_toLex, lt_self_iff_false,
        false_or, true_and] at decided ⊢ <;> omega
  have apart : ∀ {p q : Anchor} {a b : Edit × Nat}, a ∈ partAt p o es → b ∈ partAt q o es →
      p.rank < q.rank → Precedes a b := by
    intro p q a b first second less
    obtain ⟨-, partA, startA⟩ := mem_partAt.mp first
    obtain ⟨-, partB, startB⟩ := mem_partAt.mp second
    simp only [Precedes, key, partA, partB, startA, startB, Prod.Lex.toLex_lt_toLex]
    exact .inr ⟨trivial, .inl less⟩
  have closings : (outsideIn (partAt .closing o es)).reverse.Pairwise Precedes := by
    rw [List.pairwise_reverse]
    refine (outsideIn_pairwise (rising.partAt .closing o)).imp_of_mem ?_
    intro a b first second decided
    exact ordered (mem_outsideIn.mp second) (mem_outsideIn.mp first) decided
  have plain : (partAt .plain o es).Pairwise Precedes :=
    (rising.partAt .plain o).imp_of_mem fun first second decided => ordered first second decided
  have openings : (outsideIn (partAt .opening o es)).Pairwise Precedes :=
    (outsideIn_pairwise (rising.partAt .opening o)).imp_of_mem fun first second decided =>
      ordered (mem_outsideIn.mp first) (mem_outsideIn.mp second) decided
  have replacing : (partAt .replacing o es).Pairwise Precedes :=
    (rising.partAt .replacing o).imp_of_mem fun first second decided => ordered first second decided
  rw [editsAt, List.pairwise_append, List.pairwise_append, List.pairwise_append]
  refine ⟨⟨⟨closings, plain, ?_⟩, openings, ?_⟩, replacing, ?_⟩
  · intro a first b second
    exact apart (mem_outsideIn.mp (List.mem_reverse.mp first)) second (by decide)
  · intro a first b second
    rcases List.mem_append.mp first with first | first
    · exact apart (mem_outsideIn.mp (List.mem_reverse.mp first)) (mem_outsideIn.mp second) (by decide)
    · exact apart first (mem_outsideIn.mp second) (by decide)
  · intro a first b second
    rcases List.mem_append.mp first with first | first
    · rcases List.mem_append.mp first with first | first
      · exact apart (mem_outsideIn.mp (List.mem_reverse.mp first)) second (by decide)
      · exact apart first second (by decide)
    · exact apart (mem_outsideIn.mp first) second (by decide)

/-! ### Other numbers -/

variable {fs : List (Edit × Nat)}

theorem map_filter_eq (same : es.map Prod.fst = fs.map Prod.fst) (test : Edit → Bool) :
    (es.filter fun e => test e.1).map Prod.fst = (fs.filter fun e => test e.1).map Prod.fst := by
  have first := List.filter_map (p := test) (f := Prod.fst) (l := es)
  have second := List.filter_map (p := test) (f := Prod.fst) (l := fs)
  rw [same] at first
  exact first.symm.trans second

theorem deepest_eq (same : es.map Prod.fst = fs.map Prod.fst) : deepest es = deepest fs := by
  have mapped : ∀ l : List (Edit × Nat),
      deepest l = (l.map Prod.fst).foldr (fun e d => max e.depth d) 0 := by
    intro l
    rw [List.foldr_map, deepest]
  rw [mapped, mapped, same]

theorem map_outsideIn_eq (same : es.map Prod.fst = fs.map Prod.fst) :
    (outsideIn es).map Prod.fst = (outsideIn fs).map Prod.fst := by
  simp only [outsideIn, List.map_flatMap, deepest_eq same]
  congr 1
  funext d
  exact map_filter_eq same (·.depth == d)

/-- Which edits stand at an offset, and in which order, does not hang on their numbers. -/
theorem map_editsAt_eq (same : es.map Prod.fst = fs.map Prod.fst) (o : Nat) :
    (editsAt es o).map Prod.fst = (editsAt fs o).map Prod.fst := by
  have parts : ∀ anchor : Anchor,
      (partAt anchor o es).map Prod.fst = (partAt anchor o fs).map Prod.fst := fun anchor =>
    map_filter_eq same fun e => e.anchor == anchor && e.span.start == o
  simp only [editsAt, List.map_append, List.map_reverse, map_outsideIn_eq (parts _), parts]

end SourceRepair.Edit
