import SourceRepair.Proofs.Edit.Patches
import SourceRepair.Proofs.Repair.Given
import SourceRepair.Proofs.Script.Walk

/-!
# When the edits of one repair are in conflict

The edits of a repair can be made exactly if they lie between characters and apart from each other. A
repair that edits what it finds on the walk is then in conflict exactly if something that it edits lies
in a part that it takes away for something above.
-/

namespace SourceRepair

/-- Edits that are made give the text of the pass, also if there are none. -/
theorem Draft.finish_of_applyAll {d : Draft} {text code : String} (applied : Edit.applyAll d.edits text = .ok code) :
    d.finish text = .ok ⟨code, d.located text, d.warnings⟩ := by
  cases none : d.edits.isEmpty with
  | true =>
    have idle : Edit.applyAll [] text = .ok text := by
      simp [Edit.applyAll, Edit.sorted, Edit.splice, pure, Except.pure, bind, Except.bind]
    rw [List.isEmpty_iff.mp none, idle] at applied
    cases applied
    rw [finish, none]
    rfl
  | false =>
    rw [finish, none, if_neg Bool.false_ne_true, applied]
    rfl

namespace Repair

open Script

variable {r : Repair} {p : Program} {leniency : Leniency} {file : SourceFile} {text : String}

/-- One repair drafts for the tree of the text, makes the edits and checks what they leave. -/
theorem applyAll_of_read (read : parseScript leniency file text = .ok p) :
    applyAll [r] leniency file text = (do
      let done ← (r.draft ⟨p, text.toList, file⟩).finish text
      validate file done.code
      return done) := by
  rw [applyAll, List.foldlM_cons, step, read]
  simp only [bind, Except.bind, pure, Except.pure, List.foldlM_nil, List.nil_append]
  cases (r.draft ⟨p, text.toList, file⟩).finish text <;> rfl

/-- The edits of the repair are in conflict. -/
def Conflicts (r : Repair) (leniency : Leniency) (file : SourceFile) (text : String) : Prop :=
  ∃ offset, applyAll [r] leniency file text = .error (.editConflict offset)

/-- Edits can be made or are in conflict. -/
theorem finish_cases (d : Draft) (formed : ∀ e ∈ d.edits, Edit.Formed e) (text : String) :
    (Edit.Printable d.edits text.toList ∧ ∃ done, d.finish text = .ok done) ∨
      ¬ Edit.Printable d.edits text.toList ∧ ∃ offset, d.finish text = .error (.editConflict offset) := by
  by_cases printable : Edit.Printable d.edits text.toList
  · have applied := Edit.applyAll_of_printable printable formed (List.zipIdx_map_fst 0 d.edits)
    exact .inl ⟨printable, _, Draft.finish_of_applyAll applied⟩
  · refine .inr ⟨printable, ?_⟩
    have some : d.edits.isEmpty = false := by
      rw [List.isEmpty_eq_false_iff]
      rintro none
      rw [none] at printable
      exact printable ⟨nofun, .nil, nofun⟩
    cases applied : Edit.applyAll d.edits text with
    | ok out => exact absurd (Edit.printable_of_ok formed applied) printable
    | error failure =>
      obtain ⟨offset, rfl⟩ := Edit.applyAll_error applied
      exact ⟨offset, by rw [Draft.finish, some, if_neg Bool.false_ne_true, applied]; rfl⟩

/-- A text that is not valid is no conflict. -/
theorem validate_ne_conflict (file : SourceFile) (text : String) (offset : Nat) :
    validate file text ≠ .error (.editConflict offset) := by
  intro failed
  unfold validate at failed
  split at failed
  · unfold parseScript at failed
    split at failed
    · cases failed
    · split at failed <;> cases failed
  · unfold parseJson at failed
    dsimp only at failed
    split at failed <;> cases failed

theorem conflicts_iff (read : parseScript leniency file text = .ok p)
    (formed : ∀ e ∈ (r.draft ⟨p, text.toList, file⟩).edits, Edit.Formed e) :
    Conflicts r leniency file text ↔ ¬ Edit.Printable (r.draft ⟨p, text.toList, file⟩).edits text.toList := by
  unfold Conflicts
  rw [applyAll_of_read read]
  rcases finish_cases _ formed text with ⟨printable, done, finished⟩ | ⟨conflicting, offset, finished⟩
  · -- What is printed may be no script, but that is no conflict.
    refine ⟨?_, fun conflicting => absurd printable conflicting⟩
    rintro ⟨offset, failed⟩
    rw [finished] at failed
    change (do validate file done.code; pure _) = _ at failed
    cases valid : validate file done.code with
    | ok => rw [valid] at failed; cases failed
    | error failure =>
      rw [valid] at failed
      cases failed
      exact absurd valid (validate_ne_conflict file done.code offset)
  · rw [finished]
    exact ⟨fun _ => conflicting, fun _ => ⟨offset, rfl⟩⟩

/-! ### Constructs of the walk -/

theorem flatMap_filterMap {α β γ : Type} (f : α → Option β) (g : β → List γ) (xs : List α) :
    (xs.filterMap f).flatMap g = xs.flatMap fun a => (f a).toList.flatMap g := by
  rw [List.filterMap_eq_flatMap_toList, List.flatMap_assoc]

/-- What a repair edits for the nodes that are visited. `inside v w` says that `w` lies in a part that is
taken away for `v`, a node above it. -/
structure Edited (p : Program) (edits : Visit → List Edit) (inside : Visit → Visit → Prop) : Prop where
  own : ∀ v ∈ p.walk, (edits v).Pairwise Edit.Apart
  behind : ∀ v ∈ p.walk, ∀ w ∈ p.walk, v.node.span.stop ≤ w.node.span.start →
    ∀ e ∈ edits v, ∀ f ∈ edits w, e.Apart f
  clear : ∀ v ∈ p.walk, ∀ w ∈ p.walk, (∃ c ∈ v.node.children, c.Below w.node) → ¬ inside v w →
    ∀ e ∈ edits v, ∀ f ∈ edits w, e.Apart f
  clash : ∀ v ∈ p.walk, ∀ w ∈ p.walk, v.node ∈ w.ancestors → inside v w →
    ∃ e ∈ edits v, ∃ f ∈ edits w, ¬ e.Apart f

theorem Edited.pairwise_iff {edits : Visit → List Edit} {inside : Visit → Visit → Prop}
    (edited : Edited p edits inside) (laid : p.Laid) :
    (p.walk.flatMap edits).Pairwise Edit.Apart ↔
      ¬ ∃ v ∈ p.walk, ∃ w ∈ p.walk, v.node ∈ w.ancestors ∧ inside v w := by
  rw [List.pairwise_flatMap]
  constructor
  · rintro ⟨-, apart⟩ ⟨v, first, w, second, above, nested⟩
    obtain ⟨e, there, f, here, overlap⟩ := edited.clash v first w second above nested
    have symmetric : Std.Symm fun v w => ∀ e ∈ edits v, ∀ f ∈ edits w, e.Apart f :=
      ⟨fun _ _ apart f there e here => (apart e here f there).symm⟩
    refine overlap (apart.forall first second ?_ e there f here)
    rintro rfl
    exact laid.notMem_ancestors first above
  · intro none
    refine ⟨edited.own, laid.walk_pairwise.imp_of_mem ?_⟩
    rintro v w first second (⟨above, below⟩ | before)
    · exact edited.clear v first w second below fun nested => none ⟨v, first, w, second, above, nested⟩
    · exact edited.behind v first w second before

end Repair

end SourceRepair
