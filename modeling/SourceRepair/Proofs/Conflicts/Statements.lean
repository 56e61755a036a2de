import SourceRepair.Proofs.Conflicts.Basic
import SourceRepair.Proofs.Repair.Constructs

/-!
# Statements that are taken away

A statement is taken away with the white space that goes with it, so two statements that are apart are
taken away without conflict, on one line or on neighbouring ones.
-/

namespace SourceRepair

open Text (Inked removalRange)

namespace Repair

open Script

variable {leniency : Leniency} {file : SourceFile} {text : String} {p : Program}

/-! ### Diagnostics -/

/-- The node is a diagnostic statement. -/
def isDiagnostic : Node → Bool
  | .tree .statement s => (diagnostic? s).isSome
  | _ => false

/-- The diagnostic that is visited. -/
def diagnosticAt (v : Visit) : Option Diagnostic :=
  match v.node with
  | .tree .statement s =>
    (diagnostic? s).map fun what => ⟨s.span, v.ancestors.head?.any (·.statements?.isSome), what⟩
  | _ => none

theorem edits_removeDiagnostics (src : Source) :
    (removeDiagnostics.draft src).edits =
      src.program.walk.flatMap fun v => (diagnosticAt v).toList.flatMap fun d => [d.edit src.text] := by
  rw [← flatMap_filterMap]
  exact List.flatMap_map ..

theorem of_diagnosticAt {v : Visit} {d : Diagnostic} (found : diagnosticAt v = some d) :
    ∃ s what, v.node = .tree .statement s ∧ diagnostic? s = some what ∧ d.span = s.span ∧ d.what = what := by
  unfold diagnosticAt at found
  split at found
  · rename_i s same
    obtain ⟨what, writes, rfl⟩ := Option.map_eq_some_iff.mp found
    exact ⟨s, what, same, writes, rfl, rfl⟩
  · cases found

theorem exists_diagnosticAt {v : Visit} (diagnostic : isDiagnostic v.node) : ∃ d, diagnosticAt v = some d := by
  unfold isDiagnostic at diagnostic
  split at diagnostic
  · rename_i s same
    obtain ⟨what, writes⟩ := Option.isSome_iff_exists.mp diagnostic
    exact ⟨_, by rw [diagnosticAt, same]; exact congrArg (Option.map _) writes⟩
  · cases diagnostic

theorem Diagnostic.edit_removes {cs : List Char} (d : Diagnostic) (inked : Inked cs d.span) :
    (d.edit cs).Removes cs d.span := by
  unfold Diagnostic.edit
  split
  · exact Edit.removes_remove inked
  · exact Edit.removes_replace inked _

/-- The edit for a visited diagnostic takes the place of its statement. -/
theorem of_mem_diagnosticEdits {cs : List Char} {v : Visit} {e : Edit} (standing : p.Standing cs)
    (visited : v ∈ p.walk) (member : e ∈ (diagnosticAt v).toList.flatMap fun d => [d.edit cs]) :
    isDiagnostic v.node ∧ Inked cs v.node.span ∧ e.Removes cs v.node.span := by
  obtain ⟨d, found, member⟩ := List.mem_flatMap.mp member
  obtain rfl := List.mem_singleton.mp member
  obtain ⟨s, what, same, writes, span, -⟩ := of_diagnosticAt (Option.mem_toList.mp found)
  have below := (of_mem_walkFrom visited).1
  rw [same] at below ⊢
  have inked := standing.statements below
  refine ⟨by rw [isDiagnostic, writes]; rfl, inked, ?_⟩
  have removes := d.edit_removes (span ▸ inked)
  rwa [span] at removes

theorem edited_diagnostics {cs : List Char} (standing : p.Standing cs) :
    Edited p (fun v => (diagnosticAt v).toList.flatMap fun d => [d.edit cs])
      fun v w => isDiagnostic v.node ∧ isDiagnostic w.node where
  own v _ := by
    cases diagnosticAt v with
    | none => exact .nil
    | some d => exact List.pairwise_singleton _ _
  behind v visited w visited' before e there f here := by
    obtain ⟨-, inked, removes⟩ := of_mem_diagnosticEdits standing visited there
    obtain ⟨-, inked', removes'⟩ := of_mem_diagnosticEdits standing visited' here
    exact removes.apart removes' inked inked' (.inl before)
  clear v visited w visited' _ outside e there f here := by
    obtain ⟨first, -⟩ := of_mem_diagnosticEdits standing visited there
    obtain ⟨second, -⟩ := of_mem_diagnosticEdits standing visited' here
    exact absurd ⟨first, second⟩ outside
  clash v visited w visited' above nested := by
    obtain ⟨d, found⟩ := exists_diagnosticAt nested.1
    obtain ⟨d', found'⟩ := exists_diagnosticAt nested.2
    have there : d.edit cs ∈ (diagnosticAt v).toList.flatMap fun d => [d.edit cs] := by
      simp [found]
    have here : d'.edit cs ∈ (diagnosticAt w).toList.flatMap fun d => [d.edit cs] := by
      simp [found']
    obtain ⟨-, -, removes⟩ := of_mem_diagnosticEdits standing visited there
    obtain ⟨-, inked', removes'⟩ := of_mem_diagnosticEdits standing visited' here
    obtain ⟨c, child, below⟩ := exists_below_of_ancestor visited' above
    have within := (standing.laid.of_mem_walk visited).of_below (Node.Below.here.step child |>.trans below)
    exact ⟨_, there, _, here, removes.overlap removes' inked'.start_lt_stop within.2.1 within.2.2⟩

/-- Diagnostics are taken away without conflict unless one stands inside another one. -/
theorem conflicts_removeDiagnostics (read : parseScript leniency file text = .ok p)
    (standing : p.Standing text.toList) :
    Conflicts removeDiagnostics leniency file text ↔
      ∃ v ∈ p.walk, ∃ w ∈ p.walk, v.node ∈ w.ancestors ∧ isDiagnostic v.node ∧ isDiagnostic w.node := by
  have edits := edits_removeDiagnostics ⟨p, text.toList, file⟩
  have removes : ∀ e ∈ (removeDiagnostics.draft ⟨p, text.toList, file⟩).edits,
      e.Formed ∧ e.Bounded text.toList := by
    rw [edits]
    intro e member
    obtain ⟨v, visited, member⟩ := List.mem_flatMap.mp member
    have removes := (of_mem_diagnosticEdits standing visited member).2.2
    exact ⟨removes.formed, removes.bounded⟩
  rw [conflicts_iff read fun e member => (removes e member).1,
    Edit.printable_iff fun e member => (removes e member).1,
    and_iff_right fun e member => (removes e member).2, edits,
    (edited_diagnostics standing).pairwise_iff standing.laid, not_not]

/-! ### Imports -/

theorem addToGroup_perm (d : ImportDecl) (gs : List (List ImportDecl)) :
    (addToGroup d gs).flatten.Perm (d :: gs.flatten) := by
  induction gs with
  | nil => exact .refl _
  | cons g gs ih =>
    unfold addToGroup
    split
    · rw [List.flatten_cons, List.append_assoc]
      exact List.perm_middle
    · exact (ih.append_left g).trans List.perm_middle

/-- Every import is in one group. -/
theorem groupImports_perm (ds : List ImportDecl) : (groupImports ds).flatten.Perm ds := by
  suffices all : ∀ gs, (ds.foldl (fun groups d => addToGroup d groups) gs).flatten.Perm (gs.flatten ++ ds) from
    all []
  induction ds with
  | nil => exact fun gs => by simp
  | cons d ds ih =>
    intro gs
    refine (ih (addToGroup d gs)).trans ?_
    exact ((addToGroup_perm d gs).append_right ds).trans List.perm_middle.symm

/-- Imports that stand apart in the text. -/
def ImportsApart (a b : ImportDecl) : Prop := a.span.stop ≤ b.span.start ∨ b.span.stop ≤ a.span.start

theorem of_mem_imports {d : ImportDecl} (imported : d ∈ p.imports) : Tree.importDecl d ∈ p.body := by
  obtain ⟨s, member, found⟩ := List.mem_filterMap.mp imported
  split at found
  · cases found
    exact member
  · cases found

theorem imports_pairwise {cs : List Char} (standing : p.Standing cs) :
    p.imports.Pairwise fun a b => a.span.stop ≤ b.span.start := by
  refine List.pairwise_filterMap.mpr (standing.body.imp ?_)
  intro s t before a first b second
  split at first
  · split at second
    · cases first
      cases second
      exact before
    · cases second
  · cases first

theorem inked_of_mem_imports {cs : List Char} (standing : p.Standing cs) {d : ImportDecl}
    (imported : d ∈ p.imports) : Inked cs d.span :=
  standing.statement (of_mem_imports imported)

/-- The edits that merge a group take the places of its imports. -/
theorem of_mem_mergeGroup_edits {cs : List Char} {g : List ImportDecl} {e : Edit}
    (inked : ∀ d ∈ g, Inked cs d.span) (member : e ∈ (mergeGroup cs g).edits) :
    ∃ d ∈ g, e.Removes cs d.span := by
  unfold mergeGroup at member
  split at member
  · rename_i first second others
    rcases List.mem_cons.mp member with rfl | later
    · exact ⟨first, List.mem_cons_self, Edit.removes_replace (inked first List.mem_cons_self) _⟩
    · obtain ⟨d, inside, rfl⟩ := List.mem_map.mp later
      have listed := List.mem_cons_of_mem first inside
      exact ⟨d, listed, Edit.removes_remove (inked d listed)⟩
  · cases member

theorem mergeGroup_pairwise {cs : List Char} {g : List ImportDecl} (inked : ∀ d ∈ g, Inked cs d.span)
    (apart : g.Pairwise ImportsApart) : (mergeGroup cs g).edits.Pairwise Edit.Apart := by
  unfold mergeGroup
  split
  · rename_i first second others
    obtain ⟨inked_first, inked_rest⟩ := List.forall_mem_cons.mp inked
    obtain ⟨apart_first, apart_rest⟩ := List.pairwise_cons.mp apart
    refine List.pairwise_cons.mpr ⟨?_, List.pairwise_map.mpr (apart_rest.imp_of_mem ?_)⟩
    · intro e member
      obtain ⟨d, inside, rfl⟩ := List.mem_map.mp member
      exact (Edit.removes_replace inked_first _).apart
        (Edit.removes_remove (inked_rest d inside)) inked_first (inked_rest d inside) (apart_first d inside)
    · intro a b one other apart
      exact (Edit.removes_remove (inked_rest a one)).apart
        (Edit.removes_remove (inked_rest b other)) (inked_rest a one) (inked_rest b other) apart
  · exact .nil

/-- Imports are merged without conflict. -/
theorem not_conflicts_mergeImports (read : parseScript leniency file text = .ok p)
    (standing : p.Standing text.toList) : ¬ Conflicts mergeImports leniency file text := by
  let ds := p.imports.filter bindsNamesOnly
  have edits : (mergeImports.draft ⟨p, text.toList, file⟩).edits =
      (groupImports ds).flatMap fun g => (mergeGroup text.toList g).edits := List.flatMap_map ..
  have perm := groupImports_perm ds
  have inked : ∀ g ∈ groupImports ds, ∀ d ∈ g, Inked text.toList d.span := by
    intro g group d member
    have listed := perm.mem_iff.mp (List.mem_flatten_of_mem group member)
    exact inked_of_mem_imports standing (List.mem_of_mem_filter listed)
  have symmetric : ∀ {a b}, ImportsApart a b → ImportsApart b a := Or.symm
  have apart : (groupImports ds).flatten.Pairwise ImportsApart :=
    (perm.pairwise_iff symmetric).mpr (((imports_pairwise standing).filter _).imp .inl)
  obtain ⟨within, between⟩ := List.pairwise_flatten.mp apart
  have removes : ∀ e ∈ (mergeImports.draft ⟨p, text.toList, file⟩).edits,
      e.Formed ∧ e.Bounded text.toList := by
    rw [edits]
    intro e member
    obtain ⟨g, group, member⟩ := List.mem_flatMap.mp member
    obtain ⟨d, -, removes⟩ := of_mem_mergeGroup_edits (inked g group) member
    exact ⟨removes.formed, removes.bounded⟩
  rw [conflicts_iff read fun e member => (removes e member).1,
    Edit.printable_iff fun e member => (removes e member).1,
    and_iff_right fun e member => (removes e member).2, edits, not_not, List.pairwise_flatMap]
  refine ⟨fun g group => mergeGroup_pairwise (inked g group) (within g group), ?_⟩
  refine between.imp_of_mem fun {g h} group group' apart e there f here => ?_
  obtain ⟨a, member, removes⟩ := of_mem_mergeGroup_edits (inked g group) there
  obtain ⟨b, member', removes'⟩ := of_mem_mergeGroup_edits (inked h group') here
  exact removes.apart removes' (inked g group a member) (inked h group' b member')
    (apart a member b member')

/-! ### The client directive -/

theorem hashbangEnd_bounded {cs : List Char} (standing : p.Standing cs) :
    Text.IsBoundary cs (p.hashbangEnd cs) := by
  unfold Program.hashbangEnd
  split
  · rename_i bang found
    exact Text.isBoundary_lineEndAfter (standing.hashbang found)
  · exact ⟨[], List.nil_prefix, rfl⟩

/-- What starts behind the line of the hashbang is taken away behind it. -/
theorem hashbangEnd_le {cs : List Char} (standing : p.Standing cs) {s : Span} (inked : Inked cs s)
    (behind : p.hashbangEnd cs ≤ s.start) : p.hashbangEnd cs ≤ (removalRange cs s).start := by
  unfold Program.hashbangEnd at behind ⊢
  split at behind
  · rename_i bang found
    rcases Text.lineEndAfter_cases (standing.hashbang found) with whole | ⟨xs, ys, rfl, line⟩
    · -- Nothing stands behind the end of the text.
      have := inked.isBoundary.2.le_byteLength
      have := inked.start_lt_stop
      omega
    · rw [line] at behind ⊢
      exact Text.le_removalRange_start inked behind
  · exact Nat.zero_le _

theorem misplaced_inked {cs : List Char} (standing : p.Standing cs) {s : Span}
    (misplaced : s ∈ misplacedDirectives p) : Inked cs s := by
  unfold misplacedDirectives at misplaced
  rcases List.mem_append.mp misplaced with directive | statement
  · obtain ⟨d, member, rfl⟩ := List.mem_map.mp directive
    have later := List.mem_of_mem_filter member
    refine (standing.directive ?_).1
    split at later
    · exact List.mem_of_mem_drop later
    · exact later
  · obtain ⟨t, member, rfl⟩ := List.mem_map.mp statement
    exact standing.statement (List.mem_of_mem_filter member)

theorem misplaced_pairwise {cs : List Char} (standing : p.Standing cs) :
    (misplacedDirectives p).Pairwise fun s t => s.stop ≤ t.start := by
  have later : (if startsWithDirective p then p.directives.drop 1 else p.directives).Sublist p.directives := by
    split
    · exact List.drop_sublist _ _
    · exact .refl _
  refine List.pairwise_append.mpr ⟨?_, ?_, ?_⟩
  · exact List.pairwise_map.mpr ((standing.directives.sublist later).filter _)
  · exact List.pairwise_map.mpr (standing.body.filter _)
  · intro s first t second
    obtain ⟨d, member, rfl⟩ := List.mem_map.mp first
    obtain ⟨u, member', rfl⟩ := List.mem_map.mp second
    exact (standing.directive (later.subset (List.mem_of_mem_filter member))).2 u (List.mem_of_mem_filter member')

/-- The repair of the directive applies to the file. -/
def needsDirective (file : SourceFile) (p : Program) : Bool :=
  !(file.isTest || file.inPagesDirectory || p.hasDirective "use server" || !usesClientFeatures p)

/-- The edit that puts the directive first. -/
def placement (p : Program) (cs : List Char) : Edit :=
  .insert (p.hashbangEnd cs) ("\x27" ++ clientDirectiveText ++ "\x27;\n")

theorem edits_clientDirective (file : SourceFile) (p : Program) (cs : List Char) :
    (clientDirective.draft ⟨p, cs, file⟩).edits =
      if needsDirective file p then
        ((misplacedDirectives p).map fun s => Edit.remove (removalRange cs s)) ++
          if startsWithDirective p then [] else [placement p cs]
      else [] := by
  unfold clientDirective needsDirective
  dsimp only
  cases file.isTest || file.inPagesDirectory || p.hasDirective "use server" || !usesClientFeatures p with
  | true => rfl
  | false =>
    cases startsWithDirective p with
    | true => simp
    | false => simp [Draft.change, placement]

/-- The removal of a copy of the directive is apart from the place of the first one unless the copy starts
in front of it and goes on behind it. -/
theorem removal_apart_placement {cs : List Char} (standing : p.Standing cs) {s : Span}
    (misplaced : s ∈ misplacedDirectives p) :
    (Edit.remove (removalRange cs s)).Apart (placement p cs) ↔
      ¬ (s.start < p.hashbangEnd cs ∧ p.hashbangEnd cs < (removalRange cs s).stop) := by
  have inked := misplaced_inked standing misplaced
  have := (Text.removalRange_covers inked).1
  have := hashbangEnd_le standing inked
  change (removalRange cs s).stop ≤ p.hashbangEnd cs ∨ p.hashbangEnd cs ≤ (removalRange cs s).start ↔ _
  omega

/-- Copies of the directive are taken away without conflict with the one that is put first, unless one
starts on the line of the hashbang and goes on behind it. -/
theorem conflicts_clientDirective (read : parseScript leniency file text = .ok p)
    (standing : p.Standing text.toList) :
    Conflicts clientDirective leniency file text ↔
      needsDirective file p ∧ startsWithDirective p = false ∧ ∃ s ∈ misplacedDirectives p,
        s.start < p.hashbangEnd text.toList ∧ p.hashbangEnd text.toList < (removalRange text.toList s).stop := by
  have removes : ∀ s ∈ misplacedDirectives p,
      (Edit.remove (removalRange text.toList s)).Removes text.toList s := fun s misplaced =>
    Edit.removes_remove (misplaced_inked standing misplaced)
  have all : ∀ e ∈ (clientDirective.draft ⟨p, text.toList, file⟩).edits, e.Formed ∧ e.Bounded text.toList := by
    rw [edits_clientDirective]
    intro e member
    split at member
    · rcases List.mem_append.mp member with removed | placed
      · obtain ⟨s, misplaced, rfl⟩ := List.mem_map.mp removed
        exact ⟨(removes s misplaced).formed, (removes s misplaced).bounded⟩
      · split at placed
        · cases placed
        · obtain rfl := List.mem_singleton.mp placed
          have boundary := hashbangEnd_bounded standing
          exact ⟨by simp [placement, Edit.insert, Edit.Formed, Span.point], boundary, boundary⟩
    · cases member
  have apart : ((misplacedDirectives p).map fun s => Edit.remove (removalRange text.toList s)).Pairwise
      Edit.Apart := by
    refine List.pairwise_map.mpr ((misplaced_pairwise standing).imp_of_mem ?_)
    intro s t first second before
    exact (removes s first).apart (removes t second) (misplaced_inked standing first)
      (misplaced_inked standing second) (.inl before)
  rw [conflicts_iff read fun e member => (all e member).1, Edit.printable_iff fun e member => (all e member).1,
    and_iff_right fun e member => (all e member).2, edits_clientDirective]
  cases needsDirective file p with
  | false => simp
  | true =>
    cases startsWithDirective p with
    | true => simpa using apart
    | false =>
      simp only [if_true, Bool.false_eq_true, if_false, List.pairwise_append, List.pairwise_singleton, true_and,
        and_iff_right apart, List.mem_singleton, forall_eq, List.forall_mem_map]
      rw [not_forall]
      refine exists_congr fun s => ?_
      rw [Classical.not_imp]
      refine and_congr_right fun misplaced => ?_
      rw [removal_apart_placement standing misplaced, not_not]

end Repair

end SourceRepair
