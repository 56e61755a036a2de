import SourceRepair.Proofs.Conflicts.Statements
import SourceRepair.Proofs.Guards.Outline
import SourceRepair.Repair.Catalogue

/-!
# What is left without the diagnostics

Without the diagnostics stands what stood before, apart from the white space around them. Whether the
statements around a diagnostic stay two is not looked at, though a line of its own may have kept them apart.
-/

namespace SourceRepair.Repair

open Script

variable {leniency : Leniency} {file : SourceFile} {text : String} {p : Program}

/-! ### The text without the diagnostics -/

/-- A diagnostic statement is taken away, or an empty block takes its place. -/
def Diagnostic.patch (d : Diagnostic) : Patch := ⟨d.span, if d.inList then none else some "\x7b\x7d"⟩

theorem Diagnostic.edit_patch (d : Diagnostic) (cs : List Char) : d.patch.edit cs = d.edit cs := by
  obtain ⟨span, inList, what⟩ := d
  cases inList <;> rfl

/-- Diagnostics that do not stand in each other stand one after the other. -/
theorem diagnostics_pairwise (laid : p.Laid)
    (flat : ¬ ∃ v ∈ p.walk, ∃ w ∈ p.walk, v.node ∈ w.ancestors ∧ isDiagnostic v.node ∧ isDiagnostic w.node) :
    (diagnostics p).Pairwise fun a b => a.span.stop ≤ b.span.start := by
  refine List.pairwise_filterMap.mpr (laid.walk_pairwise.imp_of_mem ?_)
  intro v w first second before a one b other
  obtain ⟨s, what, same, writes, span, -⟩ := of_diagnosticAt one
  obtain ⟨t, what', same', writes', span', -⟩ := of_diagnosticAt other
  rcases before with ⟨above, -⟩ | before
  · refine absurd ⟨v, first, w, second, above, ?_, ?_⟩ flat
    · rw [same, isDiagnostic, writes]
      rfl
    · rw [same', isDiagnostic, writes']
      rfl
  · rw [same, same'] at before
    rwa [span, span']

theorem inked_of_mem_diagnostics {cs : List Char} (standing : p.Standing cs) {d : Diagnostic}
    (member : d ∈ diagnostics p) : Text.Inked cs d.span := by
  obtain ⟨v, visited, found⟩ := List.mem_filterMap.mp member
  obtain ⟨s, what, same, -, span, -⟩ := of_diagnosticAt found
  have below := (of_mem_walkFrom visited).1
  rw [same] at below
  rw [span]
  exact standing.statements below

/-- The entry for a diagnostic in the record of changes. -/
def Diagnostic.change (text : String) (d : Diagnostic) : Change :=
  ⟨.diagnosticRemoved, "removed \x60" ++ d.what ++ "\x60 statement", some (Text.location text.toList d.span.start)⟩

/-- Unless a diagnostic stands in another one, the pass takes all of them away, with the white space that goes
with them, or leaves empty blocks in their places, and everything else stands as before. Only whether that is
a script is checked. -/
theorem diagnostics_taken_away (read : parseScript leniency file text = .ok p) (standing : p.Standing text.toList)
    (flat : ¬ ∃ v ∈ p.walk, ∃ w ∈ p.walk, v.node ∈ w.ancestors ∧ isDiagnostic v.node ∧ isDiagnostic w.node) :
    ∃ code, Patched [] ((diagnostics p).map Diagnostic.patch) text.toList code.toList ∧
      applyAll [removeDiagnostics] leniency file text = (do
        validate file code
        return ⟨code, (diagnostics p).map (Diagnostic.change text), []⟩) := by
  have edits : (removeDiagnostics.draft ⟨p, text.toList, file⟩).edits =
      ((diagnostics p).map Diagnostic.patch).map (Patch.edit text.toList) := by
    rw [List.map_map]
    refine (List.flatMap_map ..).trans (List.map_eq_flatMap.trans ?_).symm
    exact congrArg (List.flatMap · (diagnostics p)) (funext fun d => congrArg (fun e => [e]) (d.edit_patch _))
  obtain ⟨code, applied, patched⟩ := Edit.applyAll_patches (.of_eq edits)
    (List.forall_mem_map.mpr fun d member => inked_of_mem_diagnostics standing member)
    (List.pairwise_map.mpr (diagnostics_pairwise standing.laid flat))
  refine ⟨code, patched, ?_⟩
  have changes : (removeDiagnostics.draft ⟨p, text.toList, file⟩).located text =
      (diagnostics p).map (Diagnostic.change text) := by
    change List.map _ (List.flatMap Draft.changes ((diagnostics p).map _)) = _
    rw [List.flatMap_map, List.map_flatMap]
    exact List.map_eq_flatMap.symm
  have warnings : (removeDiagnostics.draft ⟨p, text.toList, file⟩).warnings = [] :=
    (List.flatMap_map ..).trans (List.flatMap_eq_nil_iff.mpr fun _ _ => rfl)
  rw [applyAll_of_read read, Draft.finish_of_applyAll applied, changes, warnings]
  rfl

set_option maxRecDepth 100000

/-- A call whose value is used stays. -/
example : (parse? .strict ⟨false, false, true, .module⟩ "a = console.log(b);\nconsole.error(c);\n").map
    (fun p => (diagnostics p).length) = some 0 := by
  decide +kernel

theorem diagnostics_taken_away_twice :
    let file : SourceFile := ⟨⟨"a.js"⟩, .script ⟨false, false, true, .module⟩, none⟩
    let text := "if (a) debugger;\nconsole.log(b);\nc();\n"
    ∃ p, parseScript .strict file text = .ok p ∧ (diagnostics p).length = 2 ∧
      ∃ code, Patched [] ((diagnostics p).map Diagnostic.patch) text.toList code.toList ∧
        applyAll [removeDiagnostics] .strict file text = (do
          validate file code
          return ⟨code, (diagnostics p).map (Diagnostic.change text), []⟩) := by
  intro file text
  have found : (parse? .strict ⟨false, false, true, .module⟩ text).map (fun p =>
      (p.stands text.toList 20, (diagnostics p).length,
        p.walk.all fun w => !isDiagnostic w.node || w.ancestors.all (!isDiagnostic ·))) = some (true, 2, true) := by
    decide +kernel
  obtain ⟨p, read, found⟩ := Option.map_eq_some_iff.mp found
  simp only [Prod.mk.injEq] at found
  obtain ⟨stands, two, flat⟩ := found
  refine ⟨p, parseScript_of_parse rfl read, two,
    diagnostics_taken_away (parseScript_of_parse rfl read) (.of_stands stands) ?_⟩
  rintro ⟨v, -, w, visited, above, outer, inner⟩
  have apart := List.all_eq_true.mp flat w visited
  rw [inner, Bool.not_true, Bool.false_or] at apart
  simpa [outer] using List.all_eq_true.mp apart v.node above

/-! ### Statements that are joined -/

/-- The diagnostic statements of a program all stand in the list of its statements. -/
def diagnosticsOnTop (p : Program) : Bool :=
  p.walk.all fun v =>
    match v.node with
    | .tree .statement s => (diagnostic? s).isNone || v.ancestors.length == 1
    | _ => true

/-- In `const a = b⏎console.log(1);⏎(c)()` only the line of the diagnostic keeps the statements around it
apart: without it they are one, which declares the value of a call of `b`. -/
theorem statements_joined :
    let file : SourceFile := ⟨⟨"a.js"⟩, .script ⟨false, false, true, .module⟩, none⟩
    let text := "const a = b\nconsole.log(1);\n(c)()\n"
    ∃ (p q : Program) (done : Rewrite),
      parseScript .strict file text = .ok p ∧ diagnosticsOnTop p = true ∧
      applyAll [removeDiagnostics] .strict file text = .ok done ∧
      parseScript .strict file done.code = .ok q ∧
      q.body.map (Tree.outline []) ≠
        (p.body.filter fun s => (diagnostic? s).isNone).map (Tree.outline []) := by
  intro file text
  let dialect : Dialect := ⟨false, false, true, .module⟩
  let code := "const a = b\n(c)()\n"
  let d : Draft := .change [.remove ⟨12, 28⟩] .diagnosticRemoved "removed \x60console.log\x60 statement" 12
  obtain ⟨p, read⟩ : ∃ p, parse? .strict dialect text = some p :=
    Option.isSome_iff_exists.mp (by decide +kernel)
  obtain ⟨q, again⟩ : ∃ q, parse? .strict dialect code = some q :=
    Option.isSome_iff_exists.mp (by decide +kernel)
  have drafted : (parse? .strict dialect text).map
      (fun p => removeDiagnostics.draft ⟨p, text.toList, file⟩) = some d := by
    decide +kernel
  have spliced : (Edit.splice d.edits 0 text.toList).toOption = some code.toList := by
    decide +kernel
  have finished := d.finish_of_text (by decide) (by decide) spliced
  have onTop : diagnosticsOnTop p = true := by
    have found : (parse? .strict dialect text).map diagnosticsOnTop = some true := by
      decide +kernel
    rw [read] at found
    exact Option.some.inj found
  have two : (p.body.filter fun s => (diagnostic? s).isNone).length = 2 := by
    have found : (parse? .strict dialect text).map
        (fun p => (p.body.filter fun s => (diagnostic? s).isNone).length) = some 2 := by
      decide +kernel
    rw [read] at found
    exact Option.some.inj found
  have one : q.body.length = 1 := by
    have found : (parse? .strict dialect code).map (fun q => q.body.length) = some 1 := by
      decide +kernel
    rw [again] at found
    exact Option.some.inj found
  refine ⟨p, q, _, parseScript_of_parse rfl read, onTop,
    applyAll_of_draft rfl drafted finished (by decide +kernel), parseScript_of_parse rfl again, fun same => ?_⟩
  have lengths := congrArg List.length same
  rw [List.length_map, List.length_map, one, two] at lengths
  cases lengths

end SourceRepair.Repair
