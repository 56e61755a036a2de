import SourceRepair.Proofs.Conflicts.Calls
import SourceRepair.Proofs.Conflicts.Links
import SourceRepair.Proofs.Conflicts.Properties
import SourceRepair.Proofs.Conflicts.Statements

/-!
# Conflicts come from nesting

The repairs that take something away collect what they find on the whole walk. Their edits are in conflict
exactly if something that is taken away or moved stands inside of a part that is taken away for something
above it, and for the directive if the copy that is taken away stands around the place for the first one.
-/

namespace SourceRepair.Repair

open Script

variable {leniency : Leniency} {file : SourceFile} {text : String} {p : Program}

/-- When the repairs that take something away are in conflict. -/
theorem conflicts_iff_nested (read : parseScript leniency file text = .ok p) (standing : p.Standing text.toList) :
    (Conflicts removeDiagnostics leniency file text ↔
      ∃ v ∈ p.walk, ∃ w ∈ p.walk, v.node ∈ w.ancestors ∧ isDiagnostic v.node ∧ isDiagnostic w.node) ∧
    (Conflicts createRoot leniency file text ↔
      ∃ v ∈ p.walk, ∃ w ∈ p.walk, v.node ∈ w.ancestors ∧ InContainer v w) ∧
    (Conflicts nextConfigFlags leniency file text ↔ file.config = some .nextConfig ∧
      ∃ v ∈ p.walk, ∃ w ∈ p.walk, v.node ∈ w.ancestors ∧ InRemovedProperty v w) ∧
    (Conflicts linkChildren leniency file text ↔
      ∃ v ∈ p.walk, ∃ w ∈ p.walk, v.node ∈ w.ancestors ∧ InAnchorTag v w) ∧
    (Conflicts clientDirective leniency file text ↔
      needsDirective file p ∧ startsWithDirective p = false ∧ ∃ s ∈ misplacedDirectives p,
        s.start < p.hashbangEnd text.toList ∧
          p.hashbangEnd text.toList < (Text.removalRange text.toList s).stop) ∧
    ¬ Conflicts mergeImports leniency file text :=
  ⟨conflicts_removeDiagnostics read standing, conflicts_createRoot read standing,
    conflicts_nextConfigFlags read standing, conflicts_linkChildren read standing,
    conflicts_clientDirective read standing, not_conflicts_mergeImports read standing⟩

/-! ### A statement in a statement -/

set_option maxRecDepth 100000

/-- A script that is a module. -/
def plainScript : SourceFile := ⟨⟨"a.js"⟩, .script ⟨false, false, true, .module⟩, none⟩

/-- A text with a diagnostic statement inside of another one. -/
def debuggerInCall : String := "console.log(function () \x7b debugger; \x7d);\n"

theorem exists_debuggerInCall : ∃ p, parseScript .strict plainScript debuggerInCall = .ok p ∧
    p.Standing debuggerInCall.toList := by
  have stands : (parse? .strict ⟨false, false, true, .module⟩ debuggerInCall).map
      (fun p => p.stands debuggerInCall.toList 20) = some true := by
    decide +kernel
  obtain ⟨p, read, stands⟩ := Option.map_eq_some_iff.mp stands
  exact ⟨p, parseScript_of_parse rfl read, .of_stands stands⟩

theorem applyAll_debuggerInCall :
    applyAll [removeDiagnostics] .strict plainScript debuggerInCall = .error (.editConflict 26) := by
  let d : Draft := ⟨[.remove ⟨0, 40⟩, .remove ⟨26, 36⟩],
    [(.diagnosticRemoved, "removed \x60console.log\x60 statement", 0),
      (.diagnosticRemoved, "removed \x60debugger\x60 statement", 26)], []⟩
  have drafted : (parse? .strict ⟨false, false, true, .module⟩ debuggerInCall).map
      (fun p => removeDiagnostics.draft ⟨p, debuggerInCall.toList, plainScript⟩) = some d := by
    decide +kernel
  have spliced : conflict? (Edit.splice d.edits 0 debuggerInCall.toList) = some 26 := by
    decide +kernel
  exact applyAll_of_conflict rfl drafted (d.finish_of_conflict (by decide) (by decide) spliced)

/-- The script parses, so the conflict is between a statement and one inside it. -/
theorem conflicts_iff_nested_debugger :
    ∃ p, parseScript .strict plainScript debuggerInCall = .ok p ∧ p.Standing debuggerInCall.toList ∧
      (∃ v ∈ p.walk, ∃ w ∈ p.walk, v.node ∈ w.ancestors ∧ isDiagnostic v.node ∧ isDiagnostic w.node) ∧
      ¬ Conflicts mergeImports .strict plainScript debuggerInCall := by
  obtain ⟨p, read, standing⟩ := exists_debuggerInCall
  obtain ⟨diagnostics, -, -, -, -, imports⟩ := conflicts_iff_nested read standing
  exact ⟨p, read, standing, diagnostics.mp ⟨26, applyAll_debuggerInCall⟩, imports⟩

/-- The removal of a diagnostic statement is in conflict with that of a statement inside it. -/
theorem nested_diagnostics_conflict :
    ∃ p, parseScript .strict plainScript debuggerInCall = .ok p ∧
      applyAll [removeDiagnostics] .strict plainScript debuggerInCall = .error (.editConflict 26) := by
  obtain ⟨p, read, -⟩ := exists_debuggerInCall
  exact ⟨p, read, applyAll_debuggerInCall⟩

end SourceRepair.Repair
