import SourceRepair.Proofs.Repair.Recorded

/-!
# Repairs of given texts

What a repair does to a given text is found in steps: its tree, the draft for the tree, the text with the
edits of the draft, and the tree of that.
-/

namespace SourceRepair

variable {leniency : Script.Leniency} {file : SourceFile} {dialect : Script.Dialect} {text code : String}

theorem Edit.sorted_of_pairwise {edits : List Edit}
    (order : edits.zipIdx.Pairwise fun a b => Edit.le a b) : Edit.sorted edits = edits := by
  rw [Edit.sorted, List.mergeSort_of_pairwise order, List.zipIdx_map_fst]

theorem ok_of_toOption {ε α : Type} {result : Except ε α} {a : α}
    (found : result.toOption = some a) : result = .ok a := by
  cases result with
  | error => cases found
  | ok => exact congrArg Except.ok (Option.some.inj found)

/-- The offset of a conflict. -/
def conflict? {α : Type} : Except Failure α → Option Nat
  | .error (.editConflict offset) => some offset
  | _ => none

theorem error_of_conflict? {α : Type} {result : Except Failure α} {offset : Nat}
    (found : conflict? result = some offset) : result = .error (.editConflict offset) := by
  unfold conflict? at found
  split at found
  · cases found
    rfl
  · cases found

namespace Draft

variable {d : Draft}

/-- The changes of a draft, with their lines and columns. -/
def located (d : Draft) (text : String) : List Change :=
  d.changes.map fun (kind, description, offset) =>
    ⟨kind, description, some (Text.location text.toList offset)⟩

/-- A draft whose edits are recorded in the order of the text. -/
theorem finish_of_splice {spliced : Except Failure (List Char)} (drafted : d.edits ≠ [])
    (order : d.edits.zipIdx.Pairwise fun a b => Edit.le a b)
    (ran : Edit.splice d.edits 0 text.toList = spliced) :
    d.finish text = spliced.map fun cs => ⟨String.ofList cs, d.located text, d.warnings⟩ := by
  have recorded : d.edits.isEmpty = false := by simpa using drafted
  rw [finish, recorded, if_neg (by simp), Edit.applyAll, Edit.sorted_of_pairwise order, ran]
  cases spliced <;> rfl

theorem finish_of_text (drafted : d.edits ≠ []) (order : d.edits.zipIdx.Pairwise fun a b => Edit.le a b)
    (ran : (Edit.splice d.edits 0 text.toList).toOption = some code.toList) :
    d.finish text = .ok ⟨code, d.located text, d.warnings⟩ := by
  rw [finish_of_splice drafted order (ok_of_toOption ran), Except.map, String.ofList_toList]

theorem finish_of_conflict {offset : Nat} (drafted : d.edits ≠ [])
    (order : d.edits.zipIdx.Pairwise fun a b => Edit.le a b)
    (ran : conflict? (Edit.splice d.edits 0 text.toList) = some offset) :
    d.finish text = .error (.editConflict offset) := by
  rw [finish_of_splice drafted order (error_of_conflict? ran), Except.map]

end Draft

theorem parseScript_of_parse {program : Script.Program} (script : file.kind = .script dialect)
    (read : Script.parse? leniency dialect text = some program) :
    parseScript leniency file text = .ok program := by
  rw [parseScript, SourceFile.dialect?, script]
  dsimp only
  rw [read]

/-- A text is read as a script only if the file is one. -/
theorem parse_of_parseScript {program : Script.Program} (read : parseScript leniency file text = .ok program) :
    ∃ dialect, file.kind = .script dialect ∧ Script.parse? leniency dialect text = some program := by
  unfold parseScript at read
  split at read
  · cases read
  · rename_i dialect known
    split at read
    · rename_i p parsed
      cases read
      unfold SourceFile.dialect? at known
      split at known
      · rename_i kind
        cases known
        exact ⟨dialect, kind, parsed⟩
      · cases known
    · cases read

theorem validate_of_parse (script : file.kind = .script dialect)
    (read : (Script.parse? .strict dialect text).isSome = true) : validate file text = .ok () := by
  obtain ⟨program, read⟩ := Option.isSome_iff_exists.mp read
  rw [validate, script]
  dsimp only
  rw [parseScript_of_parse script read]
  rfl

namespace Repair

variable {r : Repair} {d : Draft} {start done : Rewrite}

/-- A repair whose draft and edited text are known. -/
theorem step_of_draft (start : Rewrite) (script : file.kind = .script dialect)
    (drafted : (Script.parse? leniency dialect start.code).map
      (fun p => r.draft ⟨p, start.code.toList, file⟩) = some d) :
    step leniency file start r = (d.finish start.code).map fun pass =>
      ⟨pass.code, start.changes ++ pass.changes, start.warnings ++ pass.warnings⟩ := by
  obtain ⟨program, read, rfl⟩ := Option.map_eq_some_iff.mp drafted
  rw [step, parseScript_of_parse script read]
  change (do let pass ← (r.draft ⟨program, start.code.toList, file⟩).finish start.code; _) = _
  cases (r.draft ⟨program, start.code.toList, file⟩).finish start.code <;> rfl

/-- A repair that finds nothing to do. -/
theorem step_of_idle (script : file.kind = .script dialect)
    (drafted : (Script.parse? leniency dialect start.code).map
      (fun p => r.draft ⟨p, start.code.toList, file⟩) = some {}) :
    step leniency file start r = .ok start := by
  have finished : Draft.finish {} start.code = .ok ⟨start.code, [], []⟩ := rfl
  rw [step_of_draft start script drafted, finished]
  simp [Except.map]

/-- A repair that makes one edit. -/
theorem step_of_edit {e : Edit} {kind : ChangeKind} {description : String} {offset : Nat}
    {l : Text.Location} (script : file.kind = .script dialect)
    (drafted : (Script.parse? leniency dialect start.code).map
      (fun p => r.draft ⟨p, start.code.toList, file⟩) = some (.change [e] kind description offset))
    (spliced : (Edit.splice [e] 0 start.code.toList).toOption = some code.toList)
    (located : Text.location start.code.toList offset = l) :
    step leniency file start r =
      .ok ⟨code, start.changes ++ [⟨kind, description, some l⟩], start.warnings⟩ := by
  have finished : (Draft.change [e] kind description offset).finish start.code =
      .ok ⟨code, [⟨kind, description, some l⟩], []⟩ := by
    rw [Draft.finish_of_text (by simp [Draft.change]) (by simp [Draft.change]) spliced, ← located]
    rfl
  rw [step_of_draft start script drafted, finished]
  simp [Except.map]

/-- One repair of a text. -/
theorem applyAll_of_draft (script : file.kind = .script dialect)
    (drafted : (Script.parse? leniency dialect text).map
      (fun p => r.draft ⟨p, text.toList, file⟩) = some d)
    (finished : d.finish text = .ok done)
    (valid : (Script.parse? .strict dialect done.code).isSome = true) :
    applyAll [r] leniency file text = .ok done := by
  have stepped : step leniency file ⟨text, [], []⟩ r = .ok done := by
    rw [step_of_draft ⟨text, [], []⟩ script drafted, finished]
    rfl
  rw [applyAll, List.foldlM_cons, stepped]
  change (do validate file done.code; pure done) = _
  rw [validate_of_parse script valid]
  rfl

/-- One repair whose edits are in conflict. -/
theorem applyAll_of_conflict {failure : Failure} (script : file.kind = .script dialect)
    (drafted : (Script.parse? leniency dialect text).map
      (fun p => r.draft ⟨p, text.toList, file⟩) = some d)
    (finished : d.finish text = .error failure) : applyAll [r] leniency file text = .error failure := by
  have stepped : step leniency file ⟨text, [], []⟩ r = .error failure := by
    rw [step_of_draft ⟨text, [], []⟩ script drafted, finished]
    rfl
  rw [applyAll, List.foldlM_cons, stepped]
  rfl

end Repair

end SourceRepair
