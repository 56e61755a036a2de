import SourceRepair.Layer.Run

/-!
# What a layer gives

The text of a layer that did something is valid, whatever its stages do, and a layer that failed gives
the text that it was given.
-/

namespace SourceRepair.Layer

variable {l : Layer} {file : SourceFile} {code : String}

theorem treeStage_ok {rewrite : Rewrite} (done : l.treeStage file code = .ok rewrite) :
    l.transform file code = .ok rewrite ∧ validate file rewrite.code = .ok () := by
  unfold treeStage at done
  cases transformed : l.transform file code with
  | error e =>
    rw [transformed] at done
    cases done
  | ok r =>
    rw [transformed] at done
    simp only [bind, Except.bind] at done
    split at done
    · rename_i accepted
      cases done
      exact ⟨rfl, accepted⟩
    · cases done

/-- How the run of a layer can end. -/
inductive Outcome (l : Layer) (file : SourceFile) (code : String) : LayerResult → Prop
  | skipped : Outcome l file code (.passthrough l.id code .skipped)
  | finished {rewrite : Rewrite} {strategy : Strategy} {warnings : List String}
      (produced : l.transform file code = .ok rewrite ∨ rewrite = l.fallback file code)
      (accepted : validate file rewrite.code = .ok ()) :
      Outcome l file code (.finished l.id code rewrite strategy warnings)
  | unchanged {warnings : List String} (accepted : validate file code = .ok ()) :
      Outcome l file code { LayerResult.passthrough l.id code .unchanged with warnings := warnings }
  | failed {error : Failure} {warnings : List String} :
      Outcome l file code (.failed l.id code error warnings)

theorem run_outcome (l : Layer) (file : SourceFile) (code : String) :
    Outcome l file code (l.run file code) := by
  unfold run
  split
  · exact .skipped
  · cases staged : l.treeStage file code with
    | ok rewrite =>
      obtain ⟨transformed, accepted⟩ := treeStage_ok staged
      exact .finished (.inl transformed) accepted
    | error cause =>
      dsimp only
      unfold fallbackStage
      dsimp only
      split
      · cases checked : validate file (l.fallback file code).code with
        | ok _ => exact .finished (.inr rfl) checked
        | error e => exact .failed
      · cases checked : validate file code with
        | ok _ => exact .unchanged checked
        | error e => exact .failed

namespace Outcome

variable {r : LayerResult} (o : Outcome l file code r)

include o

theorem originalCode : r.originalCode = code := by
  cases o <;> rfl

theorem layer : r.layer = l.id := by
  cases o <;> rfl

theorem backupPath : r.backupPath = none := by
  cases o <;> rfl

/-- The result of a layer counts its changes. -/
theorem changeCount : r.changeCount = r.changes.length := by
  cases o <;> rfl

/-- A layer carries an error exactly if it failed. -/
theorem failed_iff : r.success = false ↔ r.error.isSome = true := by
  cases o with
  | failed => exact ⟨fun _ => rfl, fun _ => rfl⟩
  | _ => exact ⟨fun none => none.symm, fun none => none.symm⟩

/-- The text of a layer that did something is valid. -/
theorem valid (success : r.success = true) (did : r.strategy ≠ .skipped) :
    validate file r.code = .ok () := by
  cases o with
  | skipped => exact absurd rfl did
  | finished _ accepted => exact accepted
  | unchanged accepted => exact accepted
  | failed => cases success

/-- A layer that failed gives its text back. -/
theorem code_of_failed (failed : r.success = false) : r.code = code := by
  cases o with
  | finished => cases failed
  | _ => rfl

/-- A layer that reports changes has not failed. -/
theorem success_of_changed (changed : r.changed = true) : r.success = true := by
  cases o with
  | failed => cases changed
  | _ => rfl

/-- A layer that reports changes did something. -/
theorem valid_of_changed (changed : r.changed = true) : validate file r.code = .ok () := by
  cases o with
  | finished _ accepted => exact accepted
  | _ => cases changed

end Outcome

/-! ### Layers with one text -/

/-- A layer that puts one text in place of every other. -/
def constant (text : String) : Layer where
  id := .config
  applies _ := true
  transform _ _ := .ok ⟨text, [default], []⟩
  fallback _ _ := ⟨text, [default], []⟩

variable {text : String}

theorem run_constant (accepted : validate file text = .ok ()) :
    (constant text).run file code = .finished .config code ⟨text, [default], []⟩ .tree [] := by
  simp only [run, treeStage, constant, accepted, bind, Except.bind, pure, Except.pure]
  rfl

end SourceRepair.Layer
