import SourceRepair.Proofs.Pipeline.Course

/-!
# A dry run tells what a run does

A run that writes goes through the results of the dry run up to the first layer that fails. When none
fails the two responses differ in the places of the backups only.
-/

namespace SourceRepair

/-- A result without the place of its backup. -/
def LayerResult.withoutBackup (l : LayerResult) : LayerResult := { l with backupPath := none }

/-- A response without the places of backups. -/
def Response.withoutBackups (r : Response) : Response :=
  { r with layers := r.layers.map LayerResult.withoutBackup }

namespace Pipeline

open Backup (Archive Receipt)
open Disk (Machine Move Program)

variable {a : Archive} {file : SourceFile} {start : String} {layers : List Layer}

/-- The results of layers that work on each other's texts. -/
def chain (file : SourceFile) : List Layer → String → List LayerResult
  | [], _ => []
  | layer :: rest, code => layer.run file code :: chain file rest (layer.run file code).code

/-- The results up to the first failure. -/
def upToFailure : List LayerResult → List LayerResult
  | [] => []
  | l :: rest => if l.success then l :: upToFailure rest else [l]

theorem upToFailure_of_success {ls : List LayerResult} (success : ∀ l ∈ ls, l.success = true) :
    upToFailure ls = ls := by
  induction ls with
  | nil => rfl
  | cons l rest ih =>
    rw [upToFailure, success l List.mem_cons_self, if_pos rfl,
      ih fun k member => success k (List.mem_cons_of_mem _ member)]

/-! ### Dry runs -/

theorem runLayers_dry (s : Standing) :
    runLayers a file start false layers s = pure ((chain file layers s.code).foldl .advance s) := by
  induction layers generalizing s with
  | nil => rfl
  | cons layer rest ih =>
    rw [runLayers]
    simp only [Bool.not_false, if_true]
    rw [ih]
    rfl

/-- The layers of a standing are those before it and what was gone through. -/
theorem layers_foldl_advance (ls : List LayerResult) (s : Standing) :
    (ls.foldl .advance s).response.layers = s.response.layers ++ ls := by
  induction ls generalizing s with
  | nil => simp
  | cons l rest ih =>
    rw [List.foldl_cons, ih]
    simp [Standing.advance, absorb]

/-! ### The same but for the backups -/

/-- Two runs stand at the same text with the same response, backups aside. -/
structure Standing.Agrees (s t : Standing) : Prop where
  code : s.code = t.code
  response : s.response.withoutBackups = t.response.withoutBackups

theorem withoutBackups_absorb (r : Response) (l : LayerResult) :
    (absorb r l).withoutBackups = absorb r.withoutBackups l.withoutBackup := by
  simp [Response.withoutBackups, absorb, LayerResult.withoutBackup]

/-- Responses that differ in the places of backups only say the same of the changes. -/
theorem eq_of_withoutBackups {r t : Response} (same : r.withoutBackups = t.withoutBackups) :
    r.changes = t.changes ∧ r.changeCount = t.changeCount ∧ r.warnings = t.warnings ∧
      r.success = t.success := by
  simp only [Response.withoutBackups, Response.mk.injEq] at same
  obtain ⟨success, _, _, count, changes, warnings, _, _⟩ := same
  exact ⟨changes, count, warnings, success⟩

theorem Standing.Agrees.advance {s t : Standing} (agrees : s.Agrees t) (l : LayerResult) :
    (s.advance l).Agrees (t.advance l) := by
  refine ⟨rfl, ?_⟩
  show (absorb s.response l).withoutBackups = (absorb t.response l).withoutBackups
  rw [withoutBackups_absorb, withoutBackups_absorb, agrees.response]

theorem Standing.Agrees.written {s t : Standing} (agrees : s.Agrees t) (l : LayerResult)
    (receipt : Receipt) : (s.written l receipt).Agrees (t.advance l) := by
  refine ⟨rfl, ?_⟩
  show (absorb s.response _).withoutBackups = (absorb t.response l).withoutBackups
  rw [withoutBackups_absorb, withoutBackups_absorb, agrees.response]
  rfl

/-! ### Runs that write -/

/-- The results of a run are those of its layers up to the first failure, unless a write fails. -/
theorem Course.results {s s' : Standing} {books books' : Bookkeeping} {m m' : Machine} {ms : List Move}
    (course : Course a file start layers s books m s' books' m' ms) :
    ∃ rs, s'.response.layers = s.response.layers ++ rs ∧
      s'.response.success = (s.response.success && rs.all (·.success)) ∧
      ((∀ r ∈ rs, r.changed = true → r.success = true) →
        rs.map LayerResult.withoutBackup = upToFailure (chain file layers s.code)) := by
  induction course with
  | done => exact ⟨[], by simp, by simp, fun _ => rfl⟩
  | @failed layer rest s s' books m m' ms failed ended =>
    obtain ⟨layers, success⟩ := halt_gives ended
    refine ⟨[layer.run file s.code], layers, by simp [success], fun _ => ?_⟩
    have bare := (layer.run_outcome file s.code).backupPath
    rw [chain, upToFailure, failed]
    simp [LayerResult.withoutBackup, ← bare]
  | @unchanged layer rest s s' books books' m m' ms success same next ih =>
    obtain ⟨rs, layers, succeeded, shown⟩ := ih
    refine ⟨layer.run file s.code :: rs, ?_, ?_, fun saved => ?_⟩
    · rw [layers]
      simp [Standing.advance, absorb]
    · rw [succeeded]
      simp [Standing.advance, absorb, Bool.and_assoc]
    · have bare := (layer.run_outcome file s.code).backupPath
      have tail := shown fun r member => saved r (List.mem_cons_of_mem _ member)
      rw [List.map_cons, tail, chain, upToFailure, success, if_pos rfl]
      simp [LayerResult.withoutBackup, ← bare, Standing.advance]
  | @written layer rest s s' books between books' m n m' first ms receipt success changed wrote next ih =>
    obtain ⟨rs, layers, succeeded, shown⟩ := ih
    refine ⟨{ layer.run file s.code with backupPath := receipt.backup.map (·.path) } :: rs, ?_, ?_,
      fun saved => ?_⟩
    · rw [layers]
      simp [Standing.written, Standing.advance, absorb]
    · rw [succeeded]
      simp [Standing.written, Standing.advance, absorb, Bool.and_assoc]
    · have bare := (layer.run_outcome file s.code).backupPath
      have tail := shown fun r member => saved r (List.mem_cons_of_mem _ member)
      rw [List.map_cons, tail, chain, upToFailure, success, if_pos rfl]
      simp [LayerResult.withoutBackup, ← bare, Standing.written, Standing.advance]
  | @refused layer rest s s' books books' m n m' first ms failure success changed tried ended =>
    obtain ⟨layers, succeeded⟩ := halt_gives ended
    refine ⟨[unwritten (layer.run file s.code) failure], layers, by simp [succeeded], fun saved => ?_⟩
    have impossible := saved _ List.mem_cons_self changed
    cases impossible

/-- A run in which no layer fails agrees with the dry run. -/
theorem Course.agrees {s s' t : Standing} {books books' : Bookkeeping} {m m' : Machine}
    {ms : List Move} (course : Course a file start layers s books m s' books' m' ms)
    (success : s'.response.success = true) (agrees : s.Agrees t) :
    s'.Agrees ((chain file layers s.code).foldl .advance t) := by
  induction course generalizing t with
  | done => exact agrees
  | failed failed ended =>
    rw [(halt_gives ended).2, failed, Bool.and_false] at success
    cases success
  | unchanged _ _ _ ih => exact ih success (agrees.advance _)
  | written _ _ _ _ ih => exact ih success (agrees.written _ _)
  | refused _ _ _ ended =>
    rw [(halt_gives ended).2, Bool.and_eq_true] at success
    cases success.2

/-! ### Whole runs -/

/-- The standing that a dry run ends with. -/
def forecast (file : SourceFile) (layers : List Layer) (code : String) : Standing :=
  (chain file layers code).foldl .advance (.start file.path code)

theorem run_dry (a : Archive) (code : String) (applyFixes : Bool) :
    run a layers file code ⟨false, applyFixes⟩ =
      pure { (forecast file layers code).response with
        code := if applyFixes then (forecast file layers code).code else code } := by
  rw [run, runLayers_dry, pure_bind]
  rfl

/-- A run in which no write fails gives the results of the dry run up to the first failure, and the
whole response if no layer fails. The dry run changes nothing, and without fixes gives the text back. -/
theorem dry_run_foretells (a : Archive) (layers : List Layer) (file : SourceFile) (code : String)
    (applyFixes : Bool) (books books' : Bookkeeping) (m m' : Machine) :
    let wet := (((run a layers file code ⟨true, applyFixes⟩).run books).run m).1.1
    let dry := (((run a layers file code ⟨false, applyFixes⟩).run books').run m').1.1
    ((∀ l ∈ wet.layers, l.changed = true → l.success = true) →
      wet.layers.map LayerResult.withoutBackup = upToFailure dry.layers ∧
      ((∀ l ∈ dry.layers, l.success = true) → wet.code = dry.code ∧ wet.changes = dry.changes ∧
        wet.changeCount = dry.changeCount ∧ wet.warnings = dry.warnings ∧
        wet.success = dry.success)) ∧
    (((run a layers file code ⟨false, applyFixes⟩).run books').run m').1.2 = books' ∧
    (((run a layers file code ⟨false, applyFixes⟩).run books').run m').2 = m' ∧
    (applyFixes = false → dry.code = code) := by
  intro wet dry
  have previewed : dry = { (forecast file layers code).response with
      code := if applyFixes then (forecast file layers code).code else code } := by
    show (((run a layers file code ⟨false, applyFixes⟩).run books').run m').1.1 = _
    rw [run_dry]
    rfl
  have listed : dry.layers = chain file layers code := by
    rw [previewed]
    exact (layers_foldl_advance _ _).trans (List.nil_append _)
  obtain ⟨s, course, ended⟩ := course_of_run (Program.gives_run
    ((run a layers file code ⟨true, applyFixes⟩).run books) m)
  have shown : wet = { s.response with code := if applyFixes then s.code else code } := ended
  obtain ⟨rs, gone, success, results⟩ := course.results
  have only : wet.layers = rs := by
    rw [shown]
    exact gone.trans (List.nil_append _)
  refine ⟨fun saved => ?_, ?_, ?_, ?_⟩
  · have cut : rs.map LayerResult.withoutBackup = upToFailure (chain file layers code) :=
      results (only ▸ saved)
    refine ⟨by rw [only, listed]; exact cut, fun succeeded => ?_⟩
    rw [listed] at succeeded
    rw [upToFailure_of_success succeeded] at cut
    have all : ∀ r ∈ rs, r.success = true := by
      intro r member
      have bare : r.withoutBackup ∈ chain file layers code := cut ▸ List.mem_map_of_mem member
      exact succeeded r.withoutBackup bare
    have won : s.response.success = true := by
      rw [success, List.all_eq_true.mpr all]
      rfl
    obtain ⟨same, response⟩ := course.agrees won (t := .start file.path code) ⟨rfl, rfl⟩
    have same : s.code = (forecast file layers code).code := same
    have response : s.response.withoutBackups = (forecast file layers code).response.withoutBackups :=
      response
    obtain ⟨changes, count, warnings, succeeded⟩ := eq_of_withoutBackups response
    rw [shown, previewed]
    exact ⟨by rw [same], changes, count, warnings, succeeded⟩
  · rw [run_dry]
    rfl
  · rw [run_dry]
    rfl
  · intro reported
    rw [previewed, reported]
    rfl

end Pipeline

end SourceRepair

/-!
## Runs without a failure of the disk

When every text that is to be written is written and every rollback succeeds, the response of a run is
decided by the layers and the text alone, backups aside: `run_settles`.
-/

namespace SourceRepair.Pipeline

open Backup (Archive)
open Disk (Machine Move Program)

variable {a : Archive} {file : SourceFile} {start code : String} {layers : List Layer} {s s' t : Standing}
  {r response : Response} {books books' : Bookkeeping} {m m' : Machine} {ms : List Move}

/-- Every text that was to be written was written, and no rollback left a warning. -/
structure Smooth (r : Response) : Prop where
  written : ∀ l ∈ r.layers, l.changed = true → l.success = true
  restored : r.warnings = r.layers.flatMap (·.warnings)

instance decidableSmooth (r : Response) : Decidable (Smooth r) :=
  decidable_of_iff ((∀ l ∈ r.layers, l.changed = true → l.success = true) ∧
    r.warnings = r.layers.flatMap (·.warnings))
    ⟨fun both => ⟨both.1, both.2⟩, fun smooth => ⟨smooth.written, smooth.restored⟩⟩

/-- What layers lead to. A run that writes ends at the first layer that fails. -/
def settle (file : SourceFile) (start : String) (write : Bool) : List Layer → Standing → Standing
  | [], s => s
  | layer :: rest, s =>
    let l := layer.run file s.code
    if write && !l.success then ⟨absorb s.response l, start, none⟩
    else settle file start write rest (s.advance l)

end SourceRepair.Pipeline
