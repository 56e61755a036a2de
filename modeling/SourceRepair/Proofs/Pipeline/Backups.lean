import Mathlib.Data.List.Forall2
import SourceRepair.Proofs.Pipeline.Calm

/-!
# Backups of a run

The texts of a run, the file and the backups stay in step: each layer that changes something leaves a
backup of the text that it was given, and the file has the text of the last layer. `Pipeline.backups_in_step`
says so of runs that succeed.
-/

namespace SourceRepair.Pipeline

open Backup (Archive Receipt Record)
open Disk (Machine Move Program)

variable {a : Archive} {file : SourceFile} {start : String} {layers : List Layer} {s s' : Standing}
  {books books' : Bookkeeping} {m m' n : Machine} {ms : List Move}

/-- What a layer moved into place: a record of the text that it was given and then its own text, or
nothing if it changed nothing. -/
inductive Saved (a : Archive) (path : Path) : LayerResult → List Move → Prop
  | unchanged {r : LayerResult} (same : r.changed = false) (unsaved : r.backupPath = none) :
      Saved a path r []
  | written {r : LayerResult} {backup : Path} {timestamp : Nat} {before : Option ByteArray}
      (changed : r.changed = true) (saved : r.backupPath = some backup) :
      Saved a path r [
        ⟨backup, before, (Record.ofContent (a.absolute path) timestamp ("layer " ++ r.layer.label)
          r.originalCode).text.toUTF8⟩,
        ⟨path, some r.originalCode.toUTF8, r.code.toUTF8⟩]

/-- A write that went well has put its content at the path. -/
theorem read_of_wrote {place : Backup.Place} {path : Path} {content operation : String} {t u : Nat}
    {receipt : Receipt} (wrote : a.Wrote place path content operation m t receipt u n) :
    n.files.read path = .ok content.toUTF8 := by
  cases wrote with
  | fresh _ landed =>
    obtain ⟨_, d, _, found, _⟩ := landed
    exact Disk.Files.read_ok.mpr ⟨_, found⟩
  | replaced _ landed =>
    obtain ⟨_, d, _, found, _⟩ := landed
    exact Disk.Files.read_ok.mpr ⟨_, found⟩

/-- The text of a layer comes to a file after a record of what the file held. -/
theorem writeLayer_saves {path : Path} {l : LayerResult} {receipt : Receipt} {text : String}
    (wf : m.files.WellFormed) (tidy : m.environment.Tidy) (there : m.files.read path = .ok text.toUTF8)
    (wrote : ((writeLayer a path l).run books).Gives m (.ok receipt, books') n ms)
    (smooth : books'.handler.made = books.handler.made) :
    n.files.WellFormed ∧ n.environment = m.environment ∧ n.files.read path = .ok l.code.toUTF8 ∧
      ∃ info before, receipt.backup = some info ∧ ms = [
        ⟨info.path, before, (Record.ofContent (a.absolute path) info.timestamp
          ("layer " ++ l.layer.label) text).text.toUTF8⟩,
        ⟨path, some text.toUTF8, l.code.toUTF8⟩] := by
  obtain ⟨_, k, j, same, before, written, after⟩ := (writeLayer_gives wrote).2 smooth
  cases same
  have wf' : k.files.WellFormed := before.1 ▸ wf
  have tidy' : k.environment.Tidy := before.2 ▸ tidy
  have there' : k.files.read path = .ok text.toUTF8 := before.1 ▸ there
  obtain ⟨admitted, _, post, _⟩ := written.holds (Archive.write_holds wf' tidy')
  refine ⟨after.1 ▸ admitted.2.sound wf', after.2.trans (admitted.1.trans before.2), ?_,
    Archive.write_gives wf' tidy' there' written⟩
  rw [after.1]
  exact read_of_wrote (post receipt rfl)

theorem Course.made (course : Course a file start layers s books m s' books' m' ms) :
    books.handler.made ≤ books'.handler.made := by
  induction course with
  | done => exact Nat.le_refl _
  | failed => exact Nat.le_refl _
  | unchanged _ _ _ ih => exact ih
  | written _ _ wrote _ ih => exact Nat.le_trans (writeLayer_gives wrote).1 ih
  | refused _ _ tried _ => exact (writeLayer_gives tried).1

/-- The last text of some results, or the one before them. -/
def lastText (code : String) (rs : List LayerResult) : String := rs.foldl (fun _ r => r.code) code

/-- Text, file and backups stay in step as long as nothing fails. -/
theorem Course.saved (course : Course a file start layers s books m s' books' m' ms)
    (plain : ∀ layer ∈ layers, ∀ code, (layer.run file code).changed = false →
      (layer.run file code).code = code)
    (wf : m.files.WellFormed) (tidy : m.environment.Tidy)
    (there : m.files.read file.path = .ok s.code.toUTF8) (success : s'.response.success = true)
    (smooth : books'.handler.made = books.handler.made) :
    ∃ rs mss, s'.response.layers = s.response.layers ++ rs ∧ ms = mss.flatten ∧
      List.Forall₂ (Saved a file.path) rs mss ∧ s'.code = lastText s.code rs ∧
      m'.files.read file.path = .ok s'.code.toUTF8 := by
  induction course with
  | done => exact ⟨[], [], by simp, rfl, .nil, rfl, there⟩
  | failed failed ended =>
    rw [(halt_gives ended).2, failed, Bool.and_false] at success
    cases success
  | @unchanged layer rest s s' books books' m m' ms _ same next ih =>
    have kept := plain layer List.mem_cons_self s.code same
    obtain ⟨rs, mss, layers, rfl, saved, text, read⟩ :=
      ih (fun l member => plain l (List.mem_cons_of_mem _ member)) wf tidy (by
        rw [Standing.advance, kept]
        exact there) success smooth
    refine ⟨layer.run file s.code :: rs, [] :: mss, ?_, rfl, .cons (.unchanged same ?_) saved, ?_, read⟩
    · rw [layers]
      simp [Standing.advance, absorb]
    · exact (layer.run_outcome file s.code).backupPath
    · exact text
  | @written layer rest s s' books between books' m n m' first ms receipt _ changed wrote next ih =>
    have more := next.made
    have less := (writeLayer_gives wrote).1
    have given : m.files.read file.path = .ok (layer.run file s.code).originalCode.toUTF8 := by
      rw [(layer.run_outcome file s.code).originalCode]
      exact there
    obtain ⟨wf', environment, there', info, before, made, rfl⟩ :=
      writeLayer_saves wf tidy given wrote (by omega)
    obtain ⟨rs, mss, layers, rfl, saved, text, read⟩ :=
      ih (fun l member => plain l (List.mem_cons_of_mem _ member)) wf' (environment ▸ tidy) there' success
        (by omega)
    refine ⟨{ layer.run file s.code with backupPath := receipt.backup.map (·.path) } :: rs, _ :: mss, ?_,
      rfl, .cons (.written changed ?_) saved, ?_, read⟩
    · rw [layers]
      simp [Standing.written, Standing.advance, absorb]
    · rw [made]
      rfl
    · exact text
  | refused _ _ _ ended =>
    rw [(halt_gives ended).2, Bool.and_eq_true] at success
    cases success.2

/-- The moves and the end of a run that succeeds without a failure. -/
theorem run_saved {code : String} {applyFixes : Bool}
    (plain : ∀ layer ∈ layers, ∀ code, (layer.run file code).changed = false →
      (layer.run file code).code = code)
    (wf : m.files.WellFormed) (tidy : m.environment.Tidy)
    (there : m.files.read file.path = .ok code.toUTF8) {response : Response}
    (ran : ((run a layers file code ⟨true, applyFixes⟩).run books).Gives m (response, books') n ms)
    (success : response.success = true) (smooth : books'.handler.made = books.handler.made) :
    ∃ mss, ms = mss.flatten ∧ List.Forall₂ (Saved a file.path) response.layers mss ∧
      n.files.read file.path = .ok (lastText code response.layers).toUTF8 ∧
      response.code = if applyFixes then lastText code response.layers else code := by
  obtain ⟨s, course, rfl⟩ := course_of_run ran
  obtain ⟨rs, mss, layers, moved, saved, text, read⟩ := course.saved plain wf tidy there success smooth
  have only : s.response.layers = rs := layers.trans (List.nil_append _)
  have text : s.code = lastText code rs := text
  refine ⟨mss, moved, only ▸ saved, ?_, ?_⟩
  · rw [read, text, only]
  · rw [text, only]

/-- In a run that succeeds without a failure each layer that changes something makes one backup, of the
text that it was given and the file held, and no other layer makes any. Afterwards the file has the text
of the last layer, which is the text of the response if fixes are applied. -/
theorem backups_in_step (a : Archive) (layers : List Layer) (file : SourceFile) (code : String)
    (applyFixes : Bool) (books : Bookkeeping) (m : Machine)
    (plain : ∀ layer ∈ layers, ∀ code, (layer.run file code).changed = false →
      (layer.run file code).code = code)
    (wf : m.files.WellFormed) (tidy : m.environment.Tidy)
    (there : m.files.read file.path = .ok code.toUTF8) :
    let program := (run a layers file code ⟨true, applyFixes⟩).run books
    let response := (program.run m).1.1
    response.success = true → (program.run m).1.2.handler.made = books.handler.made →
    (∃ mss, program.moves m = mss.flatten ∧ List.Forall₂ (Saved a file.path) response.layers mss) ∧
    (program.run m).2.files.read file.path = .ok (lastText code response.layers).toUTF8 ∧
    (applyFixes = true →
      (program.run m).2.files.read file.path = .ok response.code.toUTF8) ∧
    (applyFixes = false → response.code = code) := by
  intro program response success smooth
  obtain ⟨mss, moved, saved, read, returned⟩ :=
    run_saved plain wf tidy there (program.gives_run m) success smooth
  refine ⟨⟨mss, moved, saved⟩, read, fun applied => ?_, fun unapplied => ?_⟩
  · rw [read, returned, if_pos applied]
  · rw [returned, unapplied]
    rfl

/-! ### A run of one layer -/

theorem read_smallMachine {content : String} :
    (smallMachine "a.json" content).files.read smallFile.path = .ok content.toUTF8 := rfl

theorem run_small (applyFixes : Bool) :
    let ran := ((run smallArchive [.constant "2"] smallFile "1" ⟨true, applyFixes⟩).run ⟨default, 0⟩).run
      (smallMachine "a.json" "1")
    ran.1.1.success = true ∧ ran.1.2.handler.made = (default : Recovery.Handler).made ∧
      lastText "1" ran.1.1.layers = "2" := by
  have result : (Layer.constant "2").run smallFile "1" =
      .finished .config "1" ⟨"2", [default], []⟩ .tree [] := Layer.run_constant (by decide)
  have whole : Program.HoldsFrom (fun _ => True) (fun response books' _ => response.success = true ∧
      books'.handler.made = (default : Recovery.Handler).made ∧ lastText "1" response.layers = "2")
      (run smallArchive [.constant "2"] smallFile "1" ⟨true, applyFixes⟩) ⟨default, 0⟩
      (smallMachine "a.json" "1") := by
    rw [run]
    refine Program.holdsFrom_bind (runLayers_write open_smallMachine read_smallMachine (fun _ => rfl) ?_ ?_
      (Q := fun s books' _ => s.response.success = true ∧
        books'.handler.made = (default : Recovery.Handler).made ∧ lastText "1" s.response.layers = "2") ?_) ?_
    · exact congrArg LayerResult.success result
    · exact congrArg LayerResult.changed result
    · refine fun receipt books' n made => Program.holdsFrom_pure.mpr ⟨trivial, ?_, made, ?_⟩
      · rw [show (Standing.start smallFile.path "1").code = "1" from rfl, result]
        rfl
      · rw [show (Standing.start smallFile.path "1").code = "1" from rfl, result]
        rfl
    · exact fun s books' n _ post => Program.holdsFrom_pure.mpr ⟨trivial, post⟩
  exact whole.run.2

theorem plain_constant {text : String} (accepted : validate file text = .ok ()) :
    ∀ layer ∈ [Layer.constant text], ∀ code, (layer.run file code).changed = false →
      (layer.run file code).code = code := by
  intro layer member code same
  rw [List.mem_singleton.mp member, Layer.run_constant accepted] at same
  cases same

theorem backups_in_step_small :
    let program := (run smallArchive [.constant "2"] smallFile "1" ⟨true, true⟩).run ⟨default, 0⟩
    let response := (program.run (smallMachine "a.json" "1")).1.1
    (∃ mss, program.moves (smallMachine "a.json" "1") = mss.flatten ∧
      List.Forall₂ (Saved smallArchive smallFile.path) response.layers mss) ∧
    (program.run (smallMachine "a.json" "1")).2.files.read smallFile.path =
      .ok response.code.toUTF8 := by
  obtain ⟨success, smooth, _⟩ := run_small true
  obtain ⟨saved, _, read, _⟩ := backups_in_step smallArchive [.constant "2"] smallFile "1" true
    ⟨default, 0⟩ (smallMachine "a.json" "1") (plain_constant (by decide)) smallMachine_wellFormed
    stillness_calm.tidy read_smallMachine success smooth
  exact ⟨saved, read rfl⟩

/-- Without fixes the file is written all the same, and the response has the text of the start. -/
theorem file_unlike_response :
    let ran := ((run smallArchive [.constant "2"] smallFile "1" ⟨true, false⟩).run ⟨default, 0⟩).run
      (smallMachine "a.json" "1")
    (∀ layer ∈ [Layer.constant "2"], ∀ code, (layer.run smallFile code).changed = false →
      (layer.run smallFile code).code = code) ∧
    (smallMachine "a.json" "1").files.read smallFile.path = .ok "1".toUTF8 ∧
    ran.1.1.success = true ∧ ran.1.2.handler.made = (default : Recovery.Handler).made ∧
    ran.2.files.read smallFile.path ≠ .ok ran.1.1.code.toUTF8 := by
  -- The run is named, so that nothing looks into it again.
  have unlike : ∀ ran, ((run smallArchive [.constant "2"] smallFile "1" ⟨true, false⟩).run ⟨default, 0⟩).run
        (smallMachine "a.json" "1") = ran →
      ran.1.1.success = true → ran.1.2.handler.made = (default : Recovery.Handler).made →
      lastText "1" ran.1.1.layers = "2" → ran.2.files.read smallFile.path ≠ .ok ran.1.1.code.toUTF8 := by
    rintro ⟨⟨response, books⟩, n⟩ ran success smooth last
    obtain ⟨_, _, _, read, returned⟩ := run_saved (plain_constant (by decide)) smallMachine_wellFormed
      stillness_calm.tidy read_smallMachine ⟨ran, rfl⟩ success smooth
    rw [returned, read, last]
    decide
  obtain ⟨success, smooth, last⟩ := run_small false
  exact ⟨plain_constant (by decide), rfl, success, smooth, unlike _ rfl success smooth last⟩

end SourceRepair.Pipeline
