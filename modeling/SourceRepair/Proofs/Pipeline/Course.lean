import SourceRepair.Pipeline
import SourceRepair.Proofs.Backup.Moves
import SourceRepair.Proofs.Backup.Within
import SourceRepair.Proofs.Layer.Run
import SourceRepair.Proofs.Recovery.Execute

/-!
# The course of a run

What a run does at each of its layers, said once. Laws of whole runs are proved by induction on the
course of a run.
-/

namespace SourceRepair.Pipeline

open Backup (Archive Receipt)
open Disk (Machine Move Program)

variable {a : Archive} {file : SourceFile} {start : String}

/-- The course of a run that writes, with what it moves: each layer fails, changes nothing, is written
or cannot be written. -/
inductive Course (a : Archive) (file : SourceFile) (start : String) : List Layer → Standing →
    Bookkeeping → Machine → Standing → Bookkeeping → Machine → List Move → Prop
  | done {s : Standing} {books : Bookkeeping} {m : Machine} :
      Course a file start [] s books m s books m []
  | failed {layer : Layer} {rest : List Layer} {s s' : Standing} {books : Bookkeeping} {m m' : Machine}
      {ms : List Move} (failed : (layer.run file s.code).success = false)
      (ended : (s.halt file.path start (layer.run file s.code)).Gives m s' m' ms) :
      Course a file start (layer :: rest) s books m s' books m' ms
  | unchanged {layer : Layer} {rest : List Layer} {s s' : Standing} {books books' : Bookkeeping}
      {m m' : Machine} {ms : List Move} (success : (layer.run file s.code).success = true)
      (same : (layer.run file s.code).changed = false)
      (next : Course a file start rest (s.advance (layer.run file s.code)) books m s' books' m' ms) :
      Course a file start (layer :: rest) s books m s' books' m' ms
  | written {layer : Layer} {rest : List Layer} {s s' : Standing} {books between books' : Bookkeeping}
      {m n m' : Machine} {first ms : List Move} {receipt : Receipt}
      (success : (layer.run file s.code).success = true)
      (changed : (layer.run file s.code).changed = true)
      (wrote : ((writeLayer a file.path (layer.run file s.code)).run books).Gives m
        (.ok receipt, between) n first)
      (next : Course a file start rest (s.written (layer.run file s.code) receipt) between n s' books'
        m' ms) :
      Course a file start (layer :: rest) s books m s' books' m' (first ++ ms)
  | refused {layer : Layer} {rest : List Layer} {s s' : Standing} {books books' : Bookkeeping}
      {m n m' : Machine} {first ms : List Move} {failure : Failure}
      (success : (layer.run file s.code).success = true)
      (changed : (layer.run file s.code).changed = true)
      (tried : ((writeLayer a file.path (layer.run file s.code)).run books).Gives m
        (.error failure, books') n first)
      (ended : (s.halt file.path start (unwritten (layer.run file s.code) failure)).Gives n s' m' ms) :
      Course a file start (layer :: rest) s books m s' books' m' (first ++ ms)

/-- Writing a layer is one operation under its plan, with the other place for the backup as its detour. -/
theorem run_writeLayer (a : Archive) (path : Path) (l : LayerResult) (books : Bookkeeping) :
    (writeLayer a path l).run books = (books.handler.execute .io
      { operation := "write " ++ ("layer " ++ l.layer.label), path := some path }
      (fun _ => a.write .primary path l.code ("layer " ++ l.layer.label))
      (some fun _ => a.write .alternate path l.code ("layer " ++ l.layer.label))).run books.stamp >>=
        fun r => pure (r.1.1.result, ⟨r.1.2, r.2⟩) := by
  rw [writeLayer, StateT.run_bind]
  simp [bind_pure_comp]

/-- Writing a layer never takes a record of a failure back, and if it makes none it was a single write. -/
theorem writeLayer_gives {path : Path} {l : LayerResult} {r : Except Failure Receipt}
    {books books' : Bookkeeping} {m n : Machine} {ms : List Move}
    (wrote : ((writeLayer a path l).run books).Gives m (r, books') n ms) :
    books.handler.made ≤ books'.handler.made ∧
      (books'.handler.made = books.handler.made → ∃ receipt k j, r = .ok receipt ∧ m.Same k ∧
        ((a.write .primary path l.code ("layer " ++ l.layer.label)).run.run books.stamp).Gives k
          (.ok receipt, books'.stamp) j ms ∧ j.Same n) := by
  rw [run_writeLayer] at wrote
  obtain ⟨⟨⟨execution, handler⟩, stamp⟩, k, first, rest, executed, ⟨ran, moved⟩, rfl⟩ :=
    Program.bind_gives wrote
  cases ran
  refine ⟨Recovery.Handler.made_of_execute executed, fun same => ?_⟩
  obtain ⟨receipt, i, j, result, before, written, after⟩ :=
    Recovery.Handler.execute_of_made executed same
  rw [← moved, Program.moves_pure, List.append_nil]
  exact ⟨receipt, i, j, result, before, written, after⟩

/-- The same, by what the write did. -/
theorem writeLayer_wrote {path : Path} {l : LayerResult} {r : Except Failure Receipt}
    {books books' : Bookkeeping} {m n : Machine} {ms : List Move} (wf : m.files.WellFormed)
    (tidy : m.environment.Tidy) (wrote : ((writeLayer a path l).run books).Gives m (r, books') n ms)
    (smooth : books'.handler.made = books.handler.made) :
    ∃ receipt, r = .ok receipt ∧
      a.Wrote .primary path l.code ("layer " ++ l.layer.label) m books.stamp receipt books'.stamp n := by
  obtain ⟨receipt, k, j, done, before, written, after⟩ := (writeLayer_gives wrote).2 smooth
  obtain ⟨_, _, post, _⟩ := written.holds (Archive.write_holds (before.1 ▸ wf) (before.2 ▸ tidy))
  exact ⟨receipt, done, (post receipt rfl).same before after⟩

theorem course_of_layers {layers : List Layer} {s s' : Standing} {books books' : Bookkeeping}
    {m m' : Machine} {ms : List Move}
    (ran : ((runLayers a file start true layers s).run books).Gives m (s', books') m' ms) :
    Course a file start layers s books m s' books' m' ms := by
  induction layers generalizing s books m ms with
  | nil =>
    obtain ⟨same, rfl⟩ := ran
    cases same
    exact .done
  | cons layer rest ih =>
    rw [runLayers] at ran
    simp only [Bool.not_true, Bool.false_eq_true, if_false] at ran
    split at ran
    · rename_i failed
      obtain ⟨same, ended⟩ := Program.lift_gives ran
      cases same
      exact .failed (by simpa using failed) ended
    · rename_i success
      split at ran
      · rename_i same
        exact .unchanged (by simpa using success) (by simpa using same) (ih ran)
      · rename_i changed
        rw [StateT.run_bind] at ran
        obtain ⟨⟨r, between⟩, n, first, after, wrote, next, rfl⟩ := Program.bind_gives ran
        cases r with
        | ok receipt => exact .written (by simpa using success) (by simpa using changed) wrote (ih next)
        | error failure =>
          obtain ⟨same, ended⟩ := Program.lift_gives next
          cases same
          exact .refused (by simpa using success) (by simpa using changed) wrote ended

/-- Whatever a run does, the disk stays sound and no directory is given up. -/
theorem Course.admits {layers : List Layer} {s s' : Standing} {books books' : Bookkeeping}
    {m m' : Machine} {ms : List Move} (course : Course a file start layers s books m s' books' m' ms)
    (wf : m.files.WellFormed) : Disk.Scope.anything.Admits m m' := by
  induction course with
  | done => exact .refl _ _
  | failed _ ended => exact (ended.holds (Program.holds_anything _ wf)).1
  | unchanged _ _ _ ih => exact ih wf
  | written _ _ wrote _ ih =>
    have first := (wrote.holds (Program.holds_anything _ wf)).1
    exact first.trans (ih (first.2.sound wf))
  | refused _ _ tried ended =>
    have first := (tried.holds (Program.holds_anything _ wf)).1
    exact first.trans (ended.holds (Program.holds_anything _ (first.2.sound wf))).1

/-- The course of a whole run. -/
theorem course_of_run {layers : List Layer} {code : String} {applyFixes : Bool} {response : Response}
    {books books' : Bookkeeping} {m m' : Machine} {ms : List Move}
    (ran : ((run a layers file code ⟨true, applyFixes⟩).run books).Gives m (response, books') m' ms) :
    ∃ s, Course a file code layers (.start file.path code) books m s books' m' ms ∧
      response = { s.response with code := if applyFixes then s.code else code } := by
  rw [run, StateT.run_bind] at ran
  obtain ⟨⟨s, between⟩, n, first, rest, gone, last, rfl⟩ := Program.bind_gives ran
  obtain ⟨rfl, rfl, rfl, rfl⟩ := Program.pure_gives last
  rw [List.append_nil]
  exact ⟨s, course_of_layers gone, rfl⟩

/-- A rollback adds warnings at most. -/
theorem rollBack_gives {path : Path} {undo : Option Undo} {r r' : Response} {m n : Machine}
    {ms : List Move} (h : (rollBack path undo r).Gives m r' n ms) :
    ∃ warnings, r' = { r with warnings := r.warnings ++ warnings } := by
  cases undo with
  | none =>
    obtain ⟨same, _⟩ := h
    cases same
    exact ⟨[], by simp⟩
  | some undo =>
    obtain ⟨result, k, first, rest, _, ⟨same, _⟩, _⟩ := Program.bind_gives h
    cases result with
    | ok _ =>
      cases same
      exact ⟨[], by simp⟩
    | error failure =>
      cases same
      exact ⟨_, rfl⟩

/-- A run that ends at a layer takes in its result, and has the text that it started with. -/
theorem halt_ends {s s' : Standing} {path : Path} {l : LayerResult} {m n : Machine} {ms : List Move}
    (h : (s.halt path start l).Gives m s' n ms) :
    ∃ warnings, s' = ⟨{ absorb s.response l with
      warnings := (absorb s.response l).warnings ++ warnings }, start, none⟩ := by
  obtain ⟨r, k, first, rest, rolled, ⟨same, _⟩, _⟩ := Program.bind_gives h
  obtain ⟨warnings, rfl⟩ := rollBack_gives rolled
  cases same
  exact ⟨warnings, rfl⟩

/-- A run that ends at a layer has its result as the last. -/
theorem halt_gives {s s' : Standing} {path : Path} {l : LayerResult} {m n : Machine} {ms : List Move}
    (h : (s.halt path start l).Gives m s' n ms) :
    s'.response.layers = s.response.layers ++ [l] ∧
      s'.response.success = (s.response.success && l.success) := by
  obtain ⟨warnings, rfl⟩ := halt_ends h
  exact ⟨rfl, rfl⟩

end SourceRepair.Pipeline

/-!
## What a run may touch

Whatever fails, a run touches nothing but its file, what is beside it and the backups of the file.
-/

namespace SourceRepair.Pipeline

open Backup (Archive)
open Backup.Archive (filing)
open Disk (Job Location Machine Program Scope)
open Disk.Program (HoldsFrom holdsFrom_bind holdsFrom_lift holdsFrom_pure)
open Disk.Staged (around baseOf)

variable {a : Archive} {file : SourceFile} {path : Path} {start code : String} {u : Scope} {m n : Machine}
  {books : Bookkeeping}

/-- A scope that holds whatever a run on a file touches. -/
structure Spans (u : Scope) (a : Archive) (current : Location) (path : Path) : Prop where
  file : (around current path).Le u
  backups : ∀ place, (filing current (a.directory place path) (baseOf path)).Le u

theorem write_spanned (spans : Spans u a m.files.current path) (place : Backup.Place)
    (content operation : String) (wf : m.files.WellFormed) (tidy : m.environment.Tidy) :
    Recovery.Handler.Keeps (u.Admits m) (fun _ _ => True) (fun _ _ _ => True)
      (a.write place path content operation) := by
  intro t n inv _
  have within := (Archive.within_write m.files.current a place path content operation).mono
    (fun _ => Scope.Permits.mono (Scope.or_le (spans.backups place) spans.file)) t
  exact (within.holds wf tidy inv).mono (fun _ => id) fun _ _ _ _ => ⟨trivial, fun _ _ => trivial⟩

theorem writeLayer_spanned (spans : Spans u a m.files.current path) (l : LayerResult)
    (wf : m.files.WellFormed) (tidy : m.environment.Tidy) (inv : u.Admits m n) :
    HoldsFrom (u.Admits m) (fun _ _ _ => True) (writeLayer a path l) books n := by
  have always : Disk.Steady fun _ => True := fun _ _ _ _ _ => trivial
  rw [HoldsFrom, run_writeLayer]
  refine Program.Holds.bind (Recovery.Handler.execute_holds (Scope.steady u m) (fun _ => always)
    (fun _ _ => always) (fun _ => write_spanned spans .primary _ _ wf tidy) (fun f member record => ?_) inv
    trivial) fun r k inv _ => .pure inv trivial
  cases member
  exact write_spanned spans .alternate _ _ wf tidy

theorem rollBack_spanned (spans : Spans u a m.files.current path) (undo : Option Undo) (r : Response)
    (wf : m.files.WellFormed) (tidy : m.environment.Tidy) (inv : u.Admits m n) :
    (rollBack path undo r).Holds (u.Admits m) (fun _ _ => True) n := by
  cases undo with
  | none => exact .pure inv trivial
  | some undo =>
    have performed : (undo.perform path).run.Holds (u.Admits m) (fun _ _ => True) n := by
      cases undo with
      | remove =>
        have permits : u.Permits m.files.current (.remove path) := spans.file.lose _ (.inl rfl)
        exact ((Job.within_ask (Program.within_perform permits).any).holds wf tidy inv).mono (fun _ => id)
          fun _ _ _ _ => trivial
      | restore backup =>
        have within := (Archive.within_restore m.files.current backup path).mono
          (fun _ => Scope.Permits.mono spans.file) fun _ => id
        exact Job.holds_discard ((within.holds wf tidy inv).mono (fun _ => id) fun _ _ _ _ => trivial)
    refine performed.bind fun result k inv _ => ?_
    cases result with
    | ok _ => exact .pure inv trivial
    | error failure => exact .pure inv trivial

theorem halt_spanned (spans : Spans u a m.files.current path) (s : Standing) (l : LayerResult)
    (wf : m.files.WellFormed) (tidy : m.environment.Tidy) (inv : u.Admits m n) :
    (s.halt path start l).Holds (u.Admits m) (fun _ _ => True) n :=
  (rollBack_spanned spans s.undo _ wf tidy inv).bind fun _ _ inv _ => .pure inv trivial

theorem runLayers_spanned (spans : Spans u a m.files.current file.path) (write : Bool) (layers : List Layer)
    (s : Standing) (wf : m.files.WellFormed) (tidy : m.environment.Tidy) (inv : u.Admits m n) :
    HoldsFrom (u.Admits m) (fun _ _ _ => True) (runLayers a file start write layers s) books n := by
  induction layers generalizing s books n with
  | nil => exact holdsFrom_pure.mpr ⟨inv, trivial⟩
  | cons layer rest ih =>
    rw [runLayers]
    split
    · exact ih _ inv
    · split
      · exact holdsFrom_lift (halt_spanned spans s _ wf tidy inv)
      · split
        · exact ih _ inv
        · refine holdsFrom_bind (writeLayer_spanned spans _ wf tidy inv) fun r books' k inv _ => ?_
          cases r with
          | ok receipt => exact ih _ inv
          | error failure => exact holdsFrom_lift (halt_spanned spans s _ wf tidy inv)

/-- A run touches nothing but its file, what is beside it and the backups of the file. -/
theorem run_spanned (spans : Spans u a m.files.current file.path) (layers : List Layer) (options : Options)
    (wf : m.files.WellFormed) (tidy : m.environment.Tidy) (inv : u.Admits m n) :
    HoldsFrom (u.Admits m) (fun _ _ _ => True) (run a layers file code options) books n := by
  rw [run]
  refine holdsFrom_bind (runLayers_spanned spans options.write layers _ wf tidy inv) ?_
  exact fun s books' k inv _ => holdsFrom_pure.mpr ⟨inv, trivial⟩

end SourceRepair.Pipeline
