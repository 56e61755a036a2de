import SourceRepair.Proofs.Pipeline.Calm

/-!
# Nothing invalid reaches the file

At every moment of a run the file holds what it held before or a text that is valid for it, whatever
the layers give and whatever fails. `Pipeline.run_safe` says so, and what the results say of texts.
-/

namespace SourceRepair.Pipeline

open Backup (Archive Receipt Record Info IsDigest fileName)
open Disk (Job Machine Program Scope Steady Location)
open Disk.Program (HoldsFrom holdsFrom_bind holdsFrom_lift holdsFrom_mono holdsFrom_pure)
open Disk.Staged (baseOf staging replacing IsPlace)

/-- The content is what its place held at the start, or a text that is valid for the file. -/
def Trusted (file : SourceFile) (m : Machine) (l : Location) (b : ByteArray) : Prop :=
  m.files.get? l = some (.file b) ∨ ∃ text : String, b = text.toUTF8 ∧ validate file text = .ok ()

/-- What holds at every moment of a run that started with the machine `m`. -/
structure Guarded (file : SourceFile) (m n : Machine) : Prop where
  environment : n.environment = m.environment
  sound : n.files.WellFormed
  grows : m.files.Grows n.files
  trusted : ∀ d b, n.files.get? (d ++ [baseOf file.path]) = some (.file b) →
    Trusted file m (d ++ [baseOf file.path]) b

variable {a : Archive} {file : SourceFile} {m n k : Machine} {scope : Scope} {start : String}

namespace Guarded

theorem refl (wf : m.files.WellFormed) : Guarded file m m :=
  ⟨rfl, wf, .refl _, fun _ _ found => .inl found⟩

theorem steady : Steady (Guarded file m) := by
  intro n k files environment guarded
  obtain ⟨same, sound, grows, trusted⟩ := guarded
  exact ⟨environment.trans same, files ▸ sound, files ▸ grows, files ▸ trusted⟩

/-- Changes that bring nothing to the name of the file but what is trusted. -/
theorem step (guarded : Guarded file m n) (admitted : scope.Admits n k)
    (safe : ∀ d b, scope.gain (d ++ [baseOf file.path]) b → Trusted file m (d ++ [baseOf file.path]) b) :
    Guarded file m k where
  environment := admitted.1.trans guarded.environment
  sound := admitted.2.sound guarded.sound
  grows := guarded.grows.trans admitted.2.grows
  trusted d b found := (admitted.2.gained _ b found).elim (guarded.trusted d b) (safe d b)

/-- What a path finds as the file is trusted. -/
theorem find (guarded : Guarded file m n) {l : Location} {b : ByteArray}
    (found : n.files.find file.path = .ok (l, .file b)) : Trusted file m l b := by
  obtain ⟨d, rfl, _⟩ := Disk.Staged.place_of_file guarded.sound found
  exact guarded.trusted d b (Disk.Files.find_ok.mp found).2.1

end Guarded

/-- A backup holds a content that is trusted at the place of the file, if it still holds anything. -/
def Kept (file : SourceFile) (m : Machine) (backup : Path) (stamp : Nat) (n : Machine) : Prop :=
  ∃ d t hash l, ∃ record : Record, t ≤ stamp ∧ IsDigest hash ∧
    n.files.locate backup = .ok (d ++ [fileName (baseOf file.path) t hash]) ∧
    (∀ b, n.files.get? (d ++ [fileName (baseOf file.path) t hash]) = some (.file b) →
      b = record.text.toUTF8) ∧
    n.files.locate file.path = .ok l ∧ Trusted file m l record.content.toUTF8

/-- Nothing comes to the names of backups that were made so far. -/
def Spares (scope : Scope) (base : String) (stamp : Nat) : Prop :=
  ∀ d t hash b, t ≤ stamp → IsDigest hash → ¬scope.gain (d ++ [fileName base t hash]) b

namespace Kept

variable {backup : Path} {stamp : Nat}

theorem step (kept : Kept file m backup stamp n) (admitted : scope.Admits n k)
    (spares : Spares scope (baseOf file.path) stamp) {later : Nat} (le : stamp ≤ later) :
    Kept file m backup later k := by
  obtain ⟨d, t, hash, l, record, before, digest, led, holds, place, trusted⟩ := kept
  refine ⟨d, t, hash, l, record, Nat.le_trans before le, digest, admitted.2.grows.locate led,
    fun b found => ?_, admitted.2.grows.locate place, trusted⟩
  exact holds b ((admitted.2.gained _ b found).resolve_right (spares d t hash b before digest))

theorem steady : Steady (Kept file m backup stamp) := by
  intro n k files environment kept
  rw [Kept, files]
  exact kept

end Kept

theorem spares_staging {p : Path} {base : String} {stamp : Nat} : Spares (staging p) base stamp := by
  rintro d t hash b _ digest ⟨d', nonce, _, same⟩
  exact Backup.fileName_ne_temporaryName digest _ _ (List.singleton_inj.mp (List.append_inj_right' same rfl))

theorem spares_replacing {fs : Disk.Files} {p : Path} {bytes : ByteArray} {stamp : Nat} :
    Spares (replacing fs p bytes) (baseOf p) stamp := by
  rintro d t hash b before digest (staged | ⟨⟨⟨d', same⟩, _⟩, _⟩)
  · exact spares_staging d t hash b before digest staged
  · have longer := Backup.length_fileName (baseOf p) t hash
    rw [List.singleton_inj.mp (List.append_inj_right' same rfl)] at longer
    exact absurd longer (Nat.lt_irrefl _)

theorem spares_landed {p : Path} {d : Location} {bytes : ByteArray} {stamp : Nat} :
    Spares ((staging p).or (Disk.Staged.landing (d ++ [baseOf p]) bytes)) (baseOf p) stamp := by
  rintro d' t hash b before digest (staged | ⟨same, _⟩)
  · exact spares_staging d' t hash b before digest staged
  · have longer := Backup.length_fileName (baseOf p) t hash
    rw [List.singleton_inj.mp (List.append_inj_right' same rfl)] at longer
    exact absurd longer (Nat.lt_irrefl _)

theorem spares_writing {place : Backup.Place} {fs : Disk.Files} {p : Path} {content : String}
    {stamp s : Nat} (le : stamp ≤ s) : Spares (a.writing place fs p content s) (baseOf p) stamp := by
  rintro d t hash b before digest (backed | replaced)
  · have later := Backup.Archive.gain_backing (Disk.Staged.not_slash_baseOf p) backed
    have after := later.ne_fileName digest
    omega
  · exact spares_replacing d t hash b before digest replaced

/-- A write brings nothing to the name of the file but its content. -/
theorem gain_writing {place : Backup.Place} {fs : Disk.Files} {p : Path} {content : String} {s : Nat}
    {d : Location} {b : ByteArray} (gained : (a.writing place fs p content s).gain (d ++ [baseOf p]) b) :
    b = content.toUTF8 := by
  rcases gained with backed | staged | ⟨_, same⟩
  · exact (Backup.Archive.gain_backing (Disk.Staged.not_slash_baseOf p) backed).ne_base.elim
  · exact absurd staged Disk.Staged.not_isTemporary
  · exact same

/-- A backup that was made holds what the file held. -/
theorem kept_of_wrote {place : Backup.Place} {content operation : String} {s t : Nat}
    {receipt : Receipt} {info : Info} (guarded : Guarded file m n)
    (wrote : a.Wrote place file.path content operation n s receipt t k)
    (made : receipt.backup = some info) : Kept file m info.path t k := by
  cases wrote with
  | fresh => cases made
  | @replaced info' text t i k backed landed =>
    cases made
    obtain ⟨_, read, _, rfl, j, saved, pruned⟩ := backed
    obtain ⟨l, found⟩ := Disk.Files.read_ok.mp read
    have digest := Backup.isDigest_ofText text
    obtain ⟨_, d, _, there, first⟩ := saved
    obtain ⟨_, d', _, _, last⟩ := landed
    have name : baseOf (a.infoOf place file.path t text).path =
        fileName (baseOf file.path) t (Digest.ofText text) :=
      Backup.Archive.baseOf_backupPath (Disk.Staged.not_slash_baseOf _) digest
    obtain ⟨led, written, _⟩ := Disk.Files.find_ok.mp there
    rw [name] at led written
    have trusted := guarded.find found
    have kept : Kept file m (a.infoOf place file.path t text).path t j :=
      ⟨d, t, _, l, Record.ofContent (a.absolute file.path) t operation text, Nat.le_refl t, digest, led,
        fun b same => by cases written.symm.trans same; rfl,
        first.2.grows.locate (Disk.Files.find_ok.mp found).1, trusted⟩
    exact (kept.step pruned.1 (fun _ _ _ _ _ _ gained => gained) (Nat.le_refl t)).step last spares_landed
      (Nat.le_refl t)

/-! ### Writes and rollbacks -/

/-- What a rollback would put back is trusted. -/
def Revocable (file : SourceFile) (m : Machine) (undo : Option Undo) (stamp : Nat) (n : Machine) :
    Prop :=
  ∀ backup, undo = some (.restore backup) → Kept file m backup stamp n

theorem Revocable.steady {undo : Option Undo} {stamp : Nat} :
    Steady (Revocable file m undo stamp) :=
  fun n k files environment revocable backup same =>
    Kept.steady n k files environment (revocable backup same)

/-- Every attempt to write a valid text keeps the run safe. -/
theorem write_keeps {place : Backup.Place} {content operation : String} {undo : Option Undo}
    (tidy : m.environment.Tidy) (accepted : validate file content = .ok ()) :
    Recovery.Handler.Keeps (Guarded file m) (Revocable file m undo)
      (fun receipt t k => ∀ info, receipt.backup = some info → Kept file m info.path t k)
      (a.write place file.path content operation) := by
  intro t n guarded revocable
  refine Backup.Dated.holds_mono (Archive.write_holds guarded.sound (guarded.environment ▸ tidy))
    (fun k admitted => guarded.step admitted fun d b gained => ?_) fun r u k admitted post => ⟨?_, ?_⟩
  · exact .inr ⟨content, gain_writing gained, accepted⟩
  · intro backup same
    exact (revocable backup same).step admitted (spares_writing (Nat.le_refl t)) post.1
  · intro receipt done info made
    exact kept_of_wrote guarded (post.2.1 receipt done) made

theorem writeLayer_holds {result : LayerResult} {undo : Option Undo} {books : Bookkeeping}
    (tidy : m.environment.Tidy) (accepted : validate file result.code = .ok ())
    (guarded : Guarded file m n) (revocable : Revocable file m undo books.stamp n) :
    HoldsFrom (Guarded file m) (fun r books' k => Revocable file m undo books'.stamp k ∧
      ∀ receipt, r = .ok receipt → ∀ info, receipt.backup = some info →
        Kept file m info.path books'.stamp k) (writeLayer a file.path result) books n := by
  have backed : ∀ (receipt : Receipt) (t : Nat), Steady fun k =>
      ∀ info, receipt.backup = some info → Kept file m info.path t k :=
    fun receipt t n k files environment kept info made =>
      Kept.steady n k files environment (kept info made)
  rw [HoldsFrom, run_writeLayer]
  refine Program.Holds.bind (Recovery.Handler.execute_holds Guarded.steady (fun _ => Revocable.steady)
    backed (fun _ => write_keeps tidy accepted) (fun f member record => ?_) guarded revocable) ?_
  · cases member
    exact write_keeps tidy accepted
  rintro r k inv ⟨revocable, given, _⟩
  exact .pure inv ⟨revocable, given⟩

/-- A rollback puts back what is trusted and keeps the results. -/
theorem rollBack_holds {undo : Option Undo} {stamp : Nat} {r : Response} (tidy : m.environment.Tidy)
    (detects : m.environment.Detects) (guarded : Guarded file m n)
    (revocable : Revocable file m undo stamp n) :
    (rollBack file.path undo r).Holds (Guarded file m) (fun r' _ => r'.layers = r.layers) n := by
  cases undo with
  | none => exact .pure guarded rfl
  | some undo =>
    have performed : (undo.perform file.path).run.Holds (Guarded file m) (fun _ _ => True) n := by
      cases undo with
      | remove =>
        let losing : Scope := ⟨fun _ => True, fun _ _ => False, fun _ => False⟩
        refine Job.holds_ofFault ((Program.holds_remove (Scope.Admits.refl losing n)
          fun gs done => Scope.allows_remove guarded.sound (fun _ _ => trivial) done).mono
          (fun k admitted => guarded.step admitted fun _ _ => False.elim) fun r _ _ _ => ?_)
        cases r <;> trivial
      | restore backup =>
        obtain ⟨d, t, hash, l, record, _, _, led, holds, place, trusted⟩ := revocable backup rfl
        have known : Archive.Restores n.files backup record.content := by
          intro text record' read decoded _
          obtain ⟨l', found⟩ := Disk.Files.read_ok.mp read
          obtain ⟨led', there, _⟩ := Disk.Files.find_ok.mp found
          cases led.symm.trans led'
          obtain rfl := String.toByteArray_inj.mp (holds _ there)
          rcases record.ofText_text with reads | ⟨e, fails⟩
          · cases reads.symm.trans decoded
            rfl
          · cases fails.symm.trans decoded
        refine Job.holds_discard ((Archive.restore_holds guarded.sound (guarded.environment ▸ tidy)
          (guarded.environment ▸ detects) known).mono (fun k admitted =>
            guarded.step admitted fun d' b gained => ?_) fun _ _ _ _ => trivial)
        rcases gained with staged | ⟨there, rfl⟩
        · exact absurd staged Disk.Staged.not_isTemporary
        · rw [there.2 l place]
          exact trusted
    refine performed.bind fun result k inv _ => ?_
    cases result with
    | ok _ => exact .pure inv rfl
    | error failure => exact .pure inv rfl

/-! ### Whole runs -/

/-- What a result says of its text: it is valid if the layer did something, and the one before if the
layer failed. -/
def Honest (file : SourceFile) (r : LayerResult) : Prop :=
  (r.success = true → r.strategy ≠ .skipped → validate file r.code = .ok ()) ∧
    (r.success = false → r.code = r.originalCode)

theorem honest_run (layer : Layer) (file : SourceFile) (code : String) :
    Honest file (layer.run file code) := by
  have outcome := layer.run_outcome file code
  exact ⟨outcome.valid, fun failed => (outcome.code_of_failed failed).trans outcome.originalCode.symm⟩

theorem honest_append {ls : List LayerResult} {l : LayerResult} (all : ∀ r ∈ ls, Honest file r)
    (last : Honest file l) : ∀ r ∈ ls ++ [l], Honest file r := by
  intro r member
  rcases List.mem_append.mp member with before | same
  · exact all r before
  · rwa [List.mem_singleton.mp same]

theorem halt_holds {s : Standing} {l : LayerResult} {stamp : Nat} (tidy : m.environment.Tidy)
    (detects : m.environment.Detects) (guarded : Guarded file m n)
    (revocable : Revocable file m s.undo stamp n) (all : ∀ r ∈ s.response.layers, Honest file r)
    (last : Honest file l) :
    (s.halt file.path start l).Holds (Guarded file m)
      (fun s' _ => ∀ r ∈ s'.response.layers, Honest file r) n := by
  refine (rollBack_holds tidy detects guarded revocable).bind fun r k inv same => .pure inv ?_
  have layers : r.layers = s.response.layers ++ [l] := same
  rw [layers]
  exact honest_append all last

theorem runLayers_holds {write : Bool} {layers : List Layer} {s : Standing} {books : Bookkeeping}
    (tidy : m.environment.Tidy) (detects : m.environment.Detects) (guarded : Guarded file m n)
    (revocable : Revocable file m s.undo books.stamp n)
    (all : ∀ r ∈ s.response.layers, Honest file r) :
    HoldsFrom (Guarded file m) (fun s' _ _ => ∀ r ∈ s'.response.layers, Honest file r)
      (runLayers a file start write layers s) books n := by
  induction layers generalizing s books n with
  | nil => exact holdsFrom_pure.mpr ⟨guarded, all⟩
  | cons layer rest ih =>
    have honest := honest_run layer file s.code
    have advanced := honest_append all honest
    rw [runLayers]
    split
    · exact ih guarded revocable advanced
    · split
      · exact holdsFrom_lift (halt_holds tidy detects guarded revocable all honest)
      · split
        · exact ih guarded revocable advanced
        · rename_i changed
          have accepted := (layer.run_outcome file s.code).valid_of_changed (by simpa using changed)
          refine holdsFrom_bind (writeLayer_holds tidy accepted guarded revocable) ?_
          rintro r books' k inv ⟨revocable, given⟩
          cases r with
          | error failure =>
            exact holdsFrom_lift (halt_holds tidy detects inv revocable all ⟨fun same => (by cases same), fun _ => rfl⟩)
          | ok receipt =>
            refine ih inv ?_ (honest_append all ⟨honest.1, honest.2⟩)
            intro backup same
            cases earlier : s.undo with
            | some undo =>
              refine revocable backup (earlier.trans ?_)
              simpa [Standing.written, earlier] using same
            | none =>
              cases made : receipt.backup with
              | none => simp [Standing.written, earlier, made] at same
              | some info =>
                obtain rfl : info.path = backup := by
                  simpa [Standing.written, earlier, made] using same
                exact given receipt rfl info made

/-- At every moment of a run the file holds what was there before or a valid text, whatever the layers
give and whatever fails. At its end every result is honest. -/
theorem run_safe (a : Archive) (layers : List Layer) (file : SourceFile) (code : String)
    (options : Options) (books : Bookkeeping) (m : Machine) (wf : m.files.WellFormed)
    (tidy : m.environment.Tidy) (detects : m.environment.Detects) :
    HoldsFrom (fun n => ∀ l b, n.files.find file.path = .ok (l, .file b) → Trusted file m l b)
      (fun response _ _ => ∀ r ∈ response.layers, Honest file r)
      (run a layers file code options) books m := by
  have whole : HoldsFrom (Guarded file m) (fun response _ _ => ∀ r ∈ response.layers, Honest file r)
      (run a layers file code options) books m := by
    rw [run]
    refine holdsFrom_bind (runLayers_holds tidy detects (.refl wf)
      (fun _ same => by cases same) (fun _ member => by cases member)) ?_
    exact fun s books' k inv honest => holdsFrom_pure.mpr ⟨inv, honest⟩
  exact holdsFrom_mono whole (fun n guarded l b found => guarded.find found) fun _ _ _ _ honest => honest

theorem run_safe_small :
    HoldsFrom (fun n => ∀ l b, n.files.find smallFile.path = .ok (l, .file b) →
        Trusted smallFile (smallMachine "a.json" "1") l b)
      (fun response _ _ => ∀ r ∈ response.layers, Honest smallFile r)
      (run smallArchive [.constant "2", .constant "x"] smallFile "1" ⟨true, true⟩) ⟨default, 0⟩
      (smallMachine "a.json" "1") :=
  run_safe _ _ _ _ _ _ _ smallMachine_wellFormed stillness_calm.tidy stillness_calm.detects

end SourceRepair.Pipeline
