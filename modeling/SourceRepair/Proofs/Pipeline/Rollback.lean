import SourceRepair.Proofs.Backup.Retention
import SourceRepair.Proofs.Pipeline.Backups

/-!
# Rolling a run back

A run that fails restores the backup of its first write. Each later write makes a backup too, and with
it the archive may give the first one up. So the file goes back to what it was only if the run made no
more writes than the archive keeps backups, `Pipeline.rolled_back_iff`.
-/

namespace SourceRepair.Pipeline

open Backup (Archive Receipt Record Info IsDigest fileName parseName?)
open Backup.Archive (Arrives Fate Past Present Pruned Unobstructed infoAt)
open Disk (Files Job Location Machine Move Program)
open Disk.Files (endsInSlash)
open Disk.Staged (Clear Landed Ready baseOf temporaryName)

variable {a : Archive} {file : SourceFile} {path backup : Path} {start text content operation : String}
  {before : ByteArray} {count s t : Nat} {m n k : Machine} {receipt : Receipt}

theorem directory_ne_empty (rooted : a.root.text ≠ "") (path : Path) :
    (a.directory .primary path).text ≠ "" := by
  unfold Archive.directory
  generalize a.directoryNames path = names
  have all : ∀ dir : Path, dir.text ≠ "" →
      (names.foldl (fun dir name => dir.join ⟨name⟩) dir).text ≠ "" := by
    induction names with
    | nil => exact fun _ full => full
    | cons name rest ih => exact fun dir full => ih _ (Path.join_ne_empty full _)
  exact all a.root rooted

/-! ### The first backup through a run -/

/-- A backup of `before` in its directory. -/
structure Shelved (a : Archive) (path : Path) (before : ByteArray) (backup : Path) (dl : Location)
    (name : String) (read : Nat × String) (record : Record) (stamp : Nat) (fs : Files) : Prop where
  there : fs.find (a.directory .primary path) = .ok (dl, .directory)
  led : fs.locate backup = .ok (dl ++ [name])
  slash : endsInSlash backup = false
  parsed : parseName? (baseOf path) name = some read
  old : read.1 ≤ stamp
  reads : Record.ofText record.text = .ok record
  intact : record.isIntact = true
  content : record.content.toUTF8 = before

/-- Where a run stands after a first write and `count` more, the last of `text`. -/
structure Recoverable (a : Archive) (path : Path) (before : ByteArray) (backup : Path) (count : Nat)
    (text : String) (stamp : Nat) (n : Machine) : Prop where
  calm : n.environment.Calm
  sound : n.files.WellFormed
  ready : Ready n.files path
  read : n.files.read path = .ok text.toUTF8
  past : Past n.environment stamp (baseOf path) n.files
  saved : ∃ dl name read record, Shelved a path before backup dl name read record stamp n.files ∧
    Fate a.cap (a.directory .primary path) (baseOf path) dl name read record.text.toUTF8 count n.files

/-- The steps of a write to a file: a new backup of its text, pruning, the content. -/
structure Replaced (a : Archive) (path : Path) (operation text content : String) (t : Nat)
    (m j k n : Machine) : Prop where
  arrives : Arrives (a.directory .primary path) (baseOf path) t (Digest.ofText text)
    (Record.ofContent (a.absolute path) t operation text).text.toUTF8 m j
  pruned : Pruned a (a.directory .primary path) (baseOf path) j k
  landed : Landed k path content.toUTF8 n
  free : Unobstructed (baseOf path) n.files

theorem replaced_of_wrote (wf : m.files.WellFormed) (rooted : a.root.text ≠ "")
    (past : Past m.environment s (baseOf path) m.files) (there : m.files.read path = .ok before)
    (wrote : a.Wrote .primary path content operation m s receipt t n) (fits : t < 2 ^ 64)
    (free : Unobstructed (baseOf path) n.files) :
    ∃ text j k, before = text.toUTF8 ∧ receipt.backup = some (a.infoOf .primary path t text) ∧ s < t ∧
      Replaced a path operation text content t m j k n := by
  cases wrote with
  | fresh absent =>
    obtain ⟨l, found⟩ := Files.read_ok.mp there
    rw [Files.kindAt, found] at absent
    cases absent
  | @replaced info text t k n backed landed =>
    obtain ⟨_, read, dates, rfl, j, saved, pruned⟩ := backed
    have same := Except.ok.inj (there.symm.trans read)
    have grows : j.files.Grows n.files := by
      obtain ⟨_, _, _, _, admitted⟩ := landed
      exact pruned.1.2.grows.trans admitted.2.grows
    exact ⟨text, j, k, same, rfl, dates.later, {
      full := directory_ne_empty rooted path
      plain := Disk.Staged.not_slash_baseOf path
      digest := Backup.isDigest_ofText text
      fits := fits
      sound := wf
      landed := saved
      free := free.of_grows grows
      latest := fun d name read node found parsed => past d name read node found parsed t dates },
      pruned, landed, free⟩

namespace Replaced

variable {j : Machine} {dl : Location} {name : String} {read : Nat × String} {bytes : ByteArray}
  (replaced : Replaced a path operation text content t m j k n)

include replaced

theorem saved : j.environment = m.environment ∧ j.files.WellFormed ∧ m.files.Grows j.files := by
  obtain ⟨_, admitted⟩ := replaced.arrives.admits
  exact ⟨admitted.1, admitted.2.sound replaced.arrives.sound, admitted.2.grows⟩

theorem grows : j.files.Grows n.files := by
  obtain ⟨_, _, _, _, admitted⟩ := replaced.landed
  exact replaced.pruned.1.2.grows.trans admitted.2.grows

/-- What a write leaves for the next one, whatever becomes of the backups. -/
theorem leaves (calm : m.environment.Calm) : n.environment.Calm ∧ n.files.WellFormed ∧
    Ready n.files path ∧ n.files.read path = .ok content.toUTF8 ∧
    Past n.environment t (baseOf path) n.files := by
  obtain ⟨environment, sound, _⟩ := replaced.saved
  obtain ⟨arrives, pruned, landed, free⟩ := replaced
  have past := (arrives.past (e := n.environment)).pruned pruned
  have past := past.landed landed free
  obtain ⟨ready, d, _, found, last⟩ := landed
  have same : n.environment = m.environment := last.1.trans (pruned.1.1.trans environment)
  exact ⟨same ▸ calm, last.2.sound (pruned.1.2.sound sound), ready, Files.read_ok.mpr ⟨_, found⟩, past⟩

/-- The fate of a backup after the pruning is its fate after the write. -/
theorem fate (there : j.files.find (a.directory .primary path) = .ok (dl, .directory))
    (parsed : parseName? (baseOf path) name = some read)
    (pruned : Fate a.cap (a.directory .primary path) (baseOf path) dl name read bytes count k.files) :
    Fate a.cap (a.directory .primary path) (baseOf path) dl name read bytes count n.files := by
  obtain ⟨_, sound, _⟩ := replaced.saved
  have step := replaced.pruned.1.2
  exact pruned.landed replaced.landed replaced.free (step.sound sound) (step.grows.find there) parsed

end Replaced

/-- After its first write a run can go back. -/
theorem recoverable_of_first (wf : m.files.WellFormed) (calm : m.environment.Calm)
    (rooted : a.root.text ≠ "") (past : Past m.environment s (baseOf path) m.files)
    (there : m.files.read path = .ok before)
    (wrote : a.Wrote .primary path content operation m s receipt t n) (fits : t < 2 ^ 64)
    (free : Unobstructed (baseOf path) n.files) :
    ∃ info, receipt.backup = some info ∧ Recoverable a path before info.path 0 content t n := by
  obtain ⟨text, j, k, rfl, made, _, replaced⟩ := replaced_of_wrote wf rooted past there wrote fits free
  have arrives := replaced.arrives
  obtain ⟨environment, sound, _⟩ := replaced.saved
  obtain ⟨calm', sound', ready, read, past⟩ := replaced.leaves calm
  obtain ⟨dl, found, led, file⟩ := arrives.find
  have fate := replaced.fate found arrives.parsed ((arrives.present found file).prune replaced.pruned
    (environment ▸ calm.healthy) arrives.full arrives.plain sound found arrives.parsed)
  refine ⟨_, made, ?_⟩
  dsimp only [Archive.infoOf]
  refine ⟨calm', sound', ready, read, past, dl, _, _, _, {
    there := replaced.grows.find found
    led := replaced.grows.locate led
    slash := Path.endsInSlash_join _ (Backup.isPlain_fileName arrives.plain arrives.digest)
    parsed := arrives.parsed
    old := Nat.le_refl t
    reads := Record.ofText_text_of_lt fits
    intact := Record.isIntact_ofContent _ _ _ _
    content := rfl }, fate⟩

/-- One more write brings the first backup closer to its end. -/
theorem Recoverable.next (recoverable : Recoverable a path before backup count text s m)
    (rooted : a.root.text ≠ "") (wrote : a.Wrote .primary path content operation m s receipt t n)
    (fits : t < 2 ^ 64) (free : Unobstructed (baseOf path) n.files) :
    (∃ info, receipt.backup = some info) ∧ Recoverable a path before backup (count + 1) content t n := by
  obtain ⟨calm, wf, _, there, past, dl, name, read, record, shelved, fate⟩ := recoverable
  obtain ⟨_, j, k, _, made, later, replaced⟩ := replaced_of_wrote wf rooted past there wrote fits free
  obtain ⟨environment, _, grows⟩ := replaced.saved
  obtain ⟨calm', sound', ready, read', past'⟩ := replaced.leaves calm
  have old : read.1 < t := Nat.lt_of_le_of_lt shelved.old later
  have fate := replaced.fate (grows.find shelved.there) shelved.parsed (fate.step replaced.arrives
    replaced.pruned (environment ▸ calm.healthy) shelved.there shelved.parsed old)
  have grows := grows.trans replaced.grows
  refine ⟨⟨_, made⟩, calm', sound', ready, read', past', dl, name, read, record, { shelved with
    there := grows.find shelved.there
    led := grows.locate shelved.led
    old := Nat.le_of_lt old }, fate⟩

/-! ### The rollback -/

/-- Nothing stands in the way of a restore. -/
theorem Recoverable.clear (recoverable : Recoverable a path before backup count text s n)
    (free : Unobstructed (baseOf path) n.files) : Clear n.files path := by
  obtain ⟨l, found⟩ := Files.read_ok.mp recoverable.read
  obtain ⟨led, file, slash⟩ := Files.find_ok.mp found
  refine ⟨recoverable.ready, fun nonce made there => ?_, ⟨l, led, by simp [file]⟩, slash (by simp)⟩
  obtain ⟨k, found'⟩ := Files.kindAt_directory.mp there
  obtain ⟨led', directory, _⟩ := Files.find_ok.mp found'
  obtain ⟨d, place⟩ := recoverable.ready.locate made
  cases led'.symm.trans place
  exact (free d _ directory).2 nonce rfl

/-- A rollback succeeds exactly if the first backup is still there. -/
theorem Recoverable.rollBack (recoverable : Recoverable a path before backup count text s n)
    (free : Unobstructed (baseOf path) n.files) (r : Response) :
    (rollBack path (some (.restore backup)) r).Holds (fun _ => True) (fun _ k =>
      k.files.read path = .ok before ↔ a.cap = 0 ∨ count < a.cap ∨ text.toUTF8 = before) n := by
  have clear := recoverable.clear free
  obtain ⟨calm, wf, _, there, _, dl, name, read, record, shelved, fate⟩ := recoverable
  have restored : (Archive.restore backup (some path)).run.Holds (fun _ => True) (fun _ k =>
      k.files.read path = .ok before ↔ a.cap = 0 ∨ count < a.cap ∨ text.toUTF8 = before) n := by
    cases fate with
    | kept few present =>
      have found : n.files.read backup = .ok record.text.toUTF8 :=
        Files.read_ok.mpr ⟨_, Files.find_ok.mpr ⟨shelved.led, present.file, fun _ => shelved.slash⟩⟩
      have known : Archive.Restores n.files backup record.content := by
        intro text record' found' decoded _
        obtain rfl := String.toByteArray_inj.mp (Except.ok.inj (found.symm.trans found'))
        cases shelved.reads.symm.trans decoded
        rfl
      refine ((Archive.restore_holds wf calm.tidy calm.detects known).and
        (Archive.restore_succeeds calm wf clear found shelved.reads shelved.intact)).mono
        (fun _ _ => trivial) ?_
      rintro r k _ ⟨⟨landed, _⟩, q, done⟩
      obtain ⟨_, d, _, found', _⟩ := landed q done
      rw [Files.read_ok.mpr ⟨_, found'⟩, shelved.content]
      exact iff_of_true rfl (few.imp_right .inl)
    | lost many gone =>
      have unread : ∀ b, n.files.read backup ≠ .ok b := by
        intro b found
        obtain ⟨l, found⟩ := Files.read_ok.mp found
        obtain ⟨led, file, _⟩ := Files.find_ok.mp found
        cases led.symm.trans shelved.led
        exact gone b file
      have known : Archive.Restores n.files backup "" := fun _ _ found => absurd found (unread _)
      refine ((Archive.restore_holds wf calm.tidy calm.detects known).and
        (Archive.restore_fails unread)).mono (fun _ _ => trivial) ?_
      rintro r k _ ⟨⟨_, unchanged⟩, e, failed⟩
      have admitted := unchanged e failed
      obtain ⟨l, found⟩ := Files.read_ok.mp there
      obtain ⟨d, rfl, _⟩ := Disk.Staged.place_of_file wf found
      rw [Files.read_ok.mpr ⟨_, admitted.2.read found Disk.Staged.not_isTemporary⟩, Except.ok.injEq]
      have past : ¬count < a.cap := Nat.not_lt.mpr many.2
      simp [many.1, past]
  refine (Job.holds_discard restored).bind fun result k _ post => ?_
  cases result with
  | ok _ => exact .pure trivial post
  | error failure => exact .pure trivial post

/-! ### Whole runs -/

/-- The results of the layers that were written to a file. -/
def writes (rs : List LayerResult) : List LayerResult := rs.filter (·.backupPath.isSome)

theorem writes_cons_none {r : LayerResult} {rs : List LayerResult} (unsaved : r.backupPath = none) :
    writes (r :: rs) = writes rs := by
  rw [writes, List.filter_cons_of_neg (by simp [unsaved])]
  rfl

theorem writes_cons_some {r : LayerResult} {rs : List LayerResult} (saved : r.backupPath = some backup) :
    writes (r :: rs) = r :: writes rs := by
  rw [writes, List.filter_cons_of_pos (by simp [saved])]
  rfl

variable {layers : List Layer} {st st' : Standing} {books books' : Bookkeeping} {m' : Machine}
  {ms : List Move}

/-- A write in a run without a failure, and the run behind it. -/
theorem Course.smooth_write {l : LayerResult} {between : Bookkeeping} {first : List Move}
    (next : Course a file start layers st between n st' books' m' ms) (wf : m.files.WellFormed)
    (tidy : m.environment.Tidy)
    (gives : ((writeLayer a file.path l).run books).Gives m (.ok receipt, between) n first)
    (smooth : books'.handler.made = books.handler.made) :
    n.files.WellFormed ∧ n.environment.Tidy ∧ n.files.Grows m'.files ∧
      books'.handler.made = between.handler.made ∧
      a.Wrote .primary file.path l.code ("layer " ++ l.layer.label) m books.stamp receipt between.stamp n := by
  have more := next.made
  have less := (writeLayer_gives gives).1
  have admitted := (gives.holds (Program.holds_anything _ wf)).1
  have sound := admitted.2.sound wf
  obtain ⟨_, same, wrote⟩ := writeLayer_wrote wf tidy gives (by omega)
  cases same
  exact ⟨sound, admitted.1 ▸ tidy, (next.admits sound).2.grows, by omega, wrote⟩

/-- The stamps of a run without a failure only go up. -/
theorem Course.stamp (course : Course a file start layers st books m st' books' m' ms)
    (wf : m.files.WellFormed) (tidy : m.environment.Tidy)
    (smooth : books'.handler.made = books.handler.made) : books.stamp ≤ books'.stamp := by
  induction course with
  | done => exact Nat.le_refl _
  | failed => exact Nat.le_refl _
  | unchanged _ _ _ ih => exact ih wf tidy smooth
  | written _ _ gives next ih =>
    obtain ⟨sound, tidy', _, smooth', wrote⟩ := next.smooth_write wf tidy gives smooth
    exact Nat.le_trans wrote.stamp (ih sound tidy' smooth')
  | refused _ _ tried _ =>
    obtain ⟨_, _, _, same, _⟩ := (writeLayer_gives tried).2 smooth
    cases same

/-- The last text that the results brought to the file, after `text`, is what was there before. -/
def EndsAs (before : ByteArray) (text : String) (rs : List LayerResult) : Prop :=
  (lastText text (writes rs)).toUTF8 = before

/-- What comes of a run that fails after its first write. -/
theorem Course.rolled_back (course : Course a file start layers st books m st' books' m' ms)
    (recoverable : Recoverable a file.path before backup count text books.stamp m)
    (rooted : a.root.text ≠ "") (undo : st.undo = some (.restore backup))
    (good : st.response.success = true) (failed : st'.response.success = false)
    (smooth : books'.handler.made = books.handler.made) (fits : books'.stamp < 2 ^ 64)
    (free : Unobstructed (baseOf file.path) m'.files) :
    ∃ rs, st'.response.layers = st.response.layers ++ rs ∧
      (m'.files.read file.path = .ok before ↔
        a.cap = 0 ∨ count + (writes rs).length < a.cap ∨ EndsAs before text rs) := by
  induction course generalizing count text with
  | done =>
    rw [good] at failed
    cases failed
  | @failed layer rest s s' books m m' ms lost ended =>
    have grows := (ended.holds (Program.holds_anything _ recoverable.sound)).1.2.grows
    obtain ⟨r, k, first, last, rolled, ⟨same, _⟩, _⟩ := Program.bind_gives ended
    rw [undo] at rolled
    have back := (rolled.holds (recoverable.rollBack (free.of_grows grows) _)).2
    cases same
    have none : writes [layer.run file s.code] = [] :=
      writes_cons_none (layer.run_outcome file s.code).backupPath
    refine ⟨[layer.run file s.code], (halt_gives ended).1, ?_⟩
    rw [back, EndsAs, none]
    rfl
  | @unchanged layer rest s s' books books' m m' ms success _ next ih =>
    obtain ⟨rs, layers, back⟩ := ih recoverable undo (by simp [Standing.advance, absorb, good, success])
      failed smooth fits free
    refine ⟨layer.run file s.code :: rs, ?_, ?_⟩
    · rw [layers]
      simp [Standing.advance, absorb]
    · rw [EndsAs, writes_cons_none (layer.run_outcome file s.code).backupPath]
      exact back
  | @written layer rest s s' books between books' m n m' first ms receipt success _ gives next ih =>
    obtain ⟨sound, tidy, grows, smooth', wrote⟩ :=
      next.smooth_write recoverable.sound recoverable.calm.tidy gives smooth
    have stamp := next.stamp sound tidy smooth'
    obtain ⟨⟨info, made⟩, recoverable⟩ := recoverable.next rooted wrote (by omega) (free.of_grows grows)
    obtain ⟨rs, layers, back⟩ := ih recoverable (by simp [Standing.written, undo])
      (by simp [Standing.written, Standing.advance, absorb, good, success]) failed smooth' fits free
    refine ⟨{ layer.run file s.code with backupPath := some info.path } :: rs, ?_, ?_⟩
    · rw [layers]
      simp [Standing.written, Standing.advance, absorb, made]
    · rw [back, EndsAs, EndsAs, writes_cons_some rfl, List.length_cons, Nat.add_right_comm, Nat.add_assoc]
      rfl
  | refused _ _ tried _ =>
    obtain ⟨_, _, _, same, _⟩ := (writeLayer_gives tried).2 smooth
    cases same

/-- What comes of a run that fails, from its start on. -/
theorem Course.back (course : Course a file start layers st books m st' books' m' ms)
    (wf : m.files.WellFormed) (calm : m.environment.Calm) (rooted : a.root.text ≠ "")
    (past : Past m.environment books.stamp (baseOf file.path) m.files)
    (there : m.files.read file.path = .ok before) (unwritten : st.undo = none)
    (good : st.response.success = true) (failed : st'.response.success = false)
    (smooth : books'.handler.made = books.handler.made) (fits : books'.stamp < 2 ^ 64)
    (free : Unobstructed (baseOf file.path) m'.files) :
    ∃ rs, st'.response.layers = st.response.layers ++ rs ∧
      (m'.files.read file.path = .ok before ↔
        a.cap = 0 ∨ (writes rs).length ≤ a.cap ∨ EndsAs before text rs) := by
  induction course with
  | done =>
    rw [good] at failed
    cases failed
  | @failed layer rest s s' books m m' ms lost ended =>
    have none : writes [layer.run file s.code] = [] :=
      writes_cons_none (layer.run_outcome file s.code).backupPath
    refine ⟨[layer.run file s.code], (halt_gives ended).1, ?_⟩
    obtain ⟨r, k, first, last, ⟨rolled, _⟩, ⟨same, _⟩, _⟩ := Program.bind_gives ended
    rw [unwritten] at rolled
    cases rolled
    cases same
    rw [none]
    exact iff_of_true there (.inr (.inl (Nat.zero_le _)))
  | @unchanged layer rest s s' books books' m m' ms success _ next ih =>
    obtain ⟨rs, layers, back⟩ := ih wf calm past there unwritten
      (by simp [Standing.advance, absorb, good, success]) failed smooth fits free
    refine ⟨layer.run file s.code :: rs, ?_, ?_⟩
    · rw [layers]
      simp [Standing.advance, absorb]
    · rw [EndsAs, writes_cons_none (layer.run_outcome file s.code).backupPath]
      exact back
  | @written layer rest s s' books between books' m n m' first ms receipt success _ gives next ih =>
    obtain ⟨sound, tidy, grows, smooth', wrote⟩ := next.smooth_write wf calm.tidy gives smooth
    have stamp := next.stamp sound tidy smooth'
    obtain ⟨info, made, recoverable⟩ := recoverable_of_first wf calm rooted past there wrote (by omega)
      (free.of_grows grows)
    obtain ⟨rs, layers, back⟩ := next.rolled_back recoverable rooted
      (by simp [Standing.written, unwritten, made])
      (by simp [Standing.written, Standing.advance, absorb, good, success]) failed smooth' fits free
    refine ⟨{ layer.run file s.code with backupPath := some info.path } :: rs, ?_, ?_⟩
    · rw [layers]
      simp [Standing.written, Standing.advance, absorb, made]
    · rw [back, EndsAs, EndsAs, writes_cons_some rfl, List.length_cons, Nat.zero_add, Nat.lt_iff_add_one_le]
      rfl
  | refused _ _ tried _ =>
    obtain ⟨_, _, _, same, _⟩ := (writeLayer_gives tried).2 smooth
    cases same

/-- A run that fails puts the file back to what it was exactly if it wrote no more often than the
archive keeps backups of a file, or if the last write brought the old content back by itself. -/
theorem rolled_back_iff (a : Archive) (layers : List Layer) (file : SourceFile) (code : String)
    (applyFixes : Bool) (books : Bookkeeping) (m : Machine) (before : ByteArray)
    (wf : m.files.WellFormed) (calm : m.environment.Calm) (rooted : a.root.text ≠ "")
    (past : Past m.environment books.stamp (baseOf file.path) m.files)
    (there : m.files.read file.path = .ok before) :
    let program := (run a layers file code ⟨true, applyFixes⟩).run books
    let response := (program.run m).1.1
    let after := (program.run m).2.files
    (program.run m).1.2.handler.made = books.handler.made → (program.run m).1.2.stamp < 2 ^ 64 →
    Unobstructed (baseOf file.path) after → response.success = false →
    (after.read file.path = .ok before ↔ a.cap = 0 ∨ (writes response.layers).length ≤ a.cap ∨
      EndsAs before code response.layers) := by
  intro program response after smooth fits free failed
  obtain ⟨s, course, answer⟩ := course_of_run (program.gives_run m)
  have failed' : s.response.success = false := (congrArg Response.success answer).symm.trans failed
  obtain ⟨rs, layers, back⟩ := course.back wf calm rooted past there rfl rfl failed' smooth fits free
  have only : response.layers = rs := (congrArg Response.layers answer).trans layers
  rw [only]
  exact back

/-! ### Runs on the small machine -/

theorem unobstructed_of_files {base : String} {fs : Files} (files : ∀ n ∈ fs.nodes, n.2 ≠ .directory) :
    Unobstructed base fs := by
  intro d name directory
  rw [Files.get?_of_ne_nil (by simp)] at directory
  obtain ⟨front, back, same, _⟩ := List.lookup_eq_some_iff.mp directory
  exact absurd rfl (files (d ++ [name], .directory) (by simp [same]))

theorem past_smallMachine : Past (smallMachine "a.json" "1").environment 0 (baseOf smallFile.path)
    (smallMachine "a.json" "1").files := by
  intro d name read node found parsed
  have unread : parseName? (baseOf smallFile.path) "a.json" = none := by decide
  rcases get?_smallMachine found with ⟨inner, _⟩ | ⟨same, _⟩
  · simp at inner
  · obtain rfl : name = "a.json" := by simpa using congrArg List.getLast? same
    rw [unread] at parsed
    cases parsed

/-- One write and a failure, under an archive that keeps all backups. -/
theorem run_failing :
    let ran := ((run smallArchive [.constant "2", .constant "x"] smallFile "1" ⟨true, true⟩).run
      ⟨default, 0⟩).run (smallMachine "a.json" "1")
    ran.1.2.handler.made = (default : Recovery.Handler).made ∧ ran.1.2.stamp < 2 ^ 64 ∧
      (∀ n ∈ ran.2.files.nodes, n.2 ≠ .directory) ∧ ran.1.1.success = false ∧
      (writes ran.1.1.layers).length = 1 := by
  decide +kernel

theorem rolled_back_iff_small :
    let ran := ((run smallArchive [.constant "2", .constant "x"] smallFile "1" ⟨true, true⟩).run
      ⟨default, 0⟩).run (smallMachine "a.json" "1")
    ran.1.1.success = false ∧ (writes ran.1.1.layers).length = 1 ∧
      ran.2.files.read smallFile.path = .ok "1".toUTF8 := by
  obtain ⟨smooth, fits, files, failed, once⟩ := run_failing
  exact ⟨failed, once, (rolled_back_iff smallArchive [.constant "2", .constant "x"] smallFile "1" true
    ⟨default, 0⟩ (smallMachine "a.json" "1") "1".toUTF8 smallMachine_wellFormed stillness_calm (by decide)
    past_smallMachine read_smallMachine smooth fits (unobstructed_of_files files) failed).mpr (.inl rfl)⟩

/-- The order of at most two backups, in a form that runs on closed lists. -/
theorem newestFirst_eq : Archive.newestFirst = fun
    | [] => []
    | [i] => [i]
    | [i, j] => if j.timestamp ≤ i.timestamp then [i, j] else [j, i]
    | infos => infos.mergeSort fun i j => j.timestamp ≤ i.timestamp := by
  funext infos
  split
  · simp [Archive.newestFirst]
  · simp [Archive.newestFirst]
  · simp [Archive.newestFirst, List.mergeSort, List.merge]
  · rfl

/-- Two writes and a failure, under an archive that keeps one backup. -/
theorem run_capped :
    let ran := ((run { smallArchive with cap := 1 } [.constant "2", .constant "3", .constant "x"] smallFile
      "1" ⟨true, true⟩).run ⟨default, 0⟩).run (smallMachine "a.json" "1")
    ran.1.1.success = false ∧ ran.2.files.read smallFile.path = .ok "3".toUTF8 := by
  unfold run
  simp only [runLayers]
  unfold writeLayer Archive.write Archive.create Archive.prune
  simp only [newestFirst_eq]
  decide +kernel

/-- A file that does not get back to what it was, although no step of the machine fails. -/
theorem file_not_rolled_back :
    let ran := ((run { smallArchive with cap := 1 } [.constant "2", .constant "3", .constant "x"] smallFile
      "1" ⟨true, true⟩).run ⟨default, 0⟩).run (smallMachine "a.json" "1")
    (smallMachine "a.json" "1").environment.Calm ∧
    (smallMachine "a.json" "1").files.read smallFile.path = .ok "1".toUTF8 ∧
    ran.1.1.success = false ∧ ran.2.files.read smallFile.path ≠ .ok "1".toUTF8 := by
  obtain ⟨failed, read⟩ := run_capped
  refine ⟨stillness_calm, read_smallMachine, failed, ?_⟩
  rw [read]
  decide

end SourceRepair.Pipeline
