import SourceRepair.Proofs.Backup.Atomic
import SourceRepair.Proofs.Backup.Calm
import SourceRepair.Proofs.Backup.Moves
import SourceRepair.Proofs.Backup.Survival
import SourceRepair.Proofs.Disk.Parent

/-!
# What a restore brings back

The document of a record reads back as the record, and a record is restored only if its content has
the digest that stands in it. So a file comes back as it was when its backup was made, whatever was
done to it since: `content_comes_back`.
-/

namespace SourceRepair.Backup.Archive

open Disk (Files Fault IsNonce Job Location Machine Program Scope)
open Disk.Staged (Clear Landed Ready baseOf directoryOf temporaryName temporaryPath)

variable {a : Archive} {place : Place} {p backup target : Path} {operation text base hash : String}
  {info : Info} {record : Record} {fs : Files} {m n k : Machine} {s t : Nat} {bytes : ByteArray}
  {l : Location}

/-! ### Records on the disk -/

/-- A damaged record is no record to restore from. -/
theorem damaged_holds (there : m.files.read p = .ok text.toUTF8) (decoded : Record.ofText text = .ok record)
    (damaged : record.isIntact = false) :
    (readRecord p).run.Holds (fun _ => True) (fun r k => k.files = m.files ∧ ∃ e, r = .error e ∧
      (m.environment.fault m.steps = none →
        e = .integrity p.text record.hash (Digest.ofText record.content))) m := by
  have steady : Disk.Steady fun _ => True := fun _ _ _ _ _ => trivial
  refine Job.holds_bind (Q := fun r k => k.files = m.files ∧
      (∀ text', r = .ok text' → text' = text) ∧
      (m.environment.fault m.steps = none → r = .ok text))
    (Job.holds_ofFault ((Program.readText_holds steady trivial).mono (fun _ => id) ?_)) ?_ ?_
  · rintro r k _ ⟨files, _, read, healthy⟩
    have found : m.environment.fault m.steps = none → r = .ok text := by
      intro fine
      rw [healthy fine, there]
      exact Program.textOf_ok.mpr rfl
    cases r with
    | error fault => exact ⟨files, nofun, fun fine => nomatch found fine⟩
    | ok text' =>
      have same := text_of_read (read text' rfl) there
      exact ⟨files, fun _ done => by cases done; exact same, fun _ => by rw [same]⟩
  · rintro text' k _ ⟨files, same, _⟩
    obtain rfl := same text' rfl
    rw [decoded]
    refine Job.holds_bind (Q := fun r k => k.files = m.files ∧ r = .ok record)
      (Job.holds_ofExcept.mpr ⟨trivial, files, rfl⟩) ?_ (fun e k _ post => nomatch post.2)
    rintro record' k _ ⟨files, same⟩
    cases same
    rw [damaged]
    exact Job.holds_throw.mpr ⟨trivial, files, _, rfl, fun _ => rfl⟩
  · exact fun e k _ post => ⟨post.1, e, rfl, fun fine => nomatch post.2.2 fine⟩

theorem restore_damaged (target : Option Path) (there : m.files.read backup = .ok text.toUTF8)
    (decoded : Record.ofText text = .ok record) (damaged : record.isIntact = false) :
    (restore backup target).run.Holds (fun _ => True) (fun r k => k.files = m.files ∧
      ∃ e, r = .error e ∧ (m.environment.fault m.steps = none →
        e = .integrity backup.text record.hash (Digest.ofText record.content))) m := by
  rw [restore_eq]
  refine Job.holds_bind (damaged_holds there decoded damaged) ?_ ?_
  · rintro record' k _ ⟨_, e, failed, _⟩
    cases failed
  · rintro e k _ ⟨files, e', same, healthy⟩
    cases same
    exact ⟨files, e, rfl, healthy⟩

/-- Without another target a record goes back to where it says. -/
theorem restore_none (there : m.files.read backup = .ok text.toUTF8)
    (decoded : Record.ofText text = .ok record) :
    (restore backup none).run.run m = (restore backup (some record.originalPath)).run.run m := by
  have steady : Disk.Steady fun _ => True := fun _ _ _ _ _ => trivial
  obtain ⟨_, _, _, read, _⟩ := (readRecord_holds (p := backup) (n := m) steady trivial).run
  rw [restore_eq, restore_eq, ExceptT.run_bind, ExceptT.run_bind, Program.run_bind, Program.run_bind]
  cases found : ((readRecord backup).run.run m).1 with
  | error e => rfl
  | ok record' =>
    obtain ⟨text', there', decoded', _⟩ := read record' found
    obtain rfl := text_of_read there there'
    cases decoded.symm.trans decoded'
    rfl

/-- What a restore of an intact record brings back. -/
theorem content_of_restore {q : Path} (wf : m.files.WellFormed) (tidy : m.environment.Tidy)
    (detects : m.environment.Detects) (read : m.files.read backup = .ok text.toUTF8)
    (decoded : Record.ofText text = .ok record)
    (done : (restore backup none).run.run m = (.ok q, n)) :
    q = record.originalPath ∧ n.files.read q = .ok record.content.toUTF8 := by
  have ends := (restore_returns backup none wf tidy).run
  rw [done] at ends
  rcases ends.2 with ⟨⟨e, failed⟩, _⟩ | ⟨text', record', read', decoded', intact, returned⟩
  · cases failed
  · obtain rfl := text_of_read read read'
    cases decoded.symm.trans decoded'
    obtain ⟨rfl, bytes, there, passes⟩ := returned.done q rfl
    rw [there, passes.eq detects intact]
    exact ⟨rfl, rfl⟩

/-- Where nothing stands in the way an intact record is restored to where it says. -/
theorem restore_none_succeeds (calm : m.environment.Calm) (wf : m.files.WellFormed)
    (clear : Clear m.files record.originalPath) (read : m.files.read backup = .ok record.text.toUTF8)
    (decoded : Record.ofText record.text = .ok record) (intact : record.isIntact = true) :
    ∃ n, (restore backup none).run.run m = (.ok record.originalPath, n) ∧
      n.files.read record.originalPath = .ok record.content.toUTF8 ∧ m.files.Grows n.files := by
  obtain ⟨_, q, done⟩ := (restore_succeeds calm wf clear read decoded intact).run
  rw [← restore_none read decoded] at done
  have inv := (Program.holds_anything (restore backup none).run wf).run.1
  generalize ran : (restore backup none).run.run m = out at done inv
  obtain ⟨r, n⟩ := out
  cases done
  obtain ⟨rfl, there⟩ := content_of_restore wf calm.tidy calm.detects read decoded ran
  exact ⟨n, rfl, there, inv.2.grows⟩

/-! ### The way back -/

/-- The file that a path leads to may be lost and come back with any content. -/
def editing (fs : Files) (p : Path) : Scope where
  lose l := fs.locate p = .ok l
  gain l _ := fs.locate p = .ok l
  make _ := False

/-- Where a backup has its place, a temporary file for the file itself can have its name. -/
theorem fits_of_landed (plain : '/' ∉ base.toList) (digest : IsDigest hash) {dir : Path}
    (landed : Landed m (backupPath dir base t hash) bytes k) {nonce : String} (made : IsNonce nonce) :
    Files.Fits (temporaryName base nonce) := by
  obtain ⟨⟨_, nonce', l, made', led⟩, _⟩ := landed
  have full := Disk.Staged.directoryOf_ne_empty (backupPath dir base t hash)
  have named := Disk.Staged.isPlain_temporaryName
    (Disk.Staged.not_slash_baseOf (backupPath dir base t hash)) made'
  obtain ⟨_, _, _, fits, _⟩ := (Files.locate_join full named).mp led
  rw [baseOf_backupPath plain digest] at fits
  obtain ⟨short, clean⟩ := (Disk.Staged.fits_temporaryName made').mp fits
  refine (Disk.Staged.fits_temporaryName made).mpr ⟨?_, fun c member => clean c ?_⟩
  · rw [fileName] at short
    simp only [String.utf8ByteSize_append] at short
    omega
  · rw [toList_fileName]
    simp [member]

theorem endsInSlash_absolute (full : p.text ≠ "") :
    Files.endsInSlash (a.absolute p) = Files.endsInSlash p := by
  have last : ∀ front : String, (front ++ p.text).toList.getLast? = p.text.toList.getLast? := by
    intro front
    have some : p.text.toList ≠ [] := fun none => full (String.toList_eq_nil_iff.mp none)
    rw [String.toList_append, List.getLast?_append_of_ne_nil _ some]
  unfold absolute Path.join Files.endsInSlash
  split
  · rfl
  · split
    · rfl
    · split
      · rw [last]
      · rw [last]

/-- After a backup nothing stands in the way of the file but what came there since. -/
theorem clear_of_backed (backed : Backed a place p operation text m s info t n)
    (there : n.files.find p = .ok (l, .file bytes)) (wf : n.files.WellFormed)
    (edited : (editing n.files p).Allows n.files k.files)
    (same : k.files.locate (a.absolute p) = k.files.locate p)
    (free : ∀ nonce, IsNonce nonce → k.files.kindAt (temporaryPath (a.absolute p) nonce) ≠ some .directory) :
    Clear k.files (a.absolute p) := by
  obtain ⟨led, file, slash⟩ := Files.find_ok.mp there
  have led' : k.files.locate (a.absolute p) = .ok l := same.trans (edited.grows.locate led)
  have wf' := edited.sound wf
  have vacant : k.files.get? l ≠ some .directory := by
    intro directory
    rcases edited.made _ directory with before | made
    · cases before.symm.trans file
    · exact made
  have home := Disk.Staged.find_directoryOf wf' led' vacant
  obtain ⟨inside, directory, _⟩ := Files.find_ok.mp home
  -- The recorded path ends in the name that the file has.
  have named : baseOf (a.absolute p) = baseOf p := by
    obtain ⟨d, name, split, named⟩ := Disk.Staged.locate_target wf' led' vacant
    obtain ⟨d', split', _⟩ := Disk.Staged.place_of_file wf there
    rw [split] at split'
    rw [Disk.Staged.baseOf_eq named]
    exact List.singleton_inj.mp (List.append_inj_right' split' rfl)
  obtain ⟨j, landed, _⟩ := backed.made
  rw [backed.shown] at landed
  obtain ⟨⟨_, nonce, _, made, _⟩, _⟩ := id landed
  have fits := fits_of_landed (Disk.Staged.not_slash_baseOf p) (isDigest_ofText text) landed made
  have plain := Disk.Staged.isPlain_temporaryName (Disk.Staged.not_slash_baseOf (a.absolute p)) made
  have full := Disk.Staged.directoryOf_ne_empty (a.absolute p)
  refine ⟨⟨Files.kindAt_directory.mpr ⟨_, home⟩, nonce, _, made,
    (Files.locate_join full plain).mpr ⟨_, inside, directory, named ▸ fits, rfl⟩⟩, free, ⟨l, led', vacant⟩, ?_⟩
  rw [endsInSlash_absolute (Files.locate_ok.mp led).1]
  exact slash (by simp)

/-- A backup is where it was after the file was edited. -/
theorem read_of_edited {d : Location} (there : n.files.find p = .ok (l, .file bytes)) (wf : n.files.WellFormed)
    (edited : (editing n.files p).Allows n.files k.files)
    (found : n.files.find info.path = .ok (d ++ [fileName (baseOf p) t (Digest.ofText text)],
      .file (a.document p operation text t))) :
    k.files.read info.path = .ok (a.document p operation text t) := by
  obtain ⟨d', rfl, _⟩ := Disk.Staged.place_of_file wf there
  obtain ⟨led, _⟩ := Files.find_ok.mp there
  refine Files.read_ok.mpr ⟨_, edited.read found fun lost => ?_⟩
  have same := Except.ok.inj (led.symm.trans lost)
  have longer := length_fileName (baseOf p) t (Digest.ofText text)
  rw [← List.singleton_inj.mp (List.append_inj_right' same rfl)] at longer
  exact Nat.lt_irrefl _ longer

/-! ### The law -/

/-- A backup is restored to where it says, with the text of the file. -/
structure Returns (a : Archive) (p : Path) (info : Info) (text : String) (k : Machine) : Prop where
  content : k.environment.Tidy → k.environment.Detects → ∀ q n,
    (restore info.path none).run.run k = (.ok q, n) →
      q = a.absolute p ∧ n.files.read q = .ok text.toUTF8
  calm : k.environment.Calm → k.files.locate (a.absolute p) = k.files.locate p →
    (∀ nonce, IsNonce nonce → k.files.kindAt (temporaryPath (a.absolute p) nonce) ≠ some .directory) →
    ∃ n, (restore info.path none).run.run k = (.ok (a.absolute p), n) ∧ n.files.read p = .ok text.toUTF8

theorem returns_of_backed (backed : Backed a place p operation text m s info t n) (fits : t < 2 ^ 64)
    (there : n.files.find p = .ok (l, .file bytes)) (wf : n.files.WellFormed)
    (edited : (editing n.files p).Allows n.files k.files)
    (read : k.files.read info.path = .ok (a.document p operation text t)) : Returns a p info text k := by
  have decoded := Record.ofText_text_of_lt (r := Record.ofContent (a.absolute p) t operation text) fits
  have intact := Record.isIntact_ofContent (a.absolute p) t operation text
  have kept := edited.sound wf
  refine ⟨fun tidy detects q n done => content_of_restore kept tidy detects read decoded done,
    fun calm same free => ?_⟩
  have clear := clear_of_backed backed there wf edited same free
  obtain ⟨j, ran, back, grows⟩ := restore_none_succeeds calm kept clear read decoded intact
  refine ⟨j, ran, ?_⟩
  -- Both paths lead to the same place, before and after.
  obtain ⟨led, _, slash⟩ := Files.find_ok.mp there
  have led' := edited.grows.locate led
  obtain ⟨l', found⟩ := Files.read_ok.mp back
  obtain ⟨led'', file, _⟩ := Files.find_ok.mp found
  obtain rfl : l = l' := Except.ok.inj ((grows.locate (same.trans led')).symm.trans led'')
  exact Files.read_ok.mpr ⟨l, Files.find_ok.mpr ⟨grows.locate led', file, fun _ => slash (by simp)⟩⟩

/-- The document of a record reads back as the record. What a file held when its backup was made comes
back with a restore after any edits of it, unless the archive was crowded and had no room for the
backup. And a record is restored only if its content has the digest that it names. -/
theorem content_comes_back (a : Archive) (place : Place) (p : Path) (operation : String)
    (wf : m.files.WellFormed) (tidy : m.environment.Tidy)
    (clock : ∀ i, m.environment.calendar i < 2 ^ 64) (early : s + 1 < 2 ^ 64) :
    (∀ r : Record, r.timestamp < 2 ^ 64 → Record.ofText r.text = .ok r) ∧
    (∀ info t n, ((a.create place p operation).run.run s).run m = ((.ok info, t), n) →
      ∃ text, m.files.read p = .ok text.toUTF8 ∧
        (a.Crowded (a.directory place p) (baseOf p) info n.files ∨
          ∀ k : Machine, (editing n.files p).Allows n.files k.files → Returns a p info text k)) ∧
    ∀ backup target text record r n, m.files.read backup = .ok text.toUTF8 →
      Record.ofText text = .ok record → (restore backup target).run.run m = (r, n) →
        (∀ q, r = .ok q → Digest.ofText record.content = record.hash) ∧
        (Digest.ofText record.content ≠ record.hash → n.files = m.files ∧ ∃ e, r = .error e ∧
          (m.environment.fault m.steps = none →
            e = .integrity backup.text record.hash (Digest.ofText record.content))) := by
  refine ⟨fun r fits => Record.ofText_text_of_lt fits, fun info t n ran => ?_, ?_⟩
  · obtain ⟨inv, _, made⟩ := (create_holds wf tidy).ends ran
    obtain ⟨text, backed⟩ := made info rfl
    have fits := backed.dated.lt clock early
    refine ⟨text, backed.read, ?_⟩
    rcases backed.stands wf fits with ⟨d, found⟩ | crowded
    · right
      intro k edited
      obtain ⟨l, there⟩ := Files.read_ok.mp backed.read
      have kept := inv.2.read there (file_kept wf there)
      exact returns_of_backed backed fits kept (inv.2.sound wf) edited
        (read_of_edited kept (inv.2.sound wf) edited found)
    · exact .inl crowded
  · intro backup target text record r n there decoded ran
    have damaged : Digest.ofText record.content ≠ record.hash → n.files = m.files ∧ ∃ e, r = .error e ∧
        (m.environment.fault m.steps = none →
          e = .integrity backup.text record.hash (Digest.ofText record.content)) := by
      intro other
      have ends := (restore_damaged target there decoded (beq_false_of_ne other)).run
      rw [ran] at ends
      exact ends.2
    refine ⟨fun q done => ?_, damaged⟩
    by_contra other
    obtain ⟨_, e, failed, _⟩ := damaged other
    cases done.symm.trans failed

open Pipeline (smallMachine stillness)

theorem content_comes_back_small :
    (smallMachine "a.json" "1").files.WellFormed ∧ stillness.Tidy ∧ (∀ i, stillness.calendar i < 2 ^ 64) ∧
    0 + 1 < 2 ^ 64 ∧
    ∃ info t n text, ((tightArchive.create .primary ⟨"/a.json"⟩ "manual").run.run 0).run
        (smallMachine "a.json" "1") = ((.ok info, t), n) ∧
      (smallMachine "a.json" "1").files.read ⟨"/a.json"⟩ = .ok text.toUTF8 ∧
      (tightArchive.Crowded (tightArchive.directory .primary ⟨"/a.json"⟩) (baseOf ⟨"/a.json"⟩) info n.files ∨
        ∀ k : Machine, (editing n.files ⟨"/a.json"⟩).Allows n.files k.files →
          Returns tightArchive ⟨"/a.json"⟩ info text k) := by
  have wf : (smallMachine "a.json" "1").files.WellFormed := Pipeline.smallMachine_wellFormed
  have tidy : stillness.Tidy := Pipeline.stillness_calm.tidy
  have clock : ∀ i, stillness.calendar i < 2 ^ 64 := fun _ => Nat.two_pow_pos 64
  have early : 0 + 1 < 2 ^ 64 := Nat.one_lt_two_pow (by decide)
  have law := content_comes_back tightArchive .primary ⟨"/a.json"⟩ "manual" wf tidy clock early
  have done := create_smallMachine
  generalize ran : ((tightArchive.create .primary ⟨"/a.json"⟩ "manual").run.run 0).run
    (smallMachine "a.json" "1") = r at done
  obtain ⟨⟨r, t⟩, n⟩ := r
  cases r with
  | error e => cases done
  | ok info =>
    obtain ⟨text, read, returns⟩ := law.2.1 info t n ran
    exact ⟨wf, tidy, clock, early, info, t, n, text, rfl, read, returns⟩

/-- A file in the current directory, and a project in another one. -/
def outsideMachine : Machine where
  files := ⟨[(["sub"], .directory), (["a.js"], .file "1".toUTF8)], []⟩
  environment := stillness

/-- A backup of a relative path is restored below the root of the project, where the file is not, and a
backup that a crowded archive has no room for is not restored at all. -/
theorem content_stays_away :
    let a : Archive := ⟨⟨"/bk"⟩, ⟨"/alt"⟩, ⟨"/sub"⟩, 10⟩
    let made := ((a.create .primary ⟨"a.js"⟩ "manual").run.run 0).run outsideMachine
    let edited : Machine := { made.2 with files := made.2.files.put ["a.js"] (.file "2".toUTF8) }
    let restored := (restore ⟨"/bk/a.js.1.65cd25028f98f158"⟩ none).run.run edited
    let crowded := ((tightArchive.create .primary ⟨"/a.js"⟩ "manual").run.run 0).run datedAhead
    outsideMachine.files.WellFormed ∧ outsideMachine.environment.Calm ∧ datedAhead.files.WellFormed ∧
    outsideMachine.files.read ⟨"a.js"⟩ = .ok "1".toUTF8 ∧
    made.1.1.toOption.map (·.path) = some ⟨"/bk/a.js.1.65cd25028f98f158"⟩ ∧
    restored.1.toOption = some ⟨"/sub/a.js"⟩ ∧
    (restored.2.files.read ⟨"a.js"⟩).toOption = some "2".toUTF8 ∧
    crowded.1.1.toOption.map (·.path) = some ⟨"/a.js.1.65cd25028f98f158"⟩ ∧
    ((restore ⟨"/a.js.1.65cd25028f98f158"⟩ none).run.run crowded.2).1.toOption = none := by
  -- One machine after the other, so that each is run on its own.
  refine ⟨.of_nodes (by decide) (by decide) rfl, Pipeline.stillness_calm, datedAhead_wellFormed, rfl,
    and_assoc.mp (and_assoc.mp ⟨?_, ?_⟩)⟩
  all_goals
    unfold Archive.create Archive.prune
    simp only [Pipeline.newestFirst_eq]
    decide +kernel

end SourceRepair.Backup.Archive
