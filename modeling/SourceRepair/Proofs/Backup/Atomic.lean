import SourceRepair.Proofs.Backup.Keys
import SourceRepair.Proofs.Backup.Survival
import SourceRepair.Proofs.Backup.Within

/-!
# Writes and restores as a whole

Whatever fails on the way, a write or a restore puts its content at the target or leaves the target as
it was. Besides the target it touches temporary files beside it and the tree of the backups, and makes
the directories that are missing on the way there: `writes_are_atomic`.
-/

namespace SourceRepair.Backup.Archive

open Disk (Files Job Location Machine Program Scope Staged)
open Disk.Staged (IsBeside Landed around baseOf directoryOf staging)

variable {a : Archive} {place : Place} {p backup target : Path} {operation content : String}
  {m n : Machine} {fs gs : Files} {s t : Nat} {l : Location} {touched way : Location → Prop}

/-- Besides the touched locations all is as it was, but for directories that were made on the way. -/
def Confines (touched way : Location → Prop) (fs gs : Files) : Prop :=
  ∀ l, gs.get? l = fs.get? l ∨ touched l ∨
    fs.get? l = none ∧ gs.get? l = some .directory ∧ way l

theorem confines_of_allows {u : Scope} (allowed : u.Allows fs gs) (lose : ∀ l, u.lose l → touched l)
    (gain : ∀ l b, u.gain l b → touched l) (make : ∀ l, u.make l → way l) :
    Confines touched way fs gs := by
  intro l
  cases after : gs.get? l with
  | none =>
    cases before : fs.get? l with
    | none => exact .inl rfl
    | some node =>
      cases node with
      | directory => cases after.symm.trans (allowed.grows.2 l before)
      | file b =>
        refine .inr (.inl (lose l ((allowed.kept l b before).resolve_left fun still => ?_)))
        cases after.symm.trans still
  | some node =>
    cases node with
    | file b =>
      rcases allowed.gained l b after with before | gained
      · exact .inl before.symm
      · exact .inr (.inl (gain l b gained))
    | directory =>
      rcases allowed.made l after with before | made
      · exact .inl before.symm
      · cases before : fs.get? l with
        | none => exact .inr (.inr ⟨rfl, rfl, make l made⟩)
        | some node =>
          cases node with
          | directory => exact .inl rfl
          | file b =>
            refine .inr (.inl (lose l ((allowed.kept l b before).resolve_left fun still => ?_)))
            cases after.symm.trans still

/-- A path finds what it found: a file with its content, and nothing where nothing was, as long as
the path has no step up. -/
structure Untouched (p : Path) (fs gs : Files) : Prop where
  held : ∀ old, fs.read p = .ok old → gs.read p = .ok old
  absent : .up ∉ p.components → fs.kindAt p = none → gs.kindAt p = none

theorem Untouched.refl (p : Path) (fs : Files) : Untouched p fs fs := ⟨fun _ => id, fun _ => id⟩

/-- Without a name at its end and without a step up a path means a directory that is there. -/
theorem directory_of_unnamed (wf : fs.WellFormed) (level : .up ∉ p.components)
    (unnamed : p.fileName? = none) : fs.get? (p.resolve fs.current) = some .directory := by
  have home : fs.get? (p.origin fs.current) = some .directory := by
    unfold Path.origin
    split
    · rfl
    · exact wf.here
  have none : p.components.filterMap Component.name? = [] := by
    rcases List.eq_nil_or_concat p.components with empty | ⟨front, c, split⟩
    · rw [empty]
      rfl
    · rw [List.concat_eq_append] at split
      have last : p.components.getLast? = some c := by rw [split, List.getLast?_concat]
      have outer : ¬c.IsInner := by
        intro inner
        cases c with
        | root | here => exact inner
        | up => exact level (List.mem_of_getLast? last)
        | name s => cases unnamed.symm.trans (Path.fileName?_eq_some.mpr last)
      rw [Path.components_of_last last outer]
      cases c with
      | root | here | up => rfl
      | name s => cases unnamed.symm.trans (Path.fileName?_eq_some.mpr last)
  rw [← Path.resolve_origin, Path.resolve, Path.foldl_front (List.prefix_refl _) level, none,
    List.append_nil]
  exact home

/-- Where nothing was a failure leaves nothing. -/
theorem absent_of_failed (wf : m.files.WellFormed) (level : .up ∉ p.components)
    (absent : m.files.kindAt p = none) (failed : (staging p).Admits m n)
    (inside : (around m.files.current p).Admits m n) : n.files.kindAt p = none := by
  cases found : n.files.find p with
  | error fault => simp [Files.kindAt, found]
  | ok entry =>
    exfalso
    obtain ⟨l, node⟩ := entry
    obtain ⟨led, taken, slash⟩ := Files.find_ok.mp found
    have meant : l = p.resolve m.files.current := by rw [Path.locate_resolve led, inside.2.grows.1]
    have before : m.files.get? l = some node := by
      cases node with
      | file b =>
        obtain ⟨d, same, _⟩ := Disk.Staged.place_of_file (inside.2.sound wf) found
        refine (failed.2.gained l b taken).resolve_right fun temporary => ?_
        rw [same] at temporary
        exact Disk.Staged.not_isTemporary temporary
      | directory =>
        cases named : p.fileName? with
        | some name =>
          exact (inside.2.made l taken).resolve_right fun made =>
            Disk.Staged.ne_of_onWay named level made meant
        | none => exact meant ▸ directory_of_unnamed wf level named
    have led' := Files.locate_of_level wf inside.2.grows.1 level led taken before
    have there : m.files.find p = .ok (l, node) := Files.find_ok.mpr ⟨led', before, slash⟩
    simp [Files.kindAt, there] at absent

/-! ### Writing -/

theorem replace_holds_around (content : ByteArray) (wf : m.files.WellFormed) (tidy : m.environment.Tidy) :
    (Staged.replace p content).run.Holds ((around m.files.current p).Admits m)
      (fun r k => (r = .ok () → Landed m p content k) ∧ ∀ e, r = .error e → (staging p).Admits m k) m :=
  (((Disk.Staged.within_replace m.files.current p content).holds wf tidy (Scope.Admits.refl _ m)).and
    (Disk.Staged.replace_holds wf tidy)).mono (fun _ both => both.1) fun _ _ _ both => both.2

/-- Where nothing is, a write makes no backup. -/
theorem write_absent_holds (wf : m.files.WellFormed) (tidy : m.environment.Tidy)
    (absent : m.files.kindAt p = none) :
    Dated.Holds ((around m.files.current p).Admits m)
      (fun r _ k => ∀ e, r = .error e → (staging p).Admits m k) (a.write place p content operation) s m := by
  have start := Scope.Admits.refl (around m.files.current p) m
  refine Dated.holds_bind (Q := fun r _ k => k.files = m.files ∧ k.environment = m.environment ∧
      r = .ok false) (Dated.holds_lift ((Program.isPresent_holds (Scope.steady _ m) start).mono
      (fun _ i => i) ?_)) ?_ (fun e t k _ post => nomatch post.2.2)
  · rintro b k _ ⟨files, environment, rfl⟩
    rw [absent]
    exact ⟨files, environment, rfl⟩
  rintro present t k inv ⟨files, environment, same⟩
  cases same
  rw [if_neg Bool.false_ne_true, pure_bind]
  have same := Scope.admits_of_files (s := around m.files.current p) environment files
  have back := Scope.admits_of_files (s := staging p) environment files
  refine Dated.holds_bind (Q := fun r _ j => ∀ e, r = .error e → (staging p).Admits m j)
    (Dated.holds_ofJob ((replace_holds_around content.toUTF8 (inv.2.sound wf) (environment ▸ tidy)).mono
      (fun j step => same.trans (files ▸ step)) fun r j _ post e failed => back.trans (post.2 e failed))) ?_
    (fun e t j _ post e' failed => post e (by cases failed; rfl))
  exact fun _ t j inv _ => Dated.holds_pure.mpr ⟨inv, nofun⟩

theorem directory_in_tree (a : Archive) (place : Place) (p : Path) (current : Location) :
    (a.rootOf place).resolve current <+: (a.directory place p).resolve current := by
  rw [resolve_directory]
  exact List.prefix_append _ _

theorem IsFiled.in_tree {current : Location} {base : String} (filed : IsFiled current (a.directory place p) base l) :
    (a.rootOf place).resolve current <+: l := by
  obtain ⟨name, same, _⟩ := filed
  rw [same]
  exact (directory_in_tree a place p current).trans (List.prefix_append _ _)

/-- A write touches nothing but the file, what is beside it and the tree of the backups. -/
theorem confines_of_write {r : Except Failure Receipt} (wf : m.files.WellFormed) (tidy : m.environment.Tidy)
    (ran : ((a.write place p content operation).run.run s).run m = ((r, t), n)) :
    Confines
      (fun l => l = p.resolve m.files.current ∨ IsBeside m.files.current p l ∨
        (a.rootOf place).resolve m.files.current <+: l)
      (fun l => (directoryOf p).OnWay m.files.current l ∨ (a.directory place p).OnWay m.files.current l)
      m.files n.files := by
  have within := within_write m.files.current a place p content operation s
  obtain ⟨inv, _⟩ := (within.holds wf tidy (Scope.Admits.refl _ m)).run
  rw [ran] at inv
  have place : ∀ l, (IsFiled m.files.current (a.directory place p) (baseOf p) l ∨
      l = p.resolve m.files.current ∨ IsBeside m.files.current p l) →
      l = p.resolve m.files.current ∨ IsBeside m.files.current p l ∨
        (a.rootOf place).resolve m.files.current <+: l := by
    rintro l (filed | same | beside)
    · exact .inr (.inr filed.in_tree)
    · exact .inl same
    · exact .inr (.inl beside)
  exact confines_of_allows inv.2 place (fun l _ => place l) fun l made => made.symm

theorem untouched_of_write {e : Failure} (wf : m.files.WellFormed) (tidy : m.environment.Tidy)
    (ran : ((a.write place p content operation).run.run s).run m = ((.error e, t), n)) :
    Untouched p m.files n.files where
  held old there := by
    obtain ⟨l, found⟩ := Files.read_ok.mp there
    obtain ⟨_, _, _, failed⟩ := (write_holds wf tidy).ends ran
    exact Files.read_ok.mpr ⟨l, preparing_spares wf found (failed e rfl)⟩
  absent level absent := by
    obtain ⟨inside, failed⟩ := (write_absent_holds wf tidy absent).ends ran
    exact absent_of_failed wf level absent (failed e rfl) inside

/-! ### Restoring -/

/-- A failed restore leaves the target alone, and one that succeeds puts something of the digest of the
record there, which is the content unless a write stored something else of that digest. -/
structure Returned (record : Record) (q : Path) (r : Except Failure Path) (m n : Machine) : Prop where
  done : ∀ q', r = .ok q' → q' = q ∧ ∃ bytes, n.files.read q = .ok bytes ∧
    Passes m.environment record bytes
  failed : ∀ e, r = .error e → Untouched q m.files n.files
  confined : Confines (fun l => l = q.resolve m.files.current ∨ IsBeside m.files.current q l)
    ((directoryOf q).OnWay m.files.current) m.files n.files

theorem putBack_returns {record : Record} (wf : m.files.WellFormed) (tidy : m.environment.Tidy) :
    (putBack record target).run.Holds (fun _ => True) (fun r k => Returned record target r m k) m := by
  have within := within_putBack m.files.current record target
  have all : ∀ u : Scope, u.Le .anything := fun u =>
    ⟨fun _ _ => trivial, fun _ _ _ => trivial, fun _ _ => trivial⟩
  have covers : ∀ bytes, Passes m.environment record bytes →
      Disk.Staged.Covers .anything m.files target bytes := fun _ _ => ⟨all _, fun _ _ _ _ => all _⟩
  have whole := putBack_holds (all (staging target)) covers wf tidy
  refine ((within.holds wf tidy (Scope.Admits.refl _ m)).and whole).mono (fun _ _ => trivial) ?_
  rintro r k ⟨inside, _⟩ ⟨_, landed, failed⟩
  refine ⟨fun q done => ?_, fun e failure => ⟨fun old there => ?_, fun level absent => ?_⟩,
    confines_of_allows inside.2 (fun _ => id) (fun _ _ => id) fun _ => id⟩
  · obtain ⟨same, bytes, passes, _, d, _, found, _⟩ := landed q done
    exact ⟨same, bytes, Files.read_ok.mpr ⟨_, found⟩, passes⟩
  · obtain ⟨l, found⟩ := Files.read_ok.mp there
    obtain ⟨d, rfl, _⟩ := Disk.Staged.place_of_file wf found
    exact Files.read_ok.mpr ⟨_, (failed e failure).2.read found Disk.Staged.not_isTemporary⟩
  · exact absent_of_failed wf level absent (failed e failure) inside

/-- Without an intact record nothing is changed, and else its content is put back. -/
theorem restore_returns (backup : Path) (target : Option Path) (wf : m.files.WellFormed) (tidy : m.environment.Tidy) :
    (restore backup target).run.Holds (fun _ => True)
      (fun r k => ((∃ e, r = .error e) ∧ k.files = m.files) ∨
        ∃ text record, m.files.read backup = .ok text.toUTF8 ∧ Record.ofText text = .ok record ∧
          record.isIntact = true ∧ Returned record (target.getD record.originalPath) r m k) m := by
  have steady : Disk.Steady fun _ => True := fun _ _ _ _ _ => trivial
  rw [restore_eq]
  refine Job.holds_bind (readRecord_holds steady trivial) ?_ (fun e k _ post => .inl ⟨⟨e, rfl⟩, post.1⟩)
  rintro record k _ ⟨files, environment, read, _⟩
  obtain ⟨text, there, decoded, intact⟩ := read record rfl
  refine (putBack_returns (files ▸ wf) (environment ▸ tidy)).mono (fun _ => id) fun r j _ returned => ?_
  obtain ⟨done, failed, confined⟩ := returned
  rw [files] at failed confined
  rw [environment] at done
  exact .inr ⟨text, record, there, decoded, intact, done, failed, confined⟩

/-! ### The law -/

/-- A write that succeeds has put exactly the content there, and one that fails has left the file as it
was. The same holds of a restore and the content of its record, as far as a digest tells. Either touches
nothing else but temporary files beside the target and the tree of the backups, and makes the
directories that are missing on the way there. -/
theorem writes_are_atomic (a : Archive) (wf : m.files.WellFormed) (tidy : m.environment.Tidy) :
    (∀ place p content operation s r t n,
      ((a.write place p content operation).run.run s).run m = ((r, t), n) →
        (∀ receipt, r = .ok receipt → n.files.read p = .ok content.toUTF8) ∧
        (∀ e, r = .error e → Untouched p m.files n.files) ∧
        Confines
          (fun l => l = p.resolve m.files.current ∨ IsBeside m.files.current p l ∨
            (a.rootOf place).resolve m.files.current <+: l)
          (fun l => (directoryOf p).OnWay m.files.current l ∨
            (a.directory place p).OnWay m.files.current l) m.files n.files) ∧
    ∀ backup target r n, (restore backup target).run.run m = (r, n) →
      ((∃ e, r = .error e) ∧ n.files = m.files) ∨
      ∃ text record, m.files.read backup = .ok text.toUTF8 ∧ Record.ofText text = .ok record ∧
        record.isIntact = true ∧ Returned record (target.getD record.originalPath) r m n ∧
        (m.environment.Detects → ∀ q, r = .ok q → n.files.read q = .ok record.content.toUTF8) := by
  refine ⟨fun place p content operation s r t n ran => ⟨?_, ?_, confines_of_write wf tidy ran⟩, ?_⟩
  · rintro receipt rfl
    obtain ⟨_, _, wrote, _⟩ := (write_holds wf tidy).ends ran
    cases wrote receipt rfl with
    | fresh _ landed =>
      obtain ⟨_, d, _, found, _⟩ := landed
      exact Files.read_ok.mpr ⟨_, found⟩
    | replaced _ landed =>
      obtain ⟨_, d, _, found, _⟩ := landed
      exact Files.read_ok.mpr ⟨_, found⟩
  · rintro e rfl
    exact untouched_of_write wf tidy ran
  · intro backup target r n ran
    have ends := (restore_returns backup target wf tidy).run
    rw [ran] at ends
    rcases ends.2 with unread | ⟨text, record, there, decoded, intact, returned⟩
    · exact .inl unread
    · refine .inr ⟨text, record, there, decoded, intact, returned, fun detects q done => ?_⟩
      obtain ⟨rfl, bytes, read, passes⟩ := returned.done q done
      rw [read, passes.eq detects intact]

open Pipeline (smallMachine stillness)

/-- An archive with a tree of its own for each place. -/
def roomyArchive : Archive := ⟨⟨"/bk"⟩, ⟨"/alt"⟩, ⟨"/"⟩, 10⟩

theorem write_roomyArchive : (((roomyArchive.write .primary ⟨"/a.json"⟩ "2" "manual").run.run 0).run
    (smallMachine "a.json" "1")).1.1.toOption.isSome = true := by
  unfold Archive.write Archive.create Archive.prune
  simp only [Pipeline.newestFirst_eq]
  decide +kernel

theorem writes_are_atomic_small :
    (smallMachine "a.json" "1").files.WellFormed ∧ (smallMachine "a.json" "1").environment.Tidy ∧
    ∃ receipt t n, ((roomyArchive.write .primary ⟨"/a.json"⟩ "2" "manual").run.run 0).run
        (smallMachine "a.json" "1") = ((.ok receipt, t), n) ∧
      n.files.read ⟨"/a.json"⟩ = .ok "2".toUTF8 ∧
      Confines (fun l => l = ["a.json"] ∨ IsBeside [] ⟨"/a.json"⟩ l ∨ ["bk"] <+: l)
        (fun l => (⟨"/"⟩ : Path).OnWay [] l ∨ (⟨"/bk"⟩ : Path).OnWay [] l)
        (smallMachine "a.json" "1").files n.files := by
  have wf : (smallMachine "a.json" "1").files.WellFormed := Pipeline.smallMachine_wellFormed
  have tidy : (smallMachine "a.json" "1").environment.Tidy := Pipeline.stillness_calm.tidy
  have done := write_roomyArchive
  generalize ran : ((roomyArchive.write .primary ⟨"/a.json"⟩ "2" "manual").run.run 0).run
    (smallMachine "a.json" "1") = r at done
  obtain ⟨⟨r, t⟩, n⟩ := r
  cases r with
  | error e => cases done
  | ok receipt =>
    obtain ⟨read, _, confines⟩ := (writes_are_atomic roomyArchive wf tidy).1 _ _ _ _ _ _ _ _ ran
    have places : (⟨"/a.json"⟩ : Path).resolve [] = ["a.json"] ∧ (roomyArchive.rootOf .primary).resolve [] = ["bk"] ∧
        directoryOf ⟨"/a.json"⟩ = ⟨"/"⟩ ∧ roomyArchive.directory .primary ⟨"/a.json"⟩ = ⟨"/bk"⟩ := by
      decide +kernel
    have current : (smallMachine "a.json" "1").files.current = [] := rfl
    rw [current, places.1, places.2.1, places.2.2.1, places.2.2.2] at confines
    exact ⟨wf, tidy, receipt, t, n, rfl, read receipt rfl, confines⟩

/-- A machine without files. -/
def bareMachine : Machine := ⟨⟨[], []⟩, stillness, 0, 0⟩

/-- A machine with a backup, on which each write stores bytes of the same digest as the content of the
backup. -/
def deceivedMachine : Machine where
  files := ⟨[(["r"], .file (Record.ofContent ⟨"/a.js"⟩ 1 "manual" "1").text.toUTF8)], []⟩
  environment := { stillness with stored _ _ := ⟨#[150, 35, 79, 183, 86, 245, 25, 47]⟩ }

/-- A write that fails can leave a directory behind, and a restore can put other bytes of the right
digest at its target. -/
theorem directory_left_and_digest_shared :
    let wrote := ((roomyArchive.write .primary ⟨"new/y/"⟩ "1" "manual").run.run 0).run bareMachine
    let restored := (restore ⟨"/r"⟩ none).run.run deceivedMachine
    bareMachine.files.WellFormed ∧ bareMachine.environment.Calm ∧
    wrote.1.1.toOption.isNone = true ∧ bareMachine.files.kindAt ⟨"/new"⟩ = none ∧
    wrote.2.files.kindAt ⟨"/new"⟩ = some .directory ∧
    deceivedMachine.files.WellFormed ∧ deceivedMachine.environment.Tidy ∧
    restored.1.toOption = some ⟨"/a.js"⟩ ∧
    deceivedMachine.files.read ⟨"/r"⟩ = .ok (Record.ofContent ⟨"/a.js"⟩ 1 "manual" "1").text.toUTF8 ∧
    (restored.2.files.read ⟨"/a.js"⟩).toOption ≠ some "1".toUTF8 := by
  refine ⟨.of_nodes (by decide) (by decide) rfl, Pipeline.stillness_calm, ?_, rfl, ?_,
    .of_nodes (by decide) (by decide) rfl, fun _ => Pipeline.isNonce_still, ?_, rfl, ?_⟩
  · decide +kernel
  · decide +kernel
  · decide +kernel
  · decide +kernel

end SourceRepair.Backup.Archive
