import SourceRepair.Proofs.Backup.Archive
import SourceRepair.Proofs.Disk.Within

/-!
# What the archive asks for

Making a backup asks for nothing but places for records of the file in their directory, temporary files
beside them and directories on the way there.
-/

namespace SourceRepair.Backup

open Disk (Action Job Location Machine Program Scope Staged)
open Disk.Job (Done)
open Disk.Staged (around baseOf directoryOf temporaryName)

namespace Dated

variable {α β : Type} {P P' : Action → Prop} {Q : α → Prop} {R : β → Prop} {x : Dated α}

/-- Every action of some work satisfies `P` and its result `Q`, if it succeeds. -/
def Within (P : Action → Prop) (Q : α → Prop) (x : Dated α) : Prop :=
  ∀ s, (x.run.run s).Within P fun r => Done Q r.1

theorem within_bind {f : α → Dated β} (first : Within P Q x) (next : ∀ a, Q a → Within P R (f a)) :
    Within P R (x >>= f) := by
  intro s
  rw [ExceptT.run_bind, StateT.run_bind]
  refine (first s).bind fun r post => ?_
  obtain ⟨r, t⟩ := r
  cases r with
  | ok a => exact next a (post a rfl) t
  | error e => exact Program.within_pure nofun

theorem within_pure {a : α} (post : Q a) : Within P Q (pure a) := by
  intro s
  refine Program.within_pure fun b same => ?_
  cases same
  exact post

theorem within_ofJob {job : Job α} (within : job.run.Within P (Done Q)) : Within P Q (ofJob job) :=
  fun _ => Program.within_lift within

theorem within_state {p : StateT Nat Program α} (within : ∀ s, (p.run s).Within P fun r => Q r.1) :
    Within P Q (liftM p) := by
  intro s
  show ((ExceptT.lift p : Dated α).run.run s).Within P _
  rw [ExceptT.run_lift, map_eq_pure_bind, StateT.run_bind]
  refine (within s).bind fun r post => Program.within_pure fun b same => ?_
  cases same
  exact post

theorem within_lift {p : Program α} (within : p.Within P Q) : Within P Q (liftM p) :=
  within_state (p := StateT.lift p) fun _ => Program.within_lift within

theorem Within.mono (within : Within P Q x) (asked : ∀ action, P action → P' action) : Within P' Q x :=
  fun s => (within s).mono asked fun _ => id

end Dated

namespace Archive

variable {P : Action → Prop} {a : Archive} {place : Place} {p dir backup target : Path}
  {base hash operation content : String} {current l : Location} {t : Nat} {bytes : ByteArray}

/-- A place in a directory for a backup of a name, or for a temporary file beside one. -/
def IsFiled (current : Location) (dir : Path) (base : String) (l : Location) : Prop :=
  ∃ name, l = dir.resolve current ++ [name] ∧
    ((∃ read, parseName? base name = some read) ∨ ∃ t hash, IsDigest hash ∧
      (name = fileName base t hash ∨ ∃ nonce, name = temporaryName (fileName base t hash) nonce))

/-- What making a backup may touch. -/
def filing (current : Location) (dir : Path) (base : String) : Scope where
  lose := IsFiled current dir base
  gain l _ := IsFiled current dir base l
  make := dir.OnWay current

theorem around_backupPath (plain : '/' ∉ base.toList) (digest : IsDigest hash) :
    (around current (backupPath dir base t hash)).Le (filing current dir base) := by
  have named := isPlain_fileName (t := t) plain digest
  have meant : (backupPath dir base t hash).resolve current = dir.resolve current ++ [fileName base t hash] :=
    Path.resolve_join dir named current
  have home : (directoryOf (backupPath dir base t hash)).resolve current = dir.resolve current := by
    have named' : (backupPath dir base t hash).fileName? = some (fileName base t hash) :=
      Path.fileName?_of_pieces (Path.piecesOf_join dir named) named
    have target := Disk.Staged.resolve_target named' current
    exact (List.append_inj_left' (meant.symm.trans target) rfl).symm
  have place : ∀ l, l = (backupPath dir base t hash).resolve current ∨
      Disk.Staged.IsBeside current (backupPath dir base t hash) l → IsFiled current dir base l := by
    rintro l (same | ⟨nonce, _, same⟩)
    · exact ⟨_, same.trans meant, .inr ⟨t, hash, digest, .inl rfl⟩⟩
    · rw [home, baseOf_backupPath plain digest] at same
      exact ⟨_, same, .inr ⟨t, hash, digest, .inr ⟨nonce, rfl⟩⟩⟩
  exact ⟨place, fun l _ => place l, fun l => Disk.Staged.onWay_directoryOf_join named⟩

theorem within_scan (quiet : ∀ action, Machine.Quiet action → P action) (dir : Path) (base : String) :
    (scan dir base).run.Within P (Done fun infos => ∀ i ∈ infos, ∃ name read,
      parseName? base name = some read ∧ i.path = dir.join ⟨name⟩) := by
  have list : (Program.list dir).Within P fun _ => True :=
    (Program.within_perform (quiet (.list dir) trivial)).any
  refine Job.within_bind (Job.within_lift list) fun r _ => ?_
  cases r with
  | error fault =>
    dsimp only
    split
    · exact Job.within_pure nofun
    · exact Job.within_throw _
  | ok names =>
    refine Job.within_pure fun i member => ?_
    obtain ⟨name, _, shown⟩ := List.mem_filterMap.mp member
    obtain ⟨read, parsed, rfl⟩ := Option.map_eq_some_iff.mp shown
    exact ⟨name, read, parsed, rfl⟩

theorem within_prune (plain : '/' ∉ base.toList) :
    (a.prune dir base).run.Within ((filing current dir base).Permits current) (Done fun _ => True) := by
  unfold prune
  split
  · exact Job.within_pure trivial
  refine Job.within_bind (within_scan (fun _ => Scope.permits_of_quiet) dir base) fun infos named => ?_
  have behind : ∀ i ∈ (newestFirst infos).drop a.cap, ∃ name read,
      parseName? base name = some read ∧ i.path = dir.join ⟨name⟩ :=
    fun i member => named i (List.mem_mergeSort.mp (List.mem_of_mem_drop member))
  generalize (newestFirst infos).drop a.cap = old at behind
  induction old with
  | nil => exact Job.within_pure trivial
  | cons i rest ih =>
    obtain ⟨name, read, parsed, path⟩ := behind i List.mem_cons_self
    have permits : (filing current dir base).Permits current (.remove i.path) :=
      ⟨name, by rw [path, Path.resolve_join dir (isPlain_of_parseName? plain parsed)], .inl ⟨read, parsed⟩⟩
    exact Job.within_bind (Job.within_ask (Program.within_perform permits).any) fun _ _ =>
      ih fun j member => behind j (List.mem_cons_of_mem _ member)

theorem within_readText (quiet : ∀ action, Machine.Quiet action → P action) (p : Path) :
    (Program.readText p).Within P fun _ => True :=
  (Program.within_perform (quiet (.read p) trivial)).bind fun _ _ => Program.within_pure trivial

theorem within_nextTimestamp (quiet : ∀ action, Machine.Quiet action → P action) (s : Nat) :
    (nextTimestamp.run s).Within P fun _ => True := by
  have clock : ((liftM Program.calendar : StateT Nat Program Nat).run s).Within P fun _ => True :=
    (Program.within_lift (Program.within_perform (quiet .calendar trivial)).any).any
  show (((liftM Program.calendar : StateT Nat Program Nat) >>= _).run s).Within P _
  rw [StateT.run_bind]
  exact clock.bind fun _ _ => Program.within_pure trivial

/-- Making a backup touches nothing but places for records in the directory of the backups. -/
theorem within_create (current : Location) (a : Archive) (place : Place) (p : Path) (operation : String) :
    Dated.Within ((filing current (a.directory place p) (baseOf p)).Permits current) (fun _ => True)
      (a.create place p operation) := by
  have quiet : ∀ action, Machine.Quiet action →
      (filing current (a.directory place p) (baseOf p)).Permits current action :=
    fun _ => Scope.permits_of_quiet
  refine Dated.within_bind (Dated.within_ofJob (Job.within_ask (within_readText quiet p))) fun text _ => ?_
  refine Dated.within_bind (Q := fun _ => True) (Dated.within_state (within_nextTimestamp quiet)) fun t _ => ?_
  refine Dated.within_bind (Q := fun base => base = baseOf p) (Dated.within_ofJob
    (Job.within_ofExcept fun base named => ?_)) ?_
  · exact (Disk.Staged.baseOf_eq (fileName?_of_nameOf named)).symm
  rintro base rfl
  have plain := Disk.Staged.not_slash_baseOf p
  refine Dated.within_bind (Dated.within_ofJob
    ((Disk.Staged.within_replace current _ _).mono (fun _ => Scope.Permits.mono
      (around_backupPath plain (isDigest_ofText text))) fun _ => id)) fun _ _ => ?_
  refine Dated.within_bind (Dated.within_ofJob (within_prune plain)) fun _ _ => ?_
  exact Dated.within_pure trivial

/-- A write touches nothing but the file, what is beside it, its backups and the ways there. -/
theorem within_write (current : Location) (a : Archive) (place : Place) (p : Path) (content operation : String) :
    Dated.Within (((filing current (a.directory place p) (baseOf p)).or (around current p)).Permits current)
      (fun _ => True) (a.write place p content operation) := by
  have early := Scope.le_or_left (filing current (a.directory place p) (baseOf p)) (around current p)
  have late := Scope.le_or_right (filing current (a.directory place p) (baseOf p)) (around current p)
  have present : (Program.isPresent p).Within
      (((filing current (a.directory place p) (baseOf p)).or (around current p)).Permits current)
      fun _ => True := by
    have kind : Scope.Permits ((filing current (a.directory place p) (baseOf p)).or (around current p))
        current (.kind p) := trivial
    exact (Program.within_perform kind).bind fun _ _ => Program.within_pure trivial
  have rest : ∀ backup, Dated.Within
      (((filing current (a.directory place p) (baseOf p)).or (around current p)).Permits current)
      (fun _ => True)
      (do
        Dated.ofJob (Staged.replace p content.toUTF8)
        return (⟨p, content.utf8ByteSize, backup⟩ : Receipt)) := by
    intro backup
    refine Dated.within_bind (Dated.within_ofJob ((Disk.Staged.within_replace current p _).mono
      (fun _ => Scope.Permits.mono late) fun _ => id)) fun _ _ => ?_
    exact Dated.within_pure trivial
  refine Dated.within_bind (Dated.within_lift present) fun there _ => ?_
  cases there with
  | false =>
    rw [if_neg Bool.false_ne_true, pure_bind]
    exact rest none
  | true =>
    rw [if_pos rfl, map_eq_pure_bind]
    refine Dated.within_bind (Q := fun _ => True) ?_ fun backup _ => rest backup
    refine Dated.within_bind ((within_create current a place p operation).mono
      fun _ => Scope.Permits.mono early) fun _ _ => ?_
    exact Dated.within_pure trivial

/-- Putting a record back touches nothing but the target, what is beside it and the way to it. -/
theorem within_putBack (current : Location) (record : Record) (target : Path) :
    (putBack record target).run.Within ((around current target).Permits current) (Done fun _ => True) := by
  have quiet : ∀ action, Machine.Quiet action → (around current target).Permits current action :=
    fun _ => Scope.permits_of_quiet
  have staged : (stageRecord record target).run.Within ((around current target).Permits current)
      (Done (Disk.Staged.Awaits target)) := by
    refine Job.within_bind ((Disk.Staged.within_stage current target _).mono
      (fun _ => Scope.Permits.mono Disk.Staged.beside_le_around) fun _ => id) fun w awaits => ?_
    refine Disk.Staged.within_orDiscard (Disk.Staged.permits_discard awaits) ?_
    refine Job.within_bind (Disk.Staged.within_readBack quiet w) fun actual _ => ?_
    dsimp only
    split
    · exact Job.within_pure awaits
    · exact Job.within_throw _
  refine Job.within_bind staged fun w awaits => ?_
  refine Job.within_bind (Disk.Staged.within_orDiscard (Disk.Staged.permits_discard awaits)
    (Disk.Staged.within_commit awaits)) fun _ _ => ?_
  exact Job.within_pure trivial

/-- A restore to a target touches nothing else. -/
theorem within_restore (current : Location) (backup target : Path) :
    (restore backup (some target)).run.Within ((around current target).Permits current)
      (Done fun _ => True) := by
  have quiet : ∀ action, Machine.Quiet action → (around current target).Permits current action :=
    fun _ => Scope.permits_of_quiet
  have read : (readRecord backup).run.Within ((around current target).Permits current)
      (Done fun _ => True) := by
    refine Job.within_bind (Job.within_ask (within_readText quiet backup)) fun text _ => ?_
    refine Job.within_bind (Job.within_ofExcept fun _ _ => trivial) fun record _ => ?_
    split
    · exact Job.within_pure trivial
    · exact Job.within_throw _
  rw [restore_eq]
  exact Job.within_bind read fun record _ => within_putBack current record target

end Archive

end SourceRepair.Backup
