import SourceRepair.Proofs.Backup.Archive
import SourceRepair.Proofs.Disk.Calm

/-!
# Backups without faults

In a calm environment a write succeeds where nothing stands in its way, `Archive.write_succeeds`, and
so does a restore of an intact record, `Archive.restore_succeeds`.
-/

namespace SourceRepair.Backup.Archive

open Disk (Program Staged Job Machine Files Scope IsNonce)
open Disk.Staged (Clear Settled temporaryPath baseOf waiting)

variable {a : Archive} {place : Place} {p target : Path} {operation content text : String}
  {m n : Machine} {s : Nat}

/-- A calm machine on which nothing stands in the way of a write behind the last timestamp `s`. -/
structure Open (a : Archive) (place : Place) (p : Path) (s : Nat) (m : Machine) : Prop where
  calm : m.environment.Calm
  sound : m.files.WellFormed
  uncapped : a.cap = 0
  clear : Clear m.files p
  room : ∀ t hash, Dates m.environment s t → IsDigest hash →
    Clear m.files (backupPath (a.directory place p) (baseOf p) t hash)

theorem Open.of_same (free : a.Open place p s m) (same : m.Same n) : a.Open place p s n :=
  ⟨same.2 ▸ free.calm, same.1 ▸ free.sound, free.uncapped, same.1 ▸ free.clear,
    same.1 ▸ same.2 ▸ free.room⟩

theorem create_succeeds (free : a.Open place p s m) (there : m.files.read p = .ok text.toUTF8) :
    Dated.Holds (fun _ => True) (fun r _ k => k.environment = m.environment ∧ k.files.WellFormed ∧
      Clear k.files p ∧ ∃ info, r = .ok info) (a.create place p operation) s m := by
  have steady : Disk.Steady fun _ => True := fun _ _ _ _ _ => trivial
  obtain ⟨calm, wf, uncapped, clear, room⟩ := free
  refine Dated.holds_bind (Q := fun r t k => t = s ∧ m.Same k ∧ r = .ok text) (Dated.holds_ofJob
    (Job.holds_ofFault ((Program.readText_holds steady trivial).mono (fun _ i => i) ?_))) ?_
    (fun e t k _ post => nomatch post.2.2)
  · rintro r k _ ⟨files, environment, _, healthy⟩
    have read : r = .ok text := by
      rw [healthy (calm.healthy _), there]
      exact Program.textOf_ok.mpr rfl
    subst read
    exact ⟨rfl, ⟨files, environment⟩, rfl⟩
  rintro text' t k _ ⟨rfl, same, read⟩
  refine Dated.holds_bind (Q := fun r u j => m.Same j ∧ ∃ now, r = .ok now ∧ Dates m.environment t now)
    (Dated.holds_state ((nextTimestamp_holds steady trivial).mono (fun _ i => i) ?_)) ?_
    (fun e t k _ post => nomatch post.2)
  · rintro r j _ ⟨files, environment, dates, _⟩
    exact ⟨same.trans ⟨files, environment⟩, _, rfl, same.2 ▸ dates⟩
  rintro now u j _ ⟨same, now', stamped, dates⟩
  cases stamped
  obtain ⟨l, found⟩ := Files.read_ok.mp there
  obtain ⟨_, _, named⟩ := Staged.place_of_file wf found
  refine Dated.holds_bind (Q := fun r u i => m.Same i ∧ r = .ok (baseOf p)) (Dated.holds_ofJob
    (Job.holds_ofExcept.mpr ⟨trivial, same, by rw [nameOf, named]⟩)) ?_
    (fun e t k _ post => nomatch post.2)
  rintro base u i _ ⟨same, named⟩
  cases named
  have room := room now (Digest.ofText text') dates (isDigest_ofText text')
  refine Dated.holds_bind (Q := fun r u j => r = .ok () ∧ j.environment = m.environment ∧
      j.files.WellFormed ∧ Clear j.files p) (Dated.holds_ofJob
    ((Staged.replace_succeeds (same.2 ▸ calm) (same.1 ▸ wf) (same.1 ▸ room)).mono (fun _ i => i) ?_)) ?_
    (fun e t k _ post => nomatch post.1)
  · rintro r j _ ⟨done, settled⟩
    obtain ⟨d, admitted⟩ := settled
    exact ⟨done, admitted.1.trans same.2, admitted.2.sound (same.1 ▸ wf),
      (same.1 ▸ clear : Clear i.files p).settled ⟨d, admitted⟩⟩
  rintro _ u j _ ⟨_, environment, wf, clear⟩
  refine Dated.holds_bind (Q := fun r u i => r = .ok () ∧ i = j) (Dated.holds_ofJob ?_) ?_
    (fun e t k _ post => nomatch post.1)
  · rw [prune, if_pos uncapped]
    exact Job.holds_pure.mpr ⟨trivial, rfl, rfl⟩
  rintro _ u i _ ⟨_, rfl⟩
  exact Dated.holds_pure.mpr ⟨trivial, environment, wf, clear, _, rfl⟩

/-- Where nothing stands in the way a file is written. -/
theorem write_succeeds (free : a.Open place p s m) (there : m.files.read p = .ok text.toUTF8) :
    Dated.Holds (fun _ => True) (fun r _ _ => ∃ receipt, r = .ok receipt)
      (a.write place p content operation) s m := by
  have steady : Disk.Steady fun _ => True := fun _ _ _ _ _ => trivial
  refine Dated.holds_bind (Q := fun r t k => t = s ∧ m.Same k ∧ r = .ok true) (Dated.holds_lift
    ((Program.isPresent_holds steady trivial).mono (fun _ i => i) ?_)) ?_
    (fun e t k _ post => by cases post.2.2)
  · rintro b k _ ⟨files, environment, rfl⟩
    obtain ⟨l, found⟩ := Files.read_ok.mp there
    refine ⟨rfl, ⟨files, environment⟩, ?_⟩
    rw [Files.kindAt, found]
    rfl
  rintro present t k _ ⟨rfl, same, there'⟩
  cases there'
  have free' := free.of_same same
  rw [if_pos rfl, map_eq_pure_bind]
  refine Dated.holds_bind (Q := fun r u j => j.environment.Calm ∧ j.files.WellFormed ∧ Clear j.files p ∧
      ∃ backup, r = .ok backup) ?_ ?_
    (fun e t k _ post => by obtain ⟨_, same⟩ := post.2.2.2; cases same)
  · refine Dated.holds_bind (create_succeeds free' (same.1 ▸ there)) ?_
      (fun e t k _ post => by obtain ⟨_, same⟩ := post.2.2.2; cases same)
    rintro info u j _ ⟨environment, wf, clear, _⟩
    exact Dated.holds_pure.mpr ⟨trivial, environment ▸ free'.calm, wf, clear, _, rfl⟩
  rintro backup u j _ ⟨calm, wf, clear, _⟩
  refine Dated.holds_bind (Q := fun r _ _ => r = .ok ()) (Dated.holds_ofJob
    ((Staged.replace_succeeds calm wf clear).mono (fun _ i => i) fun r i _ post => post.1)) ?_
    (fun e t k _ post => by cases post)
  exact fun _ u i _ _ => Dated.holds_pure.mpr ⟨trivial, _, rfl⟩

/-! ### Restoring -/

/-- Where nothing stands in the way an intact record is restored. -/
theorem restore_succeeds {backup : Path} {record : Record} (calm : m.environment.Calm)
    (wf : m.files.WellFormed) (clear : Clear m.files target)
    (read : m.files.read backup = .ok record.text.toUTF8) (decoded : Record.ofText record.text = .ok record)
    (intact : record.isIntact = true) :
    (restore backup (some target)).run.Holds (fun _ => True) (fun r _ => ∃ q, r = .ok q) m := by
  have steady : Disk.Steady fun _ => True := fun _ _ _ _ _ => trivial
  have digest : record.hash = Digest.ofBytes record.content.toUTF8 := by
    have same := intact
    rw [Record.isIntact, beq_iff_eq] at same
    exact same.symm
  have staged : (stageRestore backup (some target)).run.Holds (fun _ => True)
      (fun r k => (waiting target).Admits m k ∧ ∃ nonce l, IsNonce nonce ∧
        r = .ok ⟨target, temporaryPath target nonce⟩ ∧
        k.files.find (temporaryPath target nonce) = .ok (l, .file record.content.toUTF8)) m := by
    refine Job.holds_bind (Q := fun r k => m.Same k ∧ r = .ok record)
      ((readRecord_holds steady trivial).mono (fun _ i => i) ?_) ?_ (fun e k _ post => by cases post.2)
    · rintro r k _ ⟨files, environment, _, healthy⟩
      exact ⟨⟨files, environment⟩, healthy _ _ (calm.healthy _) read decoded intact⟩
    rintro record' k _ ⟨same, found⟩
    cases found
    refine Job.holds_bind (Q := fun r j => (waiting target).Admits m j ∧ ∃ nonce l, IsNonce nonce ∧
        r = .ok ⟨target, temporaryPath target nonce⟩ ∧
        j.files.find (temporaryPath target nonce) = .ok (l, .file record.content.toUTF8))
      ((Staged.stage_calm (same.2 ▸ calm) (same.1 ▸ wf) (same.1 ▸ clear)).mono (fun _ _ => trivial)
        fun r j inv post => ⟨(Scope.admits_of_files same.2 same.1).trans inv, post⟩) ?_
      (fun e k _ post => by obtain ⟨_, _, _, _, same, _⟩ := post; cases same)
    rintro w j _ ⟨inv, nonce, l, made, same, waits⟩
    cases same
    refine Staged.orDiscard_holds (Q := fun r i => (waiting target).Admits m i ∧
        r = .ok ⟨target, temporaryPath target nonce⟩ ∧ i.files = j.files) ?_ ?_
      (fun e k _ post => by cases post.2.1)
    · have back := Staged.readBack_calm (w := ⟨target, temporaryPath target nonce⟩) (inv.1 ▸ calm) waits inv
      refine Job.holds_bind (Q := fun r i => (waiting target).Admits m i ∧
          r = .ok record.content.toUTF8 ∧ i.files = j.files)
        (back.mono (fun _ _ => trivial) fun r i inv post => ⟨inv, post⟩) ?_
        (fun e k _ post => by cases post.2.1)
      rintro actual i _ ⟨inv, same, files⟩
      cases same
      rw [if_pos digest.symm]
      exact Job.holds_pure.mpr ⟨trivial, inv, rfl, files⟩
    · rintro w i _ ⟨inv, same, files⟩
      exact ⟨inv, nonce, l, made, same, files ▸ waits⟩
  refine Job.holds_bind staged ?_ (fun e k _ post => by obtain ⟨_, _, _, _, same, _⟩ := post; cases same)
  rintro w k _ ⟨inv, nonce, l, made, same, waits⟩
  cases same
  have moved := Staged.commit_calm (inv.1 ▸ calm) (inv.2.sound wf) made (clear.admits inv fun _ => id) waits
  refine Job.holds_bind (Q := fun r _ => r = .ok ()) (Staged.orDiscard_holds moved
    (fun _ _ _ post => post.1) (fun e k _ post => by cases post.1)) ?_ (fun e k _ post => by cases post)
  exact fun _ j _ _ => Job.holds_pure.mpr ⟨trivial, _, rfl⟩

/-- Nothing is restored from a backup that cannot be read. -/
theorem restore_fails {backup : Path} (unread : ∀ b, m.files.read backup ≠ .ok b) :
    (restore backup (some target)).run.Holds (fun _ => True) (fun r _ => ∃ e, r = .error e) m := by
  have steady : Disk.Steady fun _ => True := fun _ _ _ _ _ => trivial
  have staged : (stageRestore backup (some target)).run.Holds (fun _ => True)
      (fun r _ => ∃ e, r = .error e) m := by
    refine Job.holds_bind (readRecord_holds steady trivial) ?_ (fun e k _ _ => ⟨e, rfl⟩)
    rintro record k _ ⟨_, _, found, _⟩
    obtain ⟨text, read, _⟩ := found record rfl
    exact absurd read (unread _)
  refine Job.holds_bind staged ?_ (fun e k _ _ => ⟨e, rfl⟩)
  rintro w k _ ⟨e, failed⟩
  cases failed

end SourceRepair.Backup.Archive
