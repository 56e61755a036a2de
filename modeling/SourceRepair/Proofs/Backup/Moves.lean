import SourceRepair.Proofs.Backup.Archive
import SourceRepair.Proofs.Disk.Moves

/-!
# What a write moves into place

A write of a file that succeeds makes two moves: the record of what the file held, then the content.
-/

namespace SourceRepair.Backup

open Disk (Program Staged Job Machine Files Scope Move)
open Disk.Staged (replacing baseOf)

namespace Dated

variable {α β : Type} {m n : Machine} {s u : Nat} {ms : List Move}

theorem bind_gives {x : Dated α} {f : α → Dated β} {b : β}
    (h : ((x >>= f).run.run s).Gives m (.ok b, u) n ms) :
    ∃ a t k first rest, (x.run.run s).Gives m (.ok a, t) k first ∧
      ((f a).run.run t).Gives k (.ok b, u) n rest ∧ ms = first ++ rest := by
  rw [ExceptT.run_bind, StateT.run_bind] at h
  obtain ⟨⟨r, t⟩, k, first, rest, gives, gives', same⟩ := Program.bind_gives h
  cases r with
  | ok a => exact ⟨a, t, k, first, rest, gives, gives', same⟩
  | error e => cases gives'.1

theorem ofJob_gives {job : Job α} {r : Except Failure α}
    (h : ((ofJob job).run.run s).Gives m (r, u) n ms) : u = s ∧ job.run.Gives m r n ms :=
  Program.lift_gives h

theorem state_gives {p : StateT Nat Program α} {a : α}
    (h : ((liftM p : Dated α).run.run s).Gives m (.ok a, u) n ms) : (p.run s).Gives m (a, u) n ms := by
  have shown : ((ExceptT.lift p : Dated α).run.run s).Gives m (.ok a, u) n ms := h
  rw [ExceptT.run_lift, map_eq_pure_bind, StateT.run_bind] at shown
  obtain ⟨⟨b, t⟩, k, first, rest, gives, ⟨ran, moved⟩, rfl⟩ := Program.bind_gives shown
  cases ran
  rw [← moved]
  simpa using gives

theorem lift_gives {p : Program α} {a : α}
    (h : ((liftM p : Dated α).run.run s).Gives m (.ok a, u) n ms) : u = s ∧ p.Gives m a n ms :=
  Program.lift_gives (state_gives (p := StateT.lift p) h)

end Dated

namespace Archive

variable {a : Archive} {place : Place} {p dir : Path} {base operation content text : String}
  {m n : Machine} {s t : Nat} {ms : List Move}

theorem still_scan : (scan dir base).run.Still := by
  refine Job.still_bind (Job.still_lift (Program.still_perform fun _ => rfl)) fun r => ?_
  cases r with
  | ok names => exact Job.still_pure _
  | error fault =>
    dsimp only
    split
    · exact Job.still_pure _
    · exact Job.still_throw _

theorem still_prune : (a.prune dir base).run.Still := by
  have remove : ∀ infos : List Info,
      (infos.forM fun i => Job.ofFault i.path (Program.remove i.path) : Job Unit).run.Still := by
    intro infos
    induction infos with
    | nil => exact Job.still_pure _
    | cons i rest ih =>
      exact Job.still_bind (Job.still_ofFault (Program.still_perform fun _ => rfl)) fun _ => ih
  unfold prune
  split
  · exact Job.still_pure _
  · exact Job.still_bind still_scan fun infos => remove _

theorem nextTimestamp_gives {u : Nat} (h : (nextTimestamp.run s).Gives m (t, u) n ms) :
    u = t ∧ m.Same n ∧ ms = [] := by
  obtain ⟨⟨now, s'⟩, k, first, rest, asked, ⟨ran, moved⟩, rfl⟩ := Program.bind_gives h
  obtain ⟨_, asked⟩ := Program.lift_gives asked
  obtain ⟨same, rfl⟩ := Program.quiet_gives .calendar trivial asked
  cases ran
  exact ⟨rfl, same, moved.symm⟩

theorem readText_gives {text' : String}
    (h : (Job.ofFault p (Program.readText p)).run.Gives m (.ok text') n ms) :
    m.Same n ∧ ms = [] ∧ m.files.read p = .ok text'.toUTF8 := by
  have still : (Job.ofFault p (Program.readText p)).run.Still := Job.still_ofFault
    (Program.Still.bind (Program.still_perform fun _ => rfl) fun _ => Program.still_pure _)
  obtain ⟨r, k, first, rest, gives, ⟨ran, _⟩, _⟩ := Program.bind_gives h
  obtain ⟨_, files, environment, read, _⟩ := gives.holds
    (Program.readText_holds (I := fun _ => True) (fun _ _ _ _ _ => trivial) trivial)
  cases r with
  | ok text =>
    cases ran
    exact ⟨⟨files, environment⟩, h.still still, read text' rfl⟩
  | error fault => cases ran

/-- What stands in a file is one text. -/
theorem text_of_read {fs : Files} {text' : String} (there : fs.read p = .ok text.toUTF8)
    (there' : fs.read p = .ok text'.toUTF8) : text = text' :=
  String.toByteArray_inj.mp (Except.ok.inj (there.symm.trans there'))

/-- A backup that is made: the text of the file is read, a document of it is put in its place, and what
is too old is removed. -/
structure Created (a : Archive) (place : Place) (p : Path) (operation text : String) (m : Machine) (s : Nat)
    (info : Info) (t : Nat) (n : Machine) (ms : List Move) (k j : Machine) : Prop where
  read : m.files.read p = .ok text.toUTF8
  same : m.Same k
  dated : Dates m.environment s t
  shown : info = a.infoOf place p t text
  replaced : (Staged.replace info.path (Record.ofContent (a.absolute p) t operation text).text.toUTF8).run.Gives
    k (.ok ()) j ms
  pruned : (a.prune (a.directory place p) (baseOf p)).run.run j = (.ok (), n)

theorem create_parts {info : Info} (h : ((a.create place p operation).run.run s).Gives m (.ok info, t) n ms) :
    ∃ text k j, Created a place p operation text m s info t n ms k j := by
  have steady : Disk.Steady fun _ => True := fun _ _ _ _ _ => trivial
  obtain ⟨text, _, read, _, _, reading, dating, rfl⟩ := Dated.bind_gives h
  obtain ⟨rfl, was_read⟩ := Dated.ofJob_gives reading
  obtain ⟨same, rfl, there⟩ := readText_gives was_read
  obtain ⟨now, _, dated, _, _, stamping, naming, rfl⟩ := Dated.bind_gives dating
  have stamped := Dated.state_gives stamping
  obtain ⟨_, _, _, dates, _⟩ := stamped.holds (nextTimestamp_holds steady trivial)
  obtain ⟨rfl, same', rfl⟩ := nextTimestamp_gives stamped
  obtain ⟨base, _, named, w, _, looking, saving, rfl⟩ := Dated.bind_gives naming
  obtain ⟨rfl, ⟨kept, unmoved⟩⟩ := Dated.ofJob_gives looking
  obtain ⟨found, rfl⟩ := Prod.mk.inj kept
  obtain rfl := Staged.baseOf_eq (fileName?_of_nameOf found)
  obtain ⟨_, _, replaced, first, rest, replacing, pruning, rfl⟩ := Dated.bind_gives saving
  obtain ⟨rfl, moving⟩ := Dated.ofJob_gives replacing
  obtain ⟨_, _, pruned, second, last, cleaning, ⟨ran, finished⟩, rfl⟩ := Dated.bind_gives pruning
  obtain ⟨rfl, cleaned⟩ := Dated.ofJob_gives cleaning
  obtain rfl := cleaned.still still_prune
  have alone : [] ++ ([] ++ (w ++ (first ++ ([] ++ last)))) = first := by
    rw [← unmoved, ← finished]
    exact List.append_nil first
  rw [alone]
  obtain ⟨given, rfl⟩ := Prod.mk.inj ran
  obtain ⟨done, rfl⟩ := Prod.mk.inj given
  obtain rfl := Except.ok.inj done
  exact ⟨text, _, replaced, there, same.trans same', same.2 ▸ dates, rfl, moving, cleaned.1⟩

/-- Making a backup moves the record of what the file holds to its place. -/
theorem create_gives {info : Info} (wf : m.files.WellFormed) (tidy : m.environment.Tidy)
    (there : m.files.read p = .ok text.toUTF8)
    (h : ((a.create place p operation).run.run s).Gives m (.ok info, t) n ms) :
    ∃ before, ms = [⟨info.path, before,
      (Record.ofContent (a.absolute p) info.timestamp operation text).text.toUTF8⟩] := by
  obtain ⟨text', k, j, created⟩ := create_parts h
  obtain rfl := text_of_read there created.read
  have wf' : k.files.WellFormed := by rw [created.same.1]; exact wf
  have tidy' : k.environment.Tidy := by rw [created.same.2]; exact tidy
  obtain ⟨before, moved, _⟩ := Staged.replace_gives wf' tidy' created.replaced
  have dated : info.timestamp = t := by rw [created.shown]; rfl
  exact ⟨before, dated ▸ moved⟩

/-- What a write of a file does not lose while it makes the backup: the file. -/
theorem file_kept {l : Disk.Location} {bytes : ByteArray} (wf : m.files.WellFormed)
    (found : m.files.find p = .ok (l, .file bytes)) : ¬(backing dir (baseOf p) s).lose l := by
  obtain ⟨d, rfl, _⟩ := Staged.place_of_file wf found
  intro lost
  rcases lose_backing (Staged.not_slash_baseOf p) lost with later | ⟨read, parsed⟩
  · exact later.ne_base
  · exact ne_of_parseName? parsed rfl

/-- A write of a file moves a backup of it into place, and then the content. -/
theorem write_gives {receipt : Receipt} (wf : m.files.WellFormed) (tidy : m.environment.Tidy)
    (there : m.files.read p = .ok text.toUTF8)
    (h : ((a.write place p content operation).run.run s).Gives m (.ok receipt, t) n ms) :
    ∃ info before, receipt.backup = some info ∧ ms = [⟨info.path, before,
      (Record.ofContent (a.absolute p) info.timestamp operation text).text.toUTF8⟩,
      ⟨p, some text.toUTF8, content.toUTF8⟩] := by
  obtain ⟨l, found⟩ := Files.read_ok.mp there
  have steady : Disk.Steady fun k : Machine => m.Same k :=
    fun _ _ files environment same => same.trans ⟨files, environment⟩
  obtain ⟨present, _, looked, _, _, looking, securing, rfl⟩ := Dated.bind_gives h
  obtain ⟨rfl, seen⟩ := Dated.lift_gives looking
  obtain ⟨same, _, _, shown⟩ := seen.holds (Program.isPresent_holds steady (Machine.Same.refl m))
  have yes : present = true := by
    rw [shown, Files.kindAt, found]
    rfl
  rw [seen.still (Program.Still.bind (Program.still_perform fun _ => rfl) fun _ => Program.still_pure _)]
  subst yes
  rw [if_pos rfl] at securing
  obtain ⟨backup, t', secured, first, rest, secure, replacing, rfl⟩ := Dated.bind_gives securing
  rw [map_eq_pure_bind] at secure
  obtain ⟨info, t'', made, _, _, create, ⟨ran, moved⟩, rfl⟩ := Dated.bind_gives secure
  cases ran
  have wf' : looked.files.WellFormed := same.1 ▸ wf
  have tidy' : looked.environment.Tidy := same.2 ▸ tidy
  have found' : looked.files.find p = .ok (l, .file text.toUTF8) := by
    rw [same.1]
    exact found
  obtain ⟨old, rfl⟩ := create_gives wf' tidy' (Files.read_ok.mpr ⟨l, found'⟩) create
  -- The file is still there when its content is replaced.
  obtain ⟨inv, _⟩ := create.holds (create_holds wf' tidy')
  have kept := inv.2.read found' (file_kept wf' found')
  obtain ⟨_, _, _, second, last, putting, ⟨ran, finished⟩, rfl⟩ := Dated.bind_gives replacing
  obtain ⟨rfl, put⟩ := Dated.ofJob_gives putting
  obtain ⟨before, rfl, read⟩ := Staged.replace_gives (inv.2.sound wf') (inv.1 ▸ tidy') put
  obtain rfl := read _ (Files.read_ok.mpr ⟨l, kept⟩)
  rw [← moved, ← finished]
  cases ran
  exact ⟨info, old, rfl, rfl⟩

end Archive

end SourceRepair.Backup
