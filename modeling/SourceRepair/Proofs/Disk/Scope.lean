import SourceRepair.Disk.Machine
import SourceRepair.Proofs.Disk.Files

/-!
# What may change on a disk

A scope says which files may be lost, what files may come and where directories may be made. One
action stays in a scope under conditions on its paths alone, whatever the environment makes of it.
-/

namespace SourceRepair.Disk

open Files (piecesOf)
open Path (IsPlain)

structure Scope where
  /-- The file at the location may be lost. -/
  lose : Location → Prop
  /-- A file with these bytes may come to the location. -/
  gain : Location → ByteArray → Prop
  /-- A directory may be made at the location. -/
  make : Location → Prop

namespace Scope

variable {s t : Scope} {fs gs hs : Files}

/-- One disk comes from another by changes in the scope. -/
structure Allows (s : Scope) (fs gs : Files) : Prop where
  grows : fs.Grows gs
  sound : fs.WellFormed → gs.WellFormed
  made : ∀ l, gs.get? l = some .directory → fs.get? l = some .directory ∨ s.make l
  kept : ∀ l b, fs.get? l = some (.file b) → gs.get? l = some (.file b) ∨ s.lose l
  gained : ∀ l b, gs.get? l = some (.file b) → fs.get? l = some (.file b) ∨ s.gain l b

/-- Nothing may change. -/
def nothing : Scope := ⟨fun _ => False, fun _ _ => False, fun _ => False⟩

/-- Anything may change, as far as it can. -/
def anything : Scope := ⟨fun _ => True, fun _ _ => True, fun _ => True⟩

/-- What one of two scopes permits. -/
def or (s t : Scope) : Scope :=
  ⟨fun l => s.lose l ∨ t.lose l, fun l b => s.gain l b ∨ t.gain l b, fun l => s.make l ∨ t.make l⟩

/-- A scope permits no more than another. -/
structure Le (s t : Scope) : Prop where
  lose : ∀ l, s.lose l → t.lose l
  gain : ∀ l b, s.gain l b → t.gain l b
  make : ∀ l, s.make l → t.make l

theorem le_refl (s : Scope) : s.Le s := ⟨fun _ h => h, fun _ _ h => h, fun _ h => h⟩

theorem Le.trans {u : Scope} (first : s.Le t) (second : t.Le u) : s.Le u :=
  ⟨fun l h => second.1 l (first.1 l h), fun l b h => second.2 l b (first.2 l b h),
    fun l h => second.3 l (first.3 l h)⟩

theorem le_or_left (s t : Scope) : s.Le (s.or t) := ⟨fun _ => .inl, fun _ _ => .inl, fun _ => .inl⟩

theorem le_or_right (s t : Scope) : t.Le (s.or t) := ⟨fun _ => .inr, fun _ _ => .inr, fun _ => .inr⟩

theorem Le.or {u : Scope} (le : s.Le t) : (s.or u).Le (t.or u) :=
  ⟨fun l => .imp_left (le.lose l), fun l b => .imp_left (le.gain l b), fun l => .imp_left (le.make l)⟩

theorem or_le {u : Scope} (left : s.Le u) (right : t.Le u) : (s.or t).Le u :=
  ⟨fun l h => h.elim (left.1 l) (right.1 l), fun l b h => h.elim (left.2 l b) (right.2 l b),
    fun l h => h.elim (left.3 l) (right.3 l)⟩

theorem Allows.refl (s : Scope) (fs : Files) : s.Allows fs fs :=
  ⟨.refl fs, id, fun _ => .inl, fun _ _ => .inl, fun _ _ => .inl⟩

theorem Allows.trans (first : s.Allows fs gs) (second : s.Allows gs hs) : s.Allows fs hs where
  grows := first.grows.trans second.grows
  sound := second.sound ∘ first.sound
  made l h := (second.made l h).elim (first.made l) .inr
  kept l b h := (first.kept l b h).elim (second.kept l b) .inr
  gained l b h := (second.gained l b h).elim (first.gained l b) .inr

theorem Allows.mono (le : s.Le t) (allowed : s.Allows fs gs) : t.Allows fs gs where
  grows := allowed.grows
  sound := allowed.sound
  made l h := (allowed.made l h).imp_right (le.make l)
  kept l b h := (allowed.kept l b h).imp_right (le.lose l)
  gained l b h := (allowed.gained l b h).imp_right (le.gain l b)

/-- A file that a scope may neither lose nor replace is as it was. -/
theorem Allows.read (allowed : s.Allows fs gs) {p : Path} {l : Location} {bytes : ByteArray}
    (found : fs.find p = .ok (l, .file bytes)) (safe : ¬s.lose l) :
    gs.find p = .ok (l, .file bytes) := by
  obtain ⟨led, file, slash⟩ := Files.find_ok.mp found
  have still := (allowed.kept l bytes file).resolve_right safe
  exact Files.find_ok.mpr ⟨allowed.grows.locate led, still, slash⟩

/-- What a scope does not touch is as it was, unless a directory was made there. -/
theorem Allows.get?_eq (allowed : s.Allows fs gs) {l : Location} (free : gs.get? l ≠ some .directory)
    (kept : ¬s.lose l) (spared : ∀ b, ¬s.gain l b) : gs.get? l = fs.get? l := by
  cases after : gs.get? l with
  | some node =>
    cases node with
    | directory => exact absurd after free
    | file b => exact ((allowed.gained l b after).resolve_right (spared b)).symm
  | none =>
    cases before : fs.get? l with
    | none => rfl
    | some node =>
      cases node with
      | directory => cases after.symm.trans (allowed.grows.2 l before)
      | file b => cases after.symm.trans ((allowed.kept l b before).resolve_right kept)

/-! ### Single changes -/

theorem allows_put_directory {l : Location} (wf : fs.WellFormed) (free : fs.get? l = none)
    (parent : fs.get? l.dropLast = some .directory) (permitted : s.make l) :
    s.Allows fs (fs.put l .directory) := by
  have inner : l ≠ [] := Files.ne_nil_of_free free
  have other : ∀ k n, fs.get? k = some n → (fs.put l .directory).get? k = some n := by
    intro k n found
    have apart : k ≠ l := by
      rintro rfl
      simp [free] at found
    exact (Files.get?_put_other apart).trans found
  refine ⟨⟨rfl, fun k => other k _⟩, fun _ => wf.put parent (by simp [free]), ?_,
    fun k b found => .inl (other k _ found), ?_⟩
  · intro k found
    by_cases same : k = l
    · exact .inr (same ▸ permitted)
    · exact .inl (by rwa [Files.get?_put_other same] at found)
  · intro k b found
    by_cases same : k = l
    · rw [same, Files.get?_put_same inner] at found
      cases found
    · exact .inl (by rwa [Files.get?_put_other same] at found)

theorem allows_put_file {l : Location} {bytes : ByteArray} (wf : fs.WellFormed)
    (free : fs.get? l ≠ some .directory) (parent : fs.get? l.dropLast = some .directory)
    (lose : s.lose l) (gain : s.gain l bytes) : s.Allows fs (fs.put l (.file bytes)) := by
  have inner : l ≠ [] := Files.ne_nil_of_get? free
  refine ⟨⟨rfl, fun k found => ?_⟩, fun _ => wf.put parent free, ?_, ?_, ?_⟩
  · have apart : k ≠ l := by
      rintro rfl
      exact free found
    exact (Files.get?_put_other apart).trans found
  · intro k found
    by_cases same : k = l
    · rw [same, Files.get?_put_same inner] at found
      cases found
    · exact .inl (by rwa [Files.get?_put_other same] at found)
  · intro k b found
    by_cases same : k = l
    · exact .inr (same ▸ lose)
    · exact .inl ((Files.get?_put_other same).trans found)
  · intro k b found
    by_cases same : k = l
    · rw [same, Files.get?_put_same inner] at found
      cases found
      exact .inr (same ▸ gain)
    · exact .inl (by rwa [Files.get?_put_other same] at found)

theorem allows_erase {l : Location} {old : ByteArray} (wf : fs.WellFormed)
    (file : fs.get? l = some (.file old)) (lose : s.lose l) : s.Allows fs (fs.erase l) := by
  have inner : l ≠ [] := Files.ne_nil_of_file file
  have back : ∀ k n, (fs.erase l).get? k = some n → fs.get? k = some n := by
    intro k n found
    by_cases same : k = l
    · rw [same, Files.get?_erase_same inner] at found
      cases found
    · rwa [Files.get?_erase_other same] at found
  refine ⟨⟨rfl, fun k found => ?_⟩, fun _ => wf.erase file, fun k found => .inl (back k _ found), ?_,
    fun k b found => .inl (back k _ found)⟩
  · have apart : k ≠ l := by
      rintro rfl
      simp [file] at found
    exact (Files.get?_erase_other apart).trans found
  · intro k b found
    by_cases same : k = l
    · exact .inr (same ▸ lose)
    · exact .inl ((Files.get?_erase_other same).trans found)

/-! ### Single operations -/

/-- What a path leads to, unless it is a directory, lies in one. -/
theorem parent_of_locate {p : Path} {l : Location} (wf : fs.WellFormed) (led : fs.locate p = .ok l)
    (free : fs.get? l ≠ some .directory) : fs.get? l.dropLast = some .directory := by
  obtain ⟨front, name, pieces, plain⟩ := wf.plain_of_locate led free
  obtain ⟨d, rfl, directory, _⟩ := Files.locate_plain pieces plain led
  simpa using directory

theorem allows_makeDirectory {p : Path} (wf : fs.WellFormed)
    (permitted : ∀ l, fs.locate p = .ok l → fs.get? l = none → s.make l)
    (done : fs.makeDirectory p = .ok gs) : s.Allows fs gs := by
  obtain ⟨l, led, free, rfl⟩ := Files.makeDirectory_ok.mp done
  have parent := parent_of_locate wf led (by simp [free])
  exact allows_put_directory wf free parent (permitted l led free)

theorem allows_create {p : Path} (wf : fs.WellFormed)
    (permitted : ∀ l, fs.locate p = .ok l → s.lose l ∧ s.gain l .empty)
    (done : fs.create p = .ok gs) : s.Allows fs gs := by
  obtain ⟨l, led, free, _, rfl⟩ := Files.create_ok.mp done
  have parent := parent_of_locate wf led free
  exact allows_put_file wf free parent (permitted l led).1 (permitted l led).2

theorem allows_write {p : Path} {bytes : ByteArray} (wf : fs.WellFormed)
    (permitted : ∀ l, fs.locate p = .ok l → s.lose l ∧ s.gain l bytes)
    (done : fs.write p bytes = .ok gs) : s.Allows fs gs := by
  obtain ⟨l, old, found, rfl⟩ := Files.write_ok.mp done
  obtain ⟨led, file, _⟩ := Files.find_ok.mp found
  have free : fs.get? l ≠ some .directory := by simp [file]
  exact allows_put_file wf free (parent_of_locate wf led free) (permitted l led).1 (permitted l led).2

/-- A file that was created is found, empty. -/
theorem find_of_create {p : Path} (wf : fs.WellFormed) (done : fs.create p = .ok gs) :
    ∃ l, gs.find p = .ok (l, .file .empty) := by
  have allowed := allows_create (s := anything) wf (fun _ _ => ⟨trivial, trivial⟩) done
  obtain ⟨l, led, free, slash, rfl⟩ := Files.create_ok.mp done
  have put := fs.get?_put_same (n := .file .empty) (Files.ne_nil_of_get? free)
  exact ⟨l, Files.find_ok.mpr ⟨allowed.grows.locate led, put, fun _ => slash⟩⟩

/-- A file that was written is found with its new content. -/
theorem find_of_write {p : Path} {bytes : ByteArray} (wf : fs.WellFormed)
    (done : fs.write p bytes = .ok gs) : ∃ l, gs.find p = .ok (l, .file bytes) := by
  have allowed := allows_write (s := anything) wf (fun _ _ => ⟨trivial, trivial⟩) done
  obtain ⟨l, old, found, rfl⟩ := Files.write_ok.mp done
  obtain ⟨led, file, slash⟩ := Files.find_ok.mp found
  have put := fs.get?_put_same (n := .file bytes) (Files.ne_nil_of_file file)
  exact ⟨l, Files.find_ok.mpr ⟨allowed.grows.locate led, put, fun _ => slash (by simp)⟩⟩

theorem allows_remove {p : Path} (wf : fs.WellFormed)
    (permitted : ∀ l, fs.locate p = .ok l → s.lose l) (done : fs.remove p = .ok gs) :
    s.Allows fs gs := by
  obtain ⟨l, old, found, rfl⟩ := Files.remove_ok.mp done
  obtain ⟨led, file, _⟩ := Files.find_ok.mp found
  exact allows_erase wf file (permitted l led)

theorem allows_rename {source target : Path} (wf : fs.WellFormed)
    (leaves : ∀ l bytes, fs.find source = .ok (l, .file bytes) → s.lose l)
    (lands : ∀ l bytes k, fs.find source = .ok (l, .file bytes) → fs.locate target = .ok k →
      Files.endsInDots target = false → s.lose k ∧ s.gain k bytes)
    (done : fs.rename source target = .ok gs) : s.Allows fs gs := by
  obtain ⟨k, l, bytes, led, dots, found, _, free, rfl⟩ := Files.rename_ok.mp done
  obtain ⟨_, file, _⟩ := Files.find_ok.mp found
  split
  · exact Allows.refl s fs
  · rename_i apart
    have parent := parent_of_locate wf led free
    have gone := allows_erase wf file (leaves l bytes found)
    -- The file that leaves is no directory, so it does not enclose the target.
    have free' : (fs.erase l).get? k ≠ some .directory := by
      rw [Files.get?_erase_other (Ne.symm apart)]
      exact free
    exact gone.trans (allows_put_file (wf.erase file) free' (gone.grows.2 _ parent)
      (lands l bytes k found led dots).1 (lands l bytes k found led dots).2)

end Scope

end SourceRepair.Disk
