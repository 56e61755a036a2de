import SourceRepair.Proofs.Components
import SourceRepair.Proofs.Backup.Retention
import SourceRepair.Proofs.Pipeline.Rollback

/-!
# Which files share their backups

The backups of a file are found by the names of the directories on the way to it and by its own name.
Steps that lead up are left out of the way, and so is the start of it: two files outside and inside the
project can share a way, and so can a path with two dots and another one. Files to which names alone
lead from one start never do, and then neither their backups are mixed up: `keys_tell_apart`.
-/

namespace SourceRepair.Backup

open Disk (Files Location Machine Scope)
open Disk.Staged (baseOf)
open Path (IsPlain)

/-- The name of the file in the name of a backup. -/
def base? (name : String) : Option (List Char) := do
  let (front, _) ← cutLastDot? name.toList
  let (front, _) ← cutLastDot? front
  return front

theorem base?_of_parseName? {base name : String} {read : Nat × String}
    (parsed : parseName? base name = some read) : base? name = some base.toList := by
  unfold parseName? at parsed
  unfold base?
  cases cut : cutLastDot? name.toList with
  | none => simp [cut] at parsed
  | some parts =>
    cases cut' : cutLastDot? parts.1 with
    | none => simp [cut, cut'] at parsed
    | some parts' =>
      simp only [cut, cut', Option.bind_eq_bind, Option.bind_some] at parsed ⊢
      split at parsed
      · rename_i checked
        rw [Bool.and_eq_true, beq_iff_eq] at checked
        rw [← checked.1, String.toList_ofList]
        rfl
      · cases parsed

theorem base?_fileName {base hash : String} {t : Nat} (digest : IsDigest hash) :
    base? (fileName base t hash) = some base.toList := by
  rw [base?, toList_fileName, cutLastDot?_append _ (digest.not_mem (by decide)), Option.bind_eq_bind,
    Option.bind_some]
  dsimp only
  rw [cutLastDot?_append _ (not_mem_toDigits (by decide))]
  rfl

namespace Archive

variable {a : Archive} {p q : Path} {place place' : Place} {current l : Location} {cs : List Component}

/-! ### The way to a file -/

/-- What is left of a path behind the root of the project, or all of it if it lies outside. -/
def rest (a : Archive) (p : Path) : Path := ((a.absolute p).relativeTo? a.projectRoot).getD (a.absolute p)

/-- A path that goes to a file by names alone from where its backups are laid out. -/
structure Direct (a : Archive) (p : Path) : Prop where
  level : .up ∉ (a.rest p).components
  named : (a.rest p).fileName?.isSome = true

theorem components_rest (inside : (a.absolute p).components = a.projectRoot.components ++ cs) :
    (a.rest p).components = cs := by
  rw [rest, Path.relativeTo?_eq inside, Option.getD_some]
  exact Path.components_ofComponents ⟨_, inside.symm⟩

/-- What is left of a path stands at its end, behind the root or alone. -/
theorem rest_cases (a : Archive) (p : Path) : (a.rest p).components <:+ p.components ∧
    ((a.absolute p).components = a.projectRoot.components ++ (a.rest p).components ∨
      a.rest p = a.absolute p ∧ (a.absolute p).isAbsolute = true) := by
  by_cases absolute : p.isAbsolute = true
  · have same : a.absolute p = p := if_pos absolute
    by_cases within : a.projectRoot.components.isPrefixOf p.components = true
    · obtain ⟨cs, inside⟩ := List.isPrefixOf_iff_prefix.mp within
      have rest := components_rest (a := a) (p := p) (same.symm ▸ inside.symm)
      rw [rest, same]
      exact ⟨⟨_, inside⟩, .inl inside.symm⟩
    · have rest : a.rest p = p := by simp [rest, Path.relativeTo?, same, within]
      rw [rest, same]
      exact ⟨List.suffix_refl _, .inr ⟨rfl, absolute⟩⟩
  · have joined : a.absolute p = a.projectRoot.join p := if_neg absolute
    by_cases empty : a.projectRoot.text = ""
    · have same : a.absolute p = p := by simp [joined, Path.join, empty]
      have none : a.projectRoot = ⟨""⟩ := by
        cases root : a.projectRoot
        simpa [root] using empty
      have inside : (a.absolute p).components = a.projectRoot.components ++ p.components := by
        rw [same, none]
        rfl
      rw [components_rest inside]
      exact ⟨List.suffix_refl _, .inl inside⟩
    · have inside := Path.components_join empty (p := p) (by simpa using absolute)
      rw [← joined] at inside
      rw [components_rest inside, Path.components_eq p]
      exact ⟨List.suffix_append _ _, .inl inside⟩

/-- A path means what is left of it means from the root of the project on. -/
theorem resolve_absolute (a : Archive) (p : Path) (current : Location) :
    (a.absolute p).resolve current = (a.rest p).resolve (a.projectRoot.resolve current) := by
  rcases (rest_cases a p).2 with inside | ⟨same, absolute⟩
  · rw [Path.resolve, inside, List.foldl_append]
    rfl
  · rw [same]
    exact Path.resolve_of_isAbsolute absolute _ _

theorem directoryNames_eq (a : Archive) (p : Path) :
    a.directoryNames p = (a.rest p).components.dropLast.filterMap Component.name? := by
  unfold directoryNames rest
  generalize ((a.absolute p).relativeTo? a.projectRoot).getD (a.absolute p) = q
  dsimp only
  cases parent : q.parent? with
  | none => rcases Path.components_of_no_parent parent with none | root <;> simp [*]
  | some r =>
    rw [← Path.components_parent parent]
    rfl

/-- A direct path is named as what is left of it is. -/
theorem Direct.last (direct : a.Direct p) :
    p.fileName? = some (baseOf p) ∧ (a.rest p).components.getLast? = some (.name (baseOf p)) := by
  obtain ⟨name, named⟩ := Option.isSome_iff_exists.mp direct.named
  have last := Path.fileName?_eq_some.mp named
  obtain ⟨front, whole⟩ := (rest_cases a p).1
  have named' : p.fileName? = some name := by
    rw [Path.fileName?_eq_some, ← whole, List.getLast?_append, last]
    rfl
  rw [Disk.Staged.baseOf_eq named']
  exact ⟨named', last⟩

theorem Direct.names (direct : a.Direct p) : (a.rest p).names = a.directoryNames p ++ [baseOf p] := by
  obtain ⟨front, split⟩ := List.getLast?_eq_some_iff.mp direct.last.2
  rw [Path.names, directoryNames_eq, split, List.dropLast_concat, List.filterMap_append]
  rfl

/-- What a direct path means is read off the names that its backups are kept by. -/
theorem Direct.resolve (direct : a.Direct p) (current : Location) : (a.absolute p).resolve current =
    (if (a.rest p).isAbsolute then [] else a.projectRoot.resolve current) ++
      (a.directoryNames p ++ [baseOf p]) := by
  rw [resolve_absolute, Path.resolve_eq direct.level, direct.names]

/-! ### Where backups lie -/

theorem isPlain_directoryNames (a : Archive) (p : Path) : ∀ name ∈ a.directoryNames p, IsPlain name := by
  intro name member
  rw [directoryNames_eq] at member
  obtain ⟨c, inside, shown⟩ := List.mem_filterMap.mp member
  obtain ⟨front, inner, whole, all, start⟩ := Path.components_cases (a.rest p)
  rw [whole] at inside
  cases c with
  | root | here | up => cases shown
  | name s =>
    cases shown
    rcases List.mem_append.mp (List.dropLast_subset _ inside) with first | later
    · rcases start with ⟨rfl, _⟩ | ⟨rfl | rfl, _⟩ <;> simp at first
    · exact all _ later

theorem resolve_directory (a : Archive) (place : Place) (p : Path) (current : Location) :
    (a.directory place p).resolve current = (a.rootOf place).resolve current ++ a.directoryNames p := by
  have plain := isPlain_directoryNames a p
  unfold directory
  generalize a.rootOf place = dir
  generalize a.directoryNames p = names at plain ⊢
  induction names generalizing dir with
  | nil => simp
  | cons name rest ih =>
    obtain ⟨first, others⟩ := List.forall_mem_cons.mp plain
    rw [List.foldl_cons, ih _ others, Path.resolve_join dir first, List.append_assoc]
    rfl

theorem directory_eq_iff : a.directory place p = a.directory place q ↔ a.directoryNames p = a.directoryNames q := by
  refine ⟨fun same => ?_, fun same => by rw [directory, directory, same]⟩
  have location := congrArg (Path.resolve []) same
  rw [resolve_directory, resolve_directory] at location
  exact List.append_cancel_left location

/-- A location that the path of a record of a file in a tree means. -/
def IsRecord (a : Archive) (current : Location) (place : Place) (p : Path) (l : Location) : Prop :=
  ∃ name read, parseName? (baseOf p) name = some read ∧
    l = ((a.directory place p).join ⟨name⟩).resolve current

/-- Neither tree lies in the other. -/
def Apart (a : Archive) (current : Location) : Prop :=
  ¬a.root.resolve current <+: a.alternateRoot.resolve current ∧
    ¬a.alternateRoot.resolve current <+: a.root.resolve current

theorem Apart.not_append {xs ys : List String} (apart : a.Apart current) (other : place ≠ place') :
    (a.rootOf place).resolve current ++ xs ≠ (a.rootOf place').resolve current ++ ys := by
  have clash : ∀ {r r' : List String}, ¬r <+: r' → ¬r' <+: r → r ++ xs ≠ r' ++ ys := by
    intro r r' left right same
    have either := List.prefix_or_prefix_of_prefix (List.prefix_append r xs) (same ▸ List.prefix_append r' ys)
    exact either.elim left right
  cases place <;> cases place'
  · exact absurd rfl other
  · exact clash apart.1 apart.2
  · exact clash apart.2 apart.1
  · exact absurd rfl other

section

variable (direct : a.Direct p) (direct' : a.Direct q) (side : (a.rest p).isAbsolute = (a.rest q).isAbsolute)

include direct direct' side

/-- Direct paths from one start share a key if and only if they mean the same. -/
theorem same_key_iff : (a.directory place p = a.directory place q ∧ p.fileName? = q.fileName?) ↔
    (a.absolute p).resolve current = (a.absolute q).resolve current := by
  rw [directory_eq_iff, direct.last.1, direct'.last.1, direct.resolve, direct'.resolve, side,
    List.append_cancel_left_eq, Option.some.injEq]
  constructor
  · rintro ⟨names, base⟩
    rw [names, base]
  · intro same
    obtain ⟨names, base⟩ := List.append_inj' same rfl
    exact ⟨names, List.singleton_inj.mp base⟩

/-- What is named for one file is no record of the other. -/
theorem not_isRecord {name : String} (plain : IsPlain name) (named : base? name = some (baseOf p).toList)
    (other : (a.absolute p).resolve current ≠ (a.absolute q).resolve current)
    (trees : place = place' ∨ a.Apart current) :
    ¬a.IsRecord current place' q (((a.directory place p).join ⟨name⟩).resolve current) := by
  rintro ⟨name', read, parsed, same⟩
  rw [Path.resolve_join _ plain, Path.resolve_join _ (isPlain_of_parseName? (Disk.Staged.not_slash_baseOf q) parsed),
    resolve_directory, resolve_directory] at same
  obtain ⟨ways, ends⟩ := List.append_inj' same rfl
  obtain rfl := List.singleton_inj.mp ends
  have base := named.symm.trans (base?_of_parseName? parsed)
  by_cases one : place = place'
  · subst one
    have same : a.directory place p = a.directory place q ∧ p.fileName? = q.fileName? := by
      refine ⟨directory_eq_iff.mpr (List.append_cancel_left ways), ?_⟩
      rw [direct.last.1, direct'.last.1, String.toList_injective (Option.some.inj base)]
    exact other ((same_key_iff direct direct' side).mp same)
  · exact (trees.resolve_left one).not_append one ways

end

/-! ### Work on the backups of another file -/

/-- The files among the records of a file in a tree are the same on both disks. -/
def Spares (a : Archive) (place : Place) (p : Path) (m n : Machine) : Prop :=
  ∀ l bytes, a.IsRecord m.files.current place p l →
    (n.files.get? l = some (.file bytes) ↔ m.files.get? l = some (.file bytes))

/-- Anything but the records of a file in a tree. -/
def sparing (a : Archive) (current : Location) (place : Place) (p : Path) : Scope where
  lose l := ¬a.IsRecord current place p l
  gain l _ := ¬a.IsRecord current place p l
  make _ := True

theorem spares_of_admits {m n : Machine} (admitted : (a.sparing m.files.current place p).Admits m n) :
    a.Spares place p m n := by
  intro l bytes record
  refine ⟨fun later => ?_, fun before => ?_⟩
  · exact (admitted.2.gained l bytes later).resolve_right (absurd record)
  · exact (admitted.2.kept l bytes before).resolve_right (absurd record)

theorem not_isRecord_of_isTemporary {base : String} (temporary : Disk.Staged.IsTemporary base l) :
    ¬a.IsRecord current place p l := by
  rintro ⟨name, read, parsed, rfl⟩
  have plain := isPlain_of_parseName? (Disk.Staged.not_slash_baseOf p) parsed
  rw [Path.resolve_join _ plain] at temporary
  exact not_isTemporary_of_parseName? parsed temporary

/-- Backups of a file are made and pruned without a touch to those of another one. -/
theorem sparing_covers {s : Nat} (fs : Files)
    (apart : ∀ name, IsPlain name → base? name = some (baseOf p).toList →
      ¬a.IsRecord fs.current place' q (((a.directory place p).join ⟨name⟩).resolve fs.current)) :
    Covers (a.sparing fs.current place' q) fs (a.directory place p) (baseOf p) s where
  replaces t hash bytes _ digest := by
    have slash := Disk.Staged.not_slash_baseOf p
    refine ⟨⟨fun l => not_isRecord_of_isTemporary, fun l _ => not_isRecord_of_isTemporary, fun _ _ => trivial⟩,
      fun gs d grows led => ?_⟩
    have place := Path.locate_resolve led
    have free := apart _ (isPlain_fileName (t := t) slash digest) (base?_fileName digest)
    rw [grows.1] at place
    rw [← backupPath, ← place] at free
    refine ⟨fun l same => ?_, fun l b both => ?_, fun _ => False.elim⟩
    · rw [same]
      exact free
    · rw [both.1]
      exact free
  prunes name read gs l grows parsed led := by
    have plain := isPlain_of_parseName? (Disk.Staged.not_slash_baseOf p) parsed
    have free := apart name plain (base?_of_parseName? parsed)
    rwa [← grows.1, ← Path.locate_resolve led, grows.1] at free

/-- The backup has the path of a record of the file in a tree. -/
def Listed (a : Archive) (p : Path) (place : Place) (i : Info) : Prop :=
  ∃ name, i.path = (a.directory place p).join ⟨name⟩ ∧ parseName? (baseOf p) name = some (i.timestamp, i.hash)

theorem scan_lists (m : Machine) : (scan (a.directory place p) (baseOf p)).run.Holds (fun _ => True)
    (fun r _ => ∀ infos, r = .ok infos → ∀ i ∈ infos, a.Listed p place i) m := by
  have steady : Disk.Steady fun _ => True := fun _ _ _ _ _ => trivial
  refine (scan_holds steady trivial).mono (fun _ => id) fun r _ _ scanned infos done i member => ?_
  rcases (scanned.2.2 infos done).1 with none | all
  · simp [none] at member
  · rw [all] at member
    exact name_of_found member

/-- Only records of a file are listed for it. -/
theorem list_holds (m : Machine) : (a.list p).run.Holds (fun _ => True)
    (fun r _ => ∀ infos, r = .ok infos → ∀ i ∈ infos, ∃ place, a.Listed p place i) m := by
  refine Disk.Job.holds_bind (Disk.Job.holds_ofExcept.mpr ⟨trivial, rfl⟩) ?_ (fun _ _ _ _ => nofun)
    (Q := fun r _ => r = nameOf p)
  intro base n _ named
  obtain rfl := Disk.Staged.baseOf_eq (fileName?_of_nameOf named.symm)
  refine Disk.Job.holds_bind (scan_lists n) ?_ (fun _ _ _ _ => nofun)
  intro primary n _ first
  refine Disk.Job.holds_bind (scan_lists n) ?_ (fun _ _ _ _ => nofun)
  intro alternate n _ second
  refine Disk.Job.holds_pure.mpr ⟨trivial, fun infos done i member => ?_⟩
  cases done
  rcases List.mem_append.mp (List.mem_mergeSort.mp member) with early | late
  · exact ⟨_, first primary rfl i early⟩
  · exact ⟨_, second alternate rfl i late⟩

/-- Backups are kept by what a path means, as far as names alone lead there from one start. Work on the
backups of one file then spares those of another, and none of those is listed for it: in one tree, and in
different trees if they lie apart. -/
theorem keys_tell_apart (a : Archive) (place place' : Place) (p q : Path) (m : Machine)
    (direct : a.Direct p) (direct' : a.Direct q) (side : (a.rest p).isAbsolute = (a.rest q).isAbsolute)
    (wf : m.files.WellFormed) (tidy : m.environment.Tidy) :
    ((a.directory place p = a.directory place q ∧ p.fileName? = q.fileName?) ↔
      (a.absolute p).resolve m.files.current = (a.absolute q).resolve m.files.current) ∧
    ((a.absolute p).resolve m.files.current ≠ (a.absolute q).resolve m.files.current →
      (place = place' ∨ a.Apart m.files.current →
        (∀ operation s, Dated.Holds (a.Spares place' q m) (fun _ _ _ => True) (a.create place p operation) s m) ∧
        (a.prune (a.directory place p) (baseOf p)).run.Holds (a.Spares place' q m) (fun _ _ => True) m) ∧
      ∀ infos n, (a.list p).run.run m = (.ok infos, n) → ∀ i ∈ infos, ∃ place,
        a.IsRecord m.files.current place p (i.path.resolve m.files.current) ∧
        ∀ place', place = place' ∨ a.Apart m.files.current →
          ¬a.IsRecord m.files.current place' q (i.path.resolve m.files.current)) := by
  refine ⟨same_key_iff direct direct' side, fun other => ⟨fun trees => ?_, ?_⟩⟩
  · have covers : ∀ s, Covers (a.sparing m.files.current place' q) m.files (a.directory place p) (baseOf p) s :=
      fun s => sparing_covers m.files fun name plain named => not_isRecord direct direct' side plain named other trees
    refine ⟨fun operation s => ?_, ?_⟩
    · exact Dated.holds_mono (create_holds_within (covers s) wf tidy) (fun _ => spares_of_admits)
        fun _ _ _ _ _ => trivial
    · exact (prune_holds_within (covers 0).prunes wf).mono (fun _ => spares_of_admits) fun _ _ _ _ => trivial
  · intro infos n ran i member
    have listed := (list_holds (a := a) (p := p) m).run
    rw [ran] at listed
    obtain ⟨place, name, path, parsed⟩ := listed.2 infos rfl i member
    have plain := isPlain_of_parseName? (Disk.Staged.not_slash_baseOf p) parsed
    refine ⟨place, ⟨name, _, parsed, by rw [path]⟩, fun place' trees => ?_⟩
    rw [path]
    exact not_isRecord direct direct' side plain (base?_of_parseName? parsed) other trees

open Pipeline (smallArchive smallMachine stillness)

theorem keys_tell_apart_small :
    smallArchive.Direct ⟨"/a.json"⟩ ∧ smallArchive.Direct ⟨"b.json"⟩ ∧
    (smallArchive.rest ⟨"/a.json"⟩).isAbsolute = (smallArchive.rest ⟨"b.json"⟩).isAbsolute ∧
    (smallMachine "a.json" "1").files.WellFormed ∧ (smallMachine "a.json" "1").environment.Tidy ∧
    (smallArchive.absolute ⟨"/a.json"⟩).resolve [] ≠ (smallArchive.absolute ⟨"b.json"⟩).resolve [] ∧
    Dated.Holds (smallArchive.Spares .primary ⟨"b.json"⟩ (smallMachine "a.json" "1")) (fun _ _ _ => True)
      (smallArchive.create .primary ⟨"/a.json"⟩ "manual") 0 (smallMachine "a.json" "1") := by
  have direct : smallArchive.Direct ⟨"/a.json"⟩ := ⟨by decide +kernel, by decide +kernel⟩
  have direct' : smallArchive.Direct ⟨"b.json"⟩ := ⟨by decide +kernel, by decide +kernel⟩
  have side : (smallArchive.rest ⟨"/a.json"⟩).isAbsolute = (smallArchive.rest ⟨"b.json"⟩).isAbsolute := by
    decide +kernel
  have other : (smallArchive.absolute ⟨"/a.json"⟩).resolve [] ≠ (smallArchive.absolute ⟨"b.json"⟩).resolve [] := by
    decide +kernel
  have wf : (smallMachine "a.json" "1").files.WellFormed := Pipeline.smallMachine_wellFormed
  have tidy : (smallMachine "a.json" "1").environment.Tidy := Pipeline.stillness_calm.tidy
  have law := keys_tell_apart smallArchive .primary .primary ⟨"/a.json"⟩ ⟨"b.json"⟩
    (smallMachine "a.json" "1") direct direct' side wf tidy
  exact ⟨direct, direct', side, wf, tidy, other, ((law.2 other).1 (.inl rfl)).1 "manual" 0⟩

/-- A machine with two files of one name and a backup of that in a directory. -/
def namesakes : Machine where
  files := ⟨[(["sub"], .directory), (["sub", "a.js"], .file "1".toUTF8), (["a.js"], .file "2".toUTF8),
    (["sub", "a.js.1.65cd25028f98f158"], .file "0".toUTF8)], []⟩
  environment := stillness

theorem namesakes_wellFormed : namesakes.files.WellFormed :=
  .of_nodes (by decide) (by decide) rfl

/-- Two files of one key: the backup of one is listed for the other, and gone after a backup of that. -/
theorem key_shared :
    let a := { smallArchive with cap := 1 }
    let made := ((a.create .primary ⟨"sub/a.js"⟩ "manual").run.run 0).run namesakes
    let listed := (a.list ⟨"sub/../a.js"⟩).run.run namesakes
    let other := ((a.create .primary ⟨"sub/../a.js"⟩ "manual").run.run 1).run namesakes
    namesakes.files.WellFormed ∧ namesakes.environment.Calm ∧
    (a.absolute ⟨"sub/a.js"⟩).resolve [] = ["sub", "a.js"] ∧
    (a.absolute ⟨"sub/../a.js"⟩).resolve [] = ["a.js"] ∧
    a.directory .primary ⟨"sub/a.js"⟩ = a.directory .primary ⟨"sub/../a.js"⟩ ∧
    (⟨"sub/a.js"⟩ : Path).fileName? = (⟨"sub/../a.js"⟩ : Path).fileName? ∧
    made.1.1.toOption.map (·.path) = some ⟨"/sub/a.js.1.65cd25028f98f158"⟩ ∧
    (listed.1.toOption.map fun infos => infos.map (·.path)) = some [⟨"/sub/a.js.1.65cd25028f98f158"⟩] ∧
    other.1.1.toOption.map (fun _ => other.2.files.kindAt ⟨"/sub/a.js.1.65cd25028f98f158"⟩) = some none := by
  refine ⟨namesakes_wellFormed, Pipeline.stillness_calm, by decide +kernel, by decide +kernel, by decide +kernel,
    by decide +kernel, ?made, ?listed, ?other⟩
  case listed =>
    unfold Archive.list
    simp only [Pipeline.newestFirst_eq]
    decide +kernel
  all_goals
    unfold Archive.create Archive.prune
    simp only [Pipeline.newestFirst_eq]
    decide +kernel

end Archive

end SourceRepair.Backup
