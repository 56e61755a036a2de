import Mathlib.Data.List.Nodup
import Mathlib.Data.List.Perm.Lattice
import SourceRepair.Proofs.Backup.Archive

/-!
# Which backups are kept

Pruning keeps the newest backups of a file. So the first backup of a run stays as long as the run makes
no more than the archive keeps, and then goes for good: `Fate.step` says what one more backup does.
-/

namespace SourceRepair.Backup

open Disk (Files Location Machine Scope Environment)
open Disk.Staged (Landed baseOf temporaryName)
open Path (IsPlain)

/-! ### Lists of backups -/

section

variable {xs : List Info} {x i : Info} {c : Nat}

/-- In a list with the newest first, a backup is behind as many as are newer. -/
theorem mem_drop_iff (sorted : xs.Pairwise fun i j => j.timestamp ≤ i.timestamp) (nodup : xs.Nodup)
    (member : x ∈ xs) (unique : ∀ i ∈ xs, i.timestamp = x.timestamp → i = x) :
    x ∈ xs.drop c ↔ c ≤ (xs.filter fun i => x.timestamp < i.timestamp).length := by
  obtain ⟨front, back, rfl⟩ := List.append_of_mem member
  obtain ⟨_, sortedBack, before⟩ := List.pairwise_append.mp sorted
  obtain ⟨_, nodupBack, apart⟩ := List.nodup_append.mp nodup
  have newer : ∀ i ∈ front, x.timestamp < i.timestamp := by
    intro i inside
    have le := before i inside x List.mem_cons_self
    have other : i.timestamp ≠ x.timestamp := fun same =>
      apart i inside x List.mem_cons_self (unique i (List.mem_append_left _ inside) same)
    omega
  have older : ∀ i ∈ x :: back, ¬x.timestamp < i.timestamp := by
    intro i inside
    rcases List.mem_cons.mp inside with rfl | inside
    · omega
    · have le := (List.pairwise_cons.mp sortedBack).1 i inside
      omega
  have only : ((front ++ x :: back).filter fun i => x.timestamp < i.timestamp) = front := by
    rw [List.filter_append, List.filter_eq_self.mpr (by simpa using newer),
      List.filter_eq_nil_iff.mpr (by simpa using older), List.append_nil]
  rw [only]
  by_cases few : c ≤ front.length
  · rw [List.drop_append_of_le_length few]
    simp [few]
  · have past : (front ++ x :: back).drop c = back.drop (c - front.length - 1) := by
      rw [List.drop_append, List.drop_eq_nil_of_le (by omega), List.nil_append]
      obtain ⟨k, split⟩ : ∃ k, c - front.length = k + 1 := ⟨c - front.length - 1, by omega⟩
      rw [split, List.drop_succ_cons, Nat.add_sub_cancel]
    have gone : x ∉ back := (List.nodup_cons.mp nodupBack).1
    rw [past]
    exact ⟨fun inside => absurd (List.mem_of_mem_drop inside) gone, fun le => absurd le few⟩

/-- What is newer than something that is kept is kept. -/
theorem not_mem_drop_of_newer (sorted : xs.Pairwise fun i j => j.timestamp ≤ i.timestamp)
    (member : x ∈ xs) (kept : x ∉ xs.drop c) (newer : x.timestamp < i.timestamp) : i ∉ xs.drop c := by
  intro inside
  rw [← List.take_append_drop c xs] at sorted member
  have early := (List.mem_append.mp member).resolve_right kept
  have le := (List.pairwise_append.mp sorted).2.2 x early i inside
  omega

end

namespace Archive

variable {fs gs : Files} {dir : Path} {base name hash : String} {dl l : Location} {i : Info} {t : Nat}

theorem sorted_newestFirst (infos : List Info) :
    (newestFirst infos).Pairwise fun i j => j.timestamp ≤ i.timestamp := by
  have sorted : (newestFirst infos).Pairwise fun i j => decide (j.timestamp ≤ i.timestamp) = true :=
    List.pairwise_mergeSort (by simp only [decide_eq_true_eq]; omega) (by simp; omega) infos
  exact sorted.imp fun le => by simpa using le

/-! ### What is found -/

theorem mem_namesIn : name ∈ fs.namesIn l ↔ ∃ node, fs.get? (l ++ [name]) = some node := by
  rw [Files.get?_of_ne_nil (by simp)]
  constructor
  · intro member
    obtain ⟨⟨key, node⟩, inside, shown⟩ := List.mem_filterMap.mp member
    dsimp only at shown
    split at shown
    · rename_i parent
      obtain ⟨front, rfl⟩ := List.getLast?_eq_some_iff.mp shown
      obtain rfl : front = l := by simpa using parent
      cases found : fs.nodes.lookup (front ++ [name]) with
      | some node => exact ⟨node, rfl⟩
      | none =>
        have other := List.lookup_eq_none_iff.mp found _ inside
        simp at other
    · cases shown
  · rintro ⟨node, found⟩
    obtain ⟨front, back, split, _⟩ := List.lookup_eq_some_iff.mp found
    refine List.mem_filterMap.mpr ⟨(l ++ [name], node), by simp [split], ?_⟩
    simp

theorem nodup_namesIn (wf : fs.WellFormed) : (fs.namesIn l).Nodup := by
  have keys : fs.namesIn l =
      (fs.nodes.map Prod.fst).filterMap fun m => if m.dropLast == l then m.getLast? else none := by
    rw [List.filterMap_map]
    rfl
  rw [keys]
  refine List.Nodup.filterMap (fun m m' piece named named' => ?_) wf.unique
  rw [Option.mem_def] at named named'
  split at named
  · split at named'
    · rename_i parent parent'
      obtain ⟨front, rfl⟩ := List.getLast?_eq_some_iff.mp named
      obtain ⟨front', rfl⟩ := List.getLast?_eq_some_iff.mp named'
      obtain rfl : front = l := by simpa using parent
      obtain rfl : front' = front := by simpa using parent'
      rfl
    · cases named'
  · cases named

theorem list_ok {names : List String} : fs.list dir = .ok names ↔
    ∃ dl, fs.find dir = .ok (dl, .directory) ∧ names = fs.namesIn dl := by
  unfold Files.list
  cases there : fs.find dir with
  | error fault => simp [bind, Except.bind]
  | ok entry =>
    obtain ⟨l, node⟩ := entry
    cases node <;> simp [bind, Except.bind, pure, Except.pure, eq_comm]

/-- Backups are found in directories alone. -/
theorem directory_of_found (listed : i ∈ found fs dir base) : ∃ dl, fs.find dir = .ok (dl, .directory) := by
  unfold found at listed
  split at listed
  · rename_i names shown
    obtain ⟨dl, there, _⟩ := list_ok.mp shown
    exact ⟨dl, there⟩
  · cases listed

/-- What is known of a backup from its name. -/
def infoAt (dir : Path) (name : String) (read : Nat × String) : Info := ⟨dir.join ⟨name⟩, read.1, read.2⟩

theorem mem_found (there : fs.find dir = .ok (dl, .directory)) : i ∈ found fs dir base ↔
    ∃ name read, parseName? base name = some read ∧ (∃ node, fs.get? (dl ++ [name]) = some node) ∧
      i = infoAt dir name read := by
  rw [found, list_ok.mpr ⟨dl, there, rfl⟩]
  simp only [List.mem_filterMap, mem_namesIn, Option.map_eq_some_iff]
  constructor
  · rintro ⟨name, node, read, parsed, rfl⟩
    exact ⟨name, read, parsed, node, rfl⟩
  · rintro ⟨name, read, parsed, node, rfl⟩
    exact ⟨name, node, read, parsed, rfl⟩

/-- The path of a backup tells its name. -/
theorem infoAt_inj {name' : String} {read read' : Nat × String} (plain : '/' ∉ base.toList)
    (parsed : parseName? base name = some read) (parsed' : parseName? base name' = some read')
    (same : infoAt dir name read = infoAt dir name' read') : name = name' := by
  have path : dir.join ⟨name⟩ = dir.join ⟨name'⟩ := congrArg Info.path same
  have pieces := congrArg Files.piecesOf path
  rw [Path.piecesOf_join dir (isPlain_of_parseName? plain parsed),
    Path.piecesOf_join dir (isPlain_of_parseName? plain parsed')] at pieces
  exact List.singleton_inj.mp (List.append_inj_right' pieces rfl)

theorem nodup_found (plain : '/' ∉ base.toList) (wf : fs.WellFormed) : (found fs dir base).Nodup := by
  unfold found
  split
  · rename_i names listed
    obtain ⟨dl, _, rfl⟩ := list_ok.mp listed
    refine List.Nodup.filterMap (fun name name' i shown shown' => ?_) (nodup_namesIn wf)
    obtain ⟨read, parsed, rfl⟩ := Option.map_eq_some_iff.mp shown
    obtain ⟨read', parsed', same⟩ := Option.map_eq_some_iff.mp shown'
    exact infoAt_inj plain parsed parsed' same.symm
  · exact List.nodup_nil

/-! ### Removing -/

theorem grows_of_remove {p : Path} (done : fs.remove p = .ok gs) :
    fs.Grows gs ∧ gs.Grows fs ∧ ∃ k, fs.locate p = .ok k ∧ gs.get? k = none ∧
      ∀ l, l ≠ k → gs.get? l = fs.get? l := by
  obtain ⟨k, old, found, rfl⟩ := Files.remove_ok.mp done
  obtain ⟨led, file, _⟩ := Files.find_ok.mp found
  have inner := Files.ne_nil_of_file file
  refine ⟨⟨rfl, fun l directory => ?_⟩, ⟨rfl, fun l directory => ?_⟩, k, led, Files.get?_erase_same inner,
    fun l other => Files.get?_erase_other other⟩
  · have other : l ≠ k := by
      rintro rfl
      simp [file] at directory
    rwa [Files.get?_erase_other other]
  · have other : l ≠ k := by
      rintro rfl
      simp [Files.get?_erase_same inner] at directory
    rwa [Files.get?_erase_other other] at directory

/-- Removing files removes what their paths lead to and nothing else. -/
theorem get?_of_removeAll {ps : List Path} (done : ps.foldlM Files.remove fs = .ok gs) :
    (∀ p ∈ ps, ∃ l, fs.locate p = .ok l ∧ gs.get? l = none) ∧
      ∀ l, (∀ p ∈ ps, fs.locate p ≠ .ok l) → gs.get? l = fs.get? l := by
  induction ps generalizing fs with
  | nil =>
    cases done
    exact ⟨nofun, fun _ _ => rfl⟩
  | cons p rest ih =>
    rw [List.foldlM_cons] at done
    cases removed : fs.remove p with
    | error fault =>
      rw [removed] at done
      cases done
    | ok hs =>
      rw [removed] at done
      obtain ⟨grows, back, k, led, none, others⟩ := grows_of_remove removed
      obtain ⟨gone, stays⟩ := ih done
      refine ⟨fun q member => ?_, fun l away => ?_⟩
      · rcases List.mem_cons.mp member with rfl | member
        · refine ⟨k, led, ?_⟩
          by_cases again : ∃ q ∈ rest, hs.locate q = .ok k
          · obtain ⟨q, inside, led'⟩ := again
            obtain ⟨l, led'', gone⟩ := gone q inside
            cases led'.symm.trans led''
            exact gone
          · rw [stays k fun q inside led' => again ⟨q, inside, led'⟩, none]
        · obtain ⟨l, led', gone⟩ := gone q member
          exact ⟨l, back.locate led', gone⟩
      · have other : l ≠ k := fun same => away p List.mem_cons_self (same ▸ led)
        rw [stays l fun q inside led' => away q (List.mem_cons_of_mem _ inside) (back.locate led'),
          others l other]

/-- The same of backups that were found, by their names. -/
theorem get?_of_removed {infos : List Info} {read : Nat × String} (full : dir.text ≠ "")
    (plain : '/' ∉ base.toList) (there : fs.find dir = .ok (dl, .directory))
    (listed : ∀ i ∈ infos, i ∈ found fs dir base)
    (removed : (infos.map (·.path)).foldlM Files.remove fs = .ok gs)
    (parsed : parseName? base name = some read) :
    (infoAt dir name read ∈ infos → gs.get? (dl ++ [name]) = none) ∧
    (infoAt dir name read ∉ infos → gs.get? (dl ++ [name]) = fs.get? (dl ++ [name])) := by
  obtain ⟨gone, stays⟩ := get?_of_removeAll removed
  have led := (Files.find_ok.mp there).1
  have leads : ∀ name' l, IsPlain name' → fs.locate (dir.join ⟨name'⟩) = .ok l → l = dl ++ [name'] := by
    intro name' l plain' led'
    obtain ⟨d, led'', _, _, same⟩ := (Files.locate_join full plain').mp led'
    cases led.symm.trans led''
    exact same
  have plain' := isPlain_of_parseName? plain parsed
  refine ⟨fun member => ?_, fun other => stays _ fun p inside led' => ?_⟩
  · obtain ⟨l, led', none⟩ := gone _ (List.mem_map_of_mem member)
    rwa [leads name l plain' led'] at none
  · obtain ⟨j, behind, rfl⟩ := List.mem_map.mp inside
    obtain ⟨name', read', parsed', _, rfl⟩ := (mem_found there).mp (listed j behind)
    have same := leads name' _ (isPlain_of_parseName? plain parsed') led'
    obtain rfl := List.singleton_inj.mp (List.append_inj_right' same rfl)
    cases parsed.symm.trans parsed'
    exact other behind

/-- The backups that pruning removes. -/
def dropped (a : Archive) (fs : Files) (dir : Path) (base : String) : List Info :=
  if a.cap = 0 then [] else (newestFirst (found fs dir base)).drop a.cap

theorem mem_found_of_drop {c : Nat} (behind : i ∈ (newestFirst (found fs dir base)).drop c) :
    i ∈ found fs dir base := List.mem_mergeSort.mp (List.mem_of_mem_drop behind)

variable {a : Archive} {m n k : Machine} {read : Nat × String}

/-- Without faults pruning removes those and nothing else. -/
theorem Pruned.get? (pruned : Pruned a dir base m n) (healthy : ∀ i, m.environment.fault i = none)
    (full : dir.text ≠ "") (plain : '/' ∉ base.toList) (there : m.files.find dir = .ok (dl, .directory))
    (parsed : parseName? base name = some read) :
    (infoAt dir name read ∈ a.dropped m.files dir base → n.files.get? (dl ++ [name]) = none) ∧
    (infoAt dir name read ∉ a.dropped m.files dir base →
      n.files.get? (dl ++ [name]) = m.files.get? (dl ++ [name])) := by
  obtain ⟨_, rest⟩ := pruned
  unfold dropped
  split at rest
  · rename_i all
    rw [if_pos all]
    exact ⟨nofun, fun _ => by rw [rest]⟩
  · rename_i capped
    rw [if_neg capped]
    obtain ⟨infos, _, exactly, removed⟩ := rest
    obtain rfl := exactly healthy
    exact get?_of_removed full plain there (fun i behind => mem_found_of_drop behind) removed parsed

/-! ### The first backup of a run -/

/-- Whatever has a name of a backup on the disk is dated before all that is handed out later. -/
def Past (e : Environment) (s : Nat) (base : String) (fs : Files) : Prop :=
  ∀ d name read node, fs.get? (d ++ [name]) = some node → parseName? base name = some read →
    ∀ t, Dates e s t → read.1 < t

/-- No directory on the disk has a name of a backup or of a temporary file. -/
def Unobstructed (base : String) (fs : Files) : Prop :=
  ∀ d name, fs.get? (d ++ [name]) = some .directory →
    parseName? base name = none ∧ ∀ nonce, name ≠ temporaryName base nonce

theorem Unobstructed.of_grows (unobstructed : Unobstructed base gs) (grows : fs.Grows gs) :
    Unobstructed base fs :=
  fun d name directory => unobstructed d name (grows.2 _ directory)

/-- The backup with this name is there, and so many are newer. -/
structure Present (dir : Path) (base : String) (dl : Location) (name : String) (read : Nat × String)
    (bytes : ByteArray) (count : Nat) (fs : Files) : Prop where
  file : fs.get? (dl ++ [name]) = some (.file bytes)
  newer : ((found fs dir base).filter fun i => read.1 < i.timestamp).length = count
  unique : ∀ i ∈ found fs dir base, i.timestamp = read.1 → i = infoAt dir name read

/-- A backup stays as long as fewer are newer than the archive keeps, and then goes for good. -/
inductive Fate (cap : Nat) (dir : Path) (base : String) (dl : Location) (name : String)
    (read : Nat × String) (bytes : ByteArray) (count : Nat) (fs : Files) : Prop
  | kept (few : cap = 0 ∨ count < cap) (present : Present dir base dl name read bytes count fs)
  | lost (many : cap ≠ 0 ∧ cap ≤ count) (gone : ∀ b, fs.get? (dl ++ [name]) ≠ some (.file b))

variable {bytes bytes' : ByteArray} {count s : Nat}

/-- The same backups are found where the same names are taken. -/
theorem perm_of_mem_iff {p : Info → Bool} (plain : '/' ∉ base.toList) (wf : fs.WellFormed)
    (wf' : gs.WellFormed) (same : ∀ i, p i = true → (i ∈ found gs dir base ↔ i ∈ found fs dir base)) :
    ((found gs dir base).filter p).length = ((found fs dir base).filter p).length := by
  have perm : ((found gs dir base).filter p).Perm ((found fs dir base).filter p) := by
    refine (List.perm_ext_iff_of_nodup ((nodup_found plain wf').filter p)
      ((nodup_found plain wf).filter p)).mpr fun i => ?_
    rw [List.mem_filter, List.mem_filter]
    exact and_congr_left fun fine => same i fine
  exact perm.length_eq

theorem mem_found_of_pruned (pruned : Pruned a dir base m n)
    (healthy : ∀ i, m.environment.fault i = none) (full : dir.text ≠ "") (plain : '/' ∉ base.toList)
    (there : m.files.find dir = .ok (dl, .directory)) :
    i ∈ found n.files dir base ↔ i ∈ found m.files dir base ∧ i ∉ a.dropped m.files dir base := by
  have there' := pruned.1.2.grows.find there
  rw [mem_found there, mem_found there']
  constructor
  · rintro ⟨name, read, parsed, ⟨node, taken⟩, rfl⟩
    obtain ⟨gone, stays⟩ := pruned.get? healthy full plain there parsed
    have kept : infoAt dir name read ∉ a.dropped m.files dir base := by
      intro inside
      cases taken.symm.trans (gone inside)
    exact ⟨⟨name, read, parsed, ⟨node, stays kept ▸ taken⟩, rfl⟩, kept⟩
  · rintro ⟨⟨name, read, parsed, ⟨node, taken⟩, rfl⟩, kept⟩
    obtain ⟨_, stays⟩ := pruned.get? healthy full plain there parsed
    exact ⟨name, read, parsed, ⟨node, (stays kept).trans taken⟩, rfl⟩

theorem mem_dropped_iff (plain : '/' ∉ base.toList) (wf : fs.WellFormed) (listed : i ∈ found fs dir base)
    (unique : ∀ j ∈ found fs dir base, j.timestamp = i.timestamp → j = i) :
    i ∈ a.dropped fs dir base ↔
      a.cap ≠ 0 ∧ a.cap ≤ ((found fs dir base).filter fun j => i.timestamp < j.timestamp).length := by
  have perm : (newestFirst (found fs dir base)).Perm (found fs dir base) := List.mergeSort_perm _ _
  unfold dropped
  split
  · rename_i all
    simp [all]
  · rename_i capped
    rw [mem_drop_iff (sorted_newestFirst _) (perm.nodup_iff.mpr (nodup_found plain wf))
      (perm.mem_iff.mpr listed) fun j inside => unique j (perm.mem_iff.mp inside),
      (perm.filter _).length_eq]
    exact ⟨fun many => ⟨capped, many⟩, And.right⟩

theorem not_mem_dropped_of_newer {j : Info} (listed : i ∈ found fs dir base)
    (kept : i ∉ a.dropped fs dir base) (newer : i.timestamp < j.timestamp) :
    j ∉ a.dropped fs dir base := by
  have perm : (newestFirst (found fs dir base)).Perm (found fs dir base) := List.mergeSort_perm _ _
  unfold dropped at kept ⊢
  split at kept
  · rename_i all
    simp [all]
  · rename_i capped
    rw [if_neg capped]
    exact not_mem_drop_of_newer (sorted_newestFirst _) (perm.mem_iff.mpr listed) kept newer

/-- What pruning does to a backup depends on how many are newer. -/
theorem Present.prune (present : Present dir base dl name read bytes count m.files)
    (pruned : Pruned a dir base m n) (healthy : ∀ i, m.environment.fault i = none)
    (full : dir.text ≠ "") (plain : '/' ∉ base.toList) (wf : m.files.WellFormed)
    (there : m.files.find dir = .ok (dl, .directory)) (parsed : parseName? base name = some read) :
    Fate a.cap dir base dl name read bytes count n.files := by
  obtain ⟨file, newer, unique⟩ := present
  obtain ⟨gone, stays⟩ := pruned.get? healthy full plain there parsed
  have listed : infoAt dir name read ∈ found m.files dir base :=
    (mem_found there).mpr ⟨name, read, parsed, ⟨_, file⟩, rfl⟩
  have behind := mem_dropped_iff (a := a) plain wf listed unique
  have later : ((found m.files dir base).filter fun j =>
      (infoAt dir name read).timestamp < j.timestamp).length = count := newer
  rw [later] at behind
  by_cases few : a.cap = 0 ∨ count < a.cap
  · have kept := mt behind.mp (by omega)
    refine .kept few ⟨(stays kept).trans file, ?_, fun i inside => ?_⟩
    · rw [← newer]
      refine perm_of_mem_iff plain wf (pruned.1.2.sound wf) fun i later => ?_
      rw [mem_found_of_pruned pruned healthy full plain there, and_iff_left_iff_imp]
      exact fun _ => not_mem_dropped_of_newer listed kept (of_decide_eq_true later)
    · exact unique i ((mem_found_of_pruned pruned healthy full plain there).mp inside).1
  · have lost := behind.mpr (by omega)
    refine .lost (by omega) fun b found => ?_
    cases found.symm.trans (gone lost)

/-- No temporary file has a name of a backup. -/
theorem not_isTemporary_of_parseName? {base' : String} (parsed : parseName? base name = some read) :
    ¬Disk.Staged.IsTemporary base' (l ++ [name]) := by
  rintro ⟨d, nonce, _, same⟩
  obtain rfl := List.singleton_inj.mp (List.append_inj_right' same rfl)
  rw [parseName?_temporaryName] at parsed
  cases parsed

/-- Content that comes to a target leaves the backups with other names alone. -/
theorem get?_of_landed {target : Path} (landed : Landed m target bytes k)
    (free : Unobstructed base k.files) (parsed : parseName? base name = some read)
    (other : name ≠ baseOf target) : k.files.get? (l ++ [name]) = m.files.get? (l ++ [name]) := by
  obtain ⟨_, d, _, _, admitted⟩ := landed
  have away : l ++ [name] ≠ d ++ [baseOf target] :=
    fun same => other (List.singleton_inj.mp (List.append_inj_right' same rfl))
  have settled : ¬Disk.Staged.IsTemporary (baseOf target) (l ++ [name]) :=
    not_isTemporary_of_parseName? parsed
  refine admitted.2.get?_eq (fun directory => ?_) (Or.rec settled away) fun b => Or.rec settled fun both => ?_
  · cases parsed.symm.trans (free l name directory).1
  · exact away both.1

/-- A backup that is newer than all others of its name on the disk is put beside them. -/
structure Arrives (dir : Path) (base : String) (t : Nat) (hash : String) (bytes : ByteArray)
    (m k : Machine) : Prop where
  full : dir.text ≠ ""
  plain : '/' ∉ base.toList
  digest : IsDigest hash
  fits : t < 2 ^ 64
  sound : m.files.WellFormed
  landed : Landed m (backupPath dir base t hash) bytes k
  free : Unobstructed base k.files
  latest : ∀ d name read node, m.files.get? (d ++ [name]) = some node → parseName? base name = some read →
    read.1 < t

namespace Arrives

variable {hash : String} (arrives : Arrives dir base t hash bytes m k)

include arrives

theorem parsed : parseName? base (fileName base t hash) = some (t, hash) :=
  parseName?_fileName base arrives.fits arrives.digest

theorem admits : ∃ s : Scope, s.Admits m k := by
  obtain ⟨_, d, _, _, admitted⟩ := arrives.landed
  exact ⟨_, admitted⟩

/-- The new backup leaves the others alone. -/
theorem get?_eq (parsed : parseName? base name = some read) (other : name ≠ fileName base t hash) :
    k.files.get? (l ++ [name]) = m.files.get? (l ++ [name]) := by
  refine get?_of_landed arrives.landed arrives.free parsed ?_
  rwa [baseOf_backupPath arrives.plain arrives.digest]

/-- The new backup lies in its directory. -/
theorem find : ∃ dl, k.files.find dir = .ok (dl, .directory) ∧
    k.files.locate (backupPath dir base t hash) = .ok (dl ++ [fileName base t hash]) ∧
    k.files.get? (dl ++ [fileName base t hash]) = some (.file bytes) := by
  obtain ⟨_, d, _, found, _⟩ := arrives.landed
  obtain ⟨led, file, _⟩ := Files.find_ok.mp found
  obtain ⟨dl, led', directory, _, same⟩ :=
    (Files.locate_join arrives.full (isPlain_fileName arrives.plain arrives.digest)).mp led
  rw [same] at led file
  exact ⟨dl, Files.find_ok.mpr ⟨led', directory, fun no => absurd rfl no⟩, led, file⟩

/-- No other name tells the timestamp of the new backup. -/
theorem ne_fileName {node : Disk.Node} (taken : m.files.get? (dl ++ [name]) = some node)
    (parsed : parseName? base name = some read) : name ≠ fileName base t hash := by
  rintro rfl
  have less := arrives.latest dl _ read node taken parsed
  cases parsed.symm.trans arrives.parsed
  exact Nat.lt_irrefl t less

/-- A first backup is newer than all others. -/
theorem present (there : k.files.find dir = .ok (dl, .directory))
    (file : k.files.get? (dl ++ [fileName base t hash]) = some (.file bytes)) :
    Present dir base dl (fileName base t hash) (t, hash) bytes 0 k.files := by
  have older : ∀ i ∈ found k.files dir base, i = infoAt dir (fileName base t hash) (t, hash) ∨
      i.timestamp < t := by
    intro i inside
    obtain ⟨name, read, parsed, ⟨node, taken⟩, rfl⟩ := (mem_found there).mp inside
    by_cases same : name = fileName base t hash
    · subst same
      cases parsed.symm.trans arrives.parsed
      exact .inl rfl
    · rw [arrives.get?_eq parsed same] at taken
      exact .inr (arrives.latest dl name read node taken parsed)
  refine ⟨file, ?_, fun i inside same => (older i inside).resolve_right fun less => by
    dsimp only at same
    omega⟩
  rw [List.length_eq_zero_iff, List.filter_eq_nil_iff]
  intro i inside later
  rcases older i inside with rfl | less
  · simp [infoAt] at later
  · simp only [decide_eq_true_eq] at later
    omega

theorem there (there : m.files.find dir = .ok (dl, .directory)) :
    k.files.find dir = .ok (dl, .directory) := by
  obtain ⟨_, admitted⟩ := arrives.admits
  exact admitted.2.grows.find there

/-- What is found with a new backup. -/
theorem found (there : m.files.find dir = .ok (dl, .directory)) :
    (found k.files dir base).Perm
      (infoAt dir (fileName base t hash) (t, hash) :: Archive.found m.files dir base) := by
  have there' := arrives.there there
  have wf' : k.files.WellFormed := by
    obtain ⟨_, admitted⟩ := arrives.admits
    exact admitted.2.sound arrives.sound
  obtain ⟨dl', there'', _, made⟩ := arrives.find
  cases there'.symm.trans there''
  have new : infoAt dir (fileName base t hash) (t, hash) ∉ Archive.found m.files dir base := by
    intro inside
    obtain ⟨name, read, parsed, ⟨node, taken⟩, same⟩ := (mem_found there).mp inside
    exact arrives.ne_fileName taken parsed (infoAt_inj arrives.plain arrives.parsed parsed same).symm
  refine (List.perm_ext_iff_of_nodup (nodup_found arrives.plain wf')
    (List.nodup_cons.mpr ⟨new, nodup_found arrives.plain arrives.sound⟩)).mpr fun i => ?_
  rw [List.mem_cons, mem_found there, mem_found there']
  constructor
  · rintro ⟨name, read, parsed, ⟨node, taken⟩, rfl⟩
    by_cases same : name = fileName base t hash
    · subst same
      cases parsed.symm.trans arrives.parsed
      exact .inl rfl
    · rw [arrives.get?_eq parsed same] at taken
      exact .inr ⟨name, read, parsed, ⟨node, taken⟩, rfl⟩
  · rintro (rfl | ⟨name, read, parsed, ⟨node, taken⟩, rfl⟩)
    · exact ⟨_, _, arrives.parsed, ⟨_, made⟩, rfl⟩
    · rw [← arrives.get?_eq parsed (arrives.ne_fileName taken parsed)] at taken
      exact ⟨name, read, parsed, ⟨node, taken⟩, rfl⟩

end Arrives

/-- With one more backup there is one more that is newer. -/
theorem Present.arrives {hash : String} (present : Present dir base dl name read bytes count m.files)
    (arrives : Arrives dir base t hash bytes' m k) (there : m.files.find dir = .ok (dl, .directory))
    (parsed : parseName? base name = some read) :
    Present dir base dl name read bytes (count + 1) k.files := by
  obtain ⟨file, newer, unique⟩ := present
  have perm := arrives.found there
  have later : read.1 < t := arrives.latest dl name read _ file parsed
  refine ⟨(arrives.get?_eq parsed (arrives.ne_fileName file parsed)).trans file, ?_,
    fun i inside same => ?_⟩
  · rw [(perm.filter _).length_eq, List.filter_cons_of_pos, List.length_cons, newer]
    exact decide_eq_true later
  · rcases List.mem_cons.mp (perm.mem_iff.mp inside) with rfl | inside
    · exact absurd same (Nat.ne_of_gt later)
    · exact unique i inside same

/-- One more backup brings the first one closer to its end. -/
theorem Fate.step {hash : String} (fate : Fate a.cap dir base dl name read bytes count m.files)
    (arrives : Arrives dir base t hash bytes' m k) (pruned : Pruned a dir base k n)
    (healthy : ∀ i, k.environment.fault i = none) (there : m.files.find dir = .ok (dl, .directory))
    (parsed : parseName? base name = some read) (old : read.1 < t) :
    Fate a.cap dir base dl name read bytes (count + 1) n.files := by
  cases fate with
  | kept few present =>
    obtain ⟨_, admitted⟩ := arrives.admits
    exact (present.arrives arrives there parsed).prune pruned healthy arrives.full arrives.plain
      (admitted.2.sound arrives.sound) (arrives.there there) parsed
  | lost many gone =>
    refine .lost ⟨many.1, Nat.le_succ_of_le many.2⟩ fun b found => ?_
    have other : name ≠ fileName base t hash := by
      rintro rfl
      cases parsed.symm.trans arrives.parsed
      exact Nat.lt_irrefl t old
    have before := (pruned.1.2.gained _ b found).resolve_right id
    rw [arrives.get?_eq parsed other] at before
    exact gone b before

/-- The fate of a backup is decided by what stands under names of backups. -/
theorem Fate.congr {cap : Nat} (fate : Fate cap dir base dl name read bytes count fs)
    (same : ∀ name read, parseName? base name = some read →
      gs.get? (dl ++ [name]) = fs.get? (dl ++ [name]))
    (plain : '/' ∉ base.toList) (wf : fs.WellFormed) (wf' : gs.WellFormed)
    (there : fs.find dir = .ok (dl, .directory)) (there' : gs.find dir = .ok (dl, .directory))
    (parsed : parseName? base name = some read) :
    Fate cap dir base dl name read bytes count gs := by
  have mem : ∀ i, i ∈ found gs dir base ↔ i ∈ found fs dir base := by
    intro i
    rw [mem_found there, mem_found there']
    refine exists_congr fun name => exists_congr fun read => and_congr_right fun parsed => ?_
    rw [same name read parsed]
  cases fate with
  | kept few present =>
    obtain ⟨file, newer, unique⟩ := present
    refine .kept few ⟨(same name read parsed).trans file, ?_, fun i inside => unique i ((mem i).mp inside)⟩
    rw [← newer]
    exact perm_of_mem_iff plain wf wf' fun i _ => mem i
  | lost many gone => exact .lost many fun b => by rw [same name read parsed]; exact gone b

/-- New content of the file itself does nothing to its backups. -/
theorem Fate.landed {target : Path} {cap : Nat}
    (fate : Fate cap dir (baseOf target) dl name read bytes count m.files)
    (landed : Landed m target bytes' n) (free : Unobstructed (baseOf target) n.files)
    (wf : m.files.WellFormed) (there : m.files.find dir = .ok (dl, .directory))
    (parsed : parseName? (baseOf target) name = some read) :
    Fate cap dir (baseOf target) dl name read bytes count n.files := by
  have same : ∀ name read, parseName? (baseOf target) name = some read →
      n.files.get? (dl ++ [name]) = m.files.get? (dl ++ [name]) :=
    fun name read parsed => get?_of_landed landed free parsed (ne_of_parseName? parsed)
  obtain ⟨_, _, _, _, admitted⟩ := landed
  exact fate.congr same (Disk.Staged.not_slash_baseOf target) wf (admitted.2.sound wf) there
    (admitted.2.grows.find there) parsed

/-! ### Dates -/

theorem Past.mono {e : Environment} (past : Past e s base fs)
    (taken : ∀ d name read node, gs.get? (d ++ [name]) = some node → parseName? base name = some read →
      ∃ node', fs.get? (d ++ [name]) = some node') : Past e s base gs := by
  intro d name read node found parsed t dates
  obtain ⟨node', before⟩ := taken d name read node found parsed
  exact past d name read node' before parsed t dates

/-- After a backup its own timestamp is the last. -/
theorem Arrives.past {e : Environment} {hash : String} (arrives : Arrives dir base t hash bytes m k) :
    Past e t base k.files := by
  intro d name read node found parsed t' dates
  have later := dates.later
  by_cases same : name = fileName base t hash
  · subst same
    cases parsed.symm.trans arrives.parsed
    exact later
  · rw [arrives.get?_eq parsed same] at found
    exact Nat.lt_trans (arrives.latest d name read node found parsed) later

/-- Pruning brings no backup back. -/
theorem Past.pruned {e : Environment} (past : Past e s base m.files) (pruned : Pruned a dir base m n) :
    Past e s base n.files := by
  refine past.mono fun d name read node found _ => ?_
  cases node with
  | directory => exact ⟨_, (pruned.1.2.made _ found).resolve_right id⟩
  | file b => exact ⟨_, (pruned.1.2.gained _ b found).resolve_right id⟩

theorem Past.landed {e : Environment} {target : Path} (past : Past e s (baseOf target) m.files)
    (landed : Landed m target bytes n) (free : Unobstructed (baseOf target) n.files) :
    Past e s (baseOf target) n.files := by
  refine past.mono fun d name read node found parsed => ?_
  rw [get?_of_landed landed free parsed (ne_of_parseName? parsed)] at found
  exact ⟨node, found⟩

end Archive

end SourceRepair.Backup
