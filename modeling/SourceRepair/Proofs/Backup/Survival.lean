import Mathlib.Data.List.Perm.Subperm
import SourceRepair.Proofs.Backup.Retention
import SourceRepair.Proofs.Pipeline.Rollback

/-!
# Whether a new backup survives

A new backup is pruned together with those that were there before, and timestamps alone decide which of
them are kept. So it stands there afterwards unless others that are no older fill the archive, and it is
gone when so many are newer: `record_survives`. A file is replaced under the same proviso.
-/

namespace SourceRepair.Backup

open Disk (Files Location Machine Program Scope)
open Disk.Staged (Landed baseOf)

namespace Archive

variable {a : Archive} {fs gs : Files} {dir p : Path} {base name operation content text : String}
  {dl : Location} {info : Info} {read : Nat × String} {place : Place} {m n k : Machine} {s t : Nat}

/-! ### Pruning -/

/-- So many other backups as the archive keeps are no older. -/
def Crowded (a : Archive) (dir : Path) (base : String) (info : Info) (fs : Files) : Prop :=
  a.cap ≠ 0 ∧
    a.cap ≤ ((found fs dir base).filter fun i => i ≠ info ∧ info.timestamp ≤ i.timestamp).length

/-- A backup is dropped for others that are no older and stay. -/
theorem crowded_of_drop (capped : a.cap ≠ 0) (plain : '/' ∉ base.toList) (wf : fs.WellFormed)
    (behind : info ∈ (newestFirst (found fs dir base)).drop a.cap)
    (stays : ∀ i ∈ found fs dir base, i ∉ (newestFirst (found fs dir base)).drop a.cap →
      i ∈ found gs dir base) : a.Crowded dir base info gs := by
  have sorted := sorted_newestFirst (found fs dir base)
  have nodup : (newestFirst (found fs dir base)).Nodup :=
    (List.mergeSort_perm _ _).nodup_iff.mpr (nodup_found plain wf)
  have many : a.cap < (newestFirst (found fs dir base)).length := by
    have some := List.length_pos_of_mem behind
    rw [List.length_drop] at some
    omega
  rw [← List.take_append_drop a.cap (newestFirst (found fs dir base))] at sorted nodup
  obtain ⟨nodupFront, _, apart⟩ := List.nodup_append.mp nodup
  have before := (List.pairwise_append.mp sorted).2.2
  have front : (newestFirst (found fs dir base)).take a.cap ⊆
      (found gs dir base).filter fun i => i ≠ info ∧ info.timestamp ≤ i.timestamp := by
    intro i early
    have listed : i ∈ found fs dir base := List.mem_mergeSort.mp (List.mem_of_mem_take early)
    refine List.mem_filter.mpr ⟨stays i listed fun late => apart i early i late rfl, ?_⟩
    simpa using ⟨apart i early info behind, before i early info behind⟩
  have few := (List.subperm_of_subset nodupFront front).length_le
  rw [List.length_take_of_le (Nat.le_of_lt many)] at few
  exact ⟨capped, few⟩

/-- Pruning leaves a backup alone unless the archive is crowded, even if some steps fail. -/
theorem kept_or_crowded (pruned : Pruned a dir base k n) (full : dir.text ≠ "")
    (plain : '/' ∉ base.toList) (wf : k.files.WellFormed) (there : k.files.find dir = .ok (dl, .directory))
    (parsed : parseName? base name = some read) :
    n.files.get? (dl ++ [name]) = k.files.get? (dl ++ [name]) ∨
      a.Crowded dir base (infoAt dir name read) n.files := by
  obtain ⟨admitted, rest⟩ := pruned
  split at rest
  · exact .inl (by rw [rest])
  · rename_i capped
    obtain ⟨infos, either, _, removed⟩ := rest
    have listed : ∀ i ∈ (newestFirst infos).drop a.cap, i ∈ found k.files dir base := by
      rcases either with rfl | rfl
      · simp [newestFirst]
      · exact fun i behind => mem_found_of_drop behind
    by_cases behind : infoAt dir name read ∈ (newestFirst infos).drop a.cap
    · right
      rcases either with rfl | rfl
      · simp [newestFirst] at behind
      refine crowded_of_drop capped plain wf behind fun i inside kept => ?_
      obtain ⟨name', read', parsed', ⟨node, taken⟩, rfl⟩ := (mem_found there).mp inside
      have same := (get?_of_removed full plain there listed removed parsed').2 kept
      exact (mem_found (admitted.2.grows.find there)).mpr
        ⟨name', read', parsed', ⟨node, same.trans taken⟩, rfl⟩
    · exact .inl ((get?_of_removed full plain there listed removed parsed).2 behind)

theorem files_of_pruned (pruned : Pruned a dir base k n) (none : found k.files dir base = []) :
    n.files = k.files := by
  obtain ⟨_, rest⟩ := pruned
  split at rest
  · exact rest
  · obtain ⟨infos, either, _, removed⟩ := rest
    rw [none, or_self] at either
    subst either
    rw [newestFirst, List.mergeSort_nil, List.drop_nil, List.map_nil] at removed
    exact (Except.ok.inj removed).symm

/-- What is newer than a backup comes before it, so a backup behind enough of them is dropped. -/
theorem mem_drop_of_newer {xs : List Info} {c : Nat}
    (sorted : xs.Pairwise fun i j => j.timestamp ≤ i.timestamp) (member : info ∈ xs)
    (many : c ≤ (xs.filter fun i => info.timestamp < i.timestamp).length) : info ∈ xs.drop c := by
  obtain ⟨front, back, rfl⟩ := List.append_of_mem member
  have behind := (List.pairwise_cons.mp (List.pairwise_append.mp sorted).2.1).1
  have older : ∀ i ∈ info :: back, ¬info.timestamp < i.timestamp := by
    intro i inside
    rcases List.mem_cons.mp inside with rfl | inside
    · omega
    · have le := behind i inside
      omega
  have none : (info :: back).filter (fun i => decide (info.timestamp < i.timestamp)) = [] :=
    List.filter_eq_nil_iff.mpr (by simpa using older)
  rw [List.filter_append, none, List.append_nil] at many
  have few := List.length_filter_le (fun i => decide (info.timestamp < i.timestamp)) front
  rw [List.drop_append_of_le_length (by omega)]
  exact List.mem_append_right _ List.mem_cons_self

/-! ### What stays found -/

/-- A backup that may not be lost is still found. -/
theorem found_of_allows {scope : Scope} (allowed : scope.Allows fs gs)
    (listed : info ∈ found fs dir base)
    (spared : ∀ d name read, parseName? base name = some read → info = infoAt dir name read →
      ¬scope.lose (d ++ [name])) : info ∈ found gs dir base := by
  obtain ⟨dl, there⟩ := directory_of_found listed
  obtain ⟨name, read, parsed, ⟨node, taken⟩, rfl⟩ := (mem_found there).mp listed
  refine (mem_found (allowed.grows.find there)).mpr ⟨name, read, parsed, ?_, rfl⟩
  cases node with
  | directory => exact ⟨_, allowed.grows.2 _ taken⟩
  | file bytes => exact ⟨_, (allowed.kept _ _ taken).resolve_right (spared dl name read parsed rfl)⟩

/-- More backups are counted where more are found. -/
theorem count_le {q : Info → Bool} (plain : '/' ∉ base.toList) (wf : fs.WellFormed)
    (more : ∀ i ∈ found fs dir base, q i = true → i ∈ found gs dir base) :
    ((found fs dir base).filter q).length ≤ ((found gs dir base).filter q).length := by
  refine (List.subperm_of_subset ((nodup_found plain wf).filter q) fun i member => ?_).length_le
  obtain ⟨inside, chosen⟩ := List.mem_filter.mp member
  exact List.mem_filter.mpr ⟨more i inside chosen, chosen⟩

theorem Crowded.mono (crowded : a.Crowded dir base info fs) (plain : '/' ∉ base.toList)
    (wf : fs.WellFormed) (more : ∀ i ∈ found fs dir base, i ∈ found gs dir base) :
    a.Crowded dir base info gs :=
  ⟨crowded.1, Nat.le_trans crowded.2 (count_le plain wf fun i inside _ => more i inside)⟩

/-! ### A new backup -/

theorem found_of_empty (empty : dir.text = "") : found fs dir base = [] := by
  refine List.eq_nil_iff_forall_not_mem.mpr fun i listed => ?_
  obtain ⟨dl, there⟩ := directory_of_found listed
  exact (Files.locate_ok.mp (Files.find_ok.mp there).1).1 empty

section

variable {hash : String} {bytes : ByteArray} (shown : info = infoAt dir (fileName base t hash) (t, hash))
  (plain : '/' ∉ base.toList) (digest : IsDigest hash) (fits : t < 2 ^ 64) (wf : m.files.WellFormed)
  (landed : Landed m info.path bytes k) (pruned : Pruned a dir base k n)

include shown plain digest fits wf landed pruned

/-- A new backup stands at its place, unless the archive is crowded. -/
theorem stands_of_landed :
    (∃ d, n.files.find info.path = .ok (d ++ [fileName base t hash], .file bytes)) ∨
      a.Crowded dir base info n.files := by
  have path : info.path = backupPath dir base t hash := congrArg Info.path shown
  obtain ⟨_, d, _, there, admitted⟩ := landed
  rw [path, baseOf_backupPath plain digest] at there
  obtain ⟨led, file, slash⟩ := Files.find_ok.mp there
  have stay : n.files.get? (d ++ [fileName base t hash]) = k.files.get? (d ++ [fileName base t hash]) →
      n.files.find info.path = .ok (d ++ [fileName base t hash], .file bytes) := fun same =>
    Files.find_ok.mpr ⟨path ▸ pruned.1.2.grows.locate led, same.trans file, path ▸ slash⟩
  by_cases full : dir.text = ""
  · exact .inl ⟨d, stay (by rw [files_of_pruned pruned (found_of_empty full)])⟩
  · obtain ⟨dl, led', directory, _, same⟩ :=
      (Files.locate_join full (isPlain_fileName plain digest)).mp led
    obtain rfl := (List.append_inj' same rfl).1
    have home := Files.find_ok.mpr ⟨led', directory, fun no => absurd rfl no⟩
    have either := kept_or_crowded pruned full plain (admitted.2.sound wf) home
      (parseName?_fileName base fits digest)
    rw [← shown] at either
    exact either.imp_left fun same => ⟨d, stay same⟩

/-- Without faults a new backup is gone again when enough of those before it are newer. -/
theorem lost_of_landed (healthy : ∀ i, m.environment.fault i = none) (capped : a.cap ≠ 0)
    (many : a.cap ≤ ((found m.files dir base).filter fun i => t < i.timestamp).length) :
    n.files.kindAt info.path = none := by
  have path : info.path = backupPath dir base t hash := congrArg Info.path shown
  have dated : info.timestamp = t := congrArg Info.timestamp shown
  have parsed := parseName?_fileName base fits digest
  obtain ⟨_, d, _, there, admitted⟩ := landed
  rw [path, baseOf_backupPath plain digest] at there admitted
  obtain ⟨led, file, _⟩ := Files.find_ok.mp there
  have full : dir.text ≠ "" := by
    intro empty
    rw [found_of_empty empty] at many
    exact capped (Nat.le_zero.mp many)
  obtain ⟨dl, led', directory, _, same⟩ := (Files.locate_join full (isPlain_fileName plain digest)).mp led
  obtain rfl := (List.append_inj' same rfl).1
  have home := Files.find_ok.mpr ⟨led', directory, fun no => absurd rfl no⟩
  have more : ∀ i ∈ found m.files dir base, decide (t < i.timestamp) = true → i ∈ found k.files dir base := by
    intro i inside newer
    refine found_of_allows admitted.2 inside fun l name read parsed' shown' => ?_
    rintro (temporary | same)
    · exact not_isTemporary_of_parseName? parsed' temporary
    · obtain rfl := List.singleton_inj.mp (List.append_inj_right' same rfl)
      cases parsed'.symm.trans parsed
      simp [shown', infoAt] at newer
  have listed : info ∈ found k.files dir base := (mem_found home).mpr ⟨_, _, parsed, ⟨_, file⟩, shown⟩
  have behind : info ∈ a.dropped k.files dir base := by
    rw [dropped, if_neg capped]
    refine mem_drop_of_newer (sorted_newestFirst _) (List.mem_mergeSort.mpr listed) ?_
    have perm : (newestFirst (found k.files dir base)).Perm (found k.files dir base) :=
      List.mergeSort_perm _ _
    rw [(perm.filter _).length_eq, dated]
    exact Nat.le_trans many (count_le plain wf more)
  have gone := (pruned.get? (by rw [admitted.1]; exact healthy) full plain home parsed).1 (shown ▸ behind)
  rw [path]
  simp [Files.kindAt, Files.find, pruned.1.2.grows.locate led, gone, bind, Except.bind]

end

/-- The document of a backup of a text. -/
def document (a : Archive) (p : Path) (operation text : String) (t : Nat) : ByteArray :=
  (Record.ofContent (a.absolute p) t operation text).text.toUTF8

theorem Backed.infoAt (backed : Backed a place p operation text m s info t n) :
    info = infoAt (a.directory place p) (fileName (baseOf p) t (Digest.ofText text)) (t, Digest.ofText text) :=
  backed.shown

theorem Backed.stands (backed : Backed a place p operation text m s info t n)
    (wf : m.files.WellFormed) (fits : t < 2 ^ 64) :
    (∃ d, n.files.find info.path = .ok (d ++ [fileName (baseOf p) t (Digest.ofText text)],
      .file (a.document p operation text t))) ∨
      a.Crowded (a.directory place p) (baseOf p) info n.files := by
  obtain ⟨k, landed, pruned⟩ := backed.made
  exact stands_of_landed backed.infoAt (Disk.Staged.not_slash_baseOf p) (isDigest_ofText text) fits wf landed
    pruned

theorem Backed.lost (backed : Backed a place p operation text m s info t n) (wf : m.files.WellFormed)
    (fits : t < 2 ^ 64) (healthy : ∀ i, m.environment.fault i = none) (capped : a.cap ≠ 0)
    (many : a.cap ≤ ((found m.files (a.directory place p) (baseOf p)).filter
      fun i => t < i.timestamp).length) : n.files.kindAt info.path = none := by
  obtain ⟨k, landed, pruned⟩ := backed.made
  exact lost_of_landed backed.infoAt (Disk.Staged.not_slash_baseOf p) (isDigest_ofText text) fits wf landed
    pruned healthy capped many

/-! ### Replacing a file -/

/-- New content of the file itself does nothing to its backups. -/
theorem found_of_landed {content : ByteArray} (landed : Landed k p content n)
    (listed : info ∈ found k.files dir (baseOf p)) : info ∈ found n.files dir (baseOf p) := by
  obtain ⟨_, d, _, _, admitted⟩ := landed
  refine found_of_allows admitted.2 listed fun l name read parsed _ => ?_
  rintro (temporary | same)
  · exact not_isTemporary_of_parseName? parsed temporary
  · obtain rfl := List.singleton_inj.mp (List.append_inj_right' same rfl)
    exact ne_of_parseName? parsed rfl

/-- A file that a failed write was to replace is as it was. -/
theorem preparing_spares {l : Location} {bytes : ByteArray} (wf : m.files.WellFormed)
    (there : m.files.find p = .ok (l, .file bytes)) (admitted : (a.preparing place p s).Admits m n) :
    n.files.find p = .ok (l, .file bytes) := by
  obtain ⟨d, rfl, _⟩ := Disk.Staged.place_of_file wf there
  refine admitted.2.read there ?_
  rintro (backed | temporary)
  · rcases lose_backing (Disk.Staged.not_slash_baseOf p) backed with later | ⟨read, parsed⟩
    · exact later.ne_base
    · exact ne_of_parseName? parsed rfl
  · exact Disk.Staged.not_isTemporary temporary

/-! ### The law -/

/-- A text is on record where a backup is said to be, in a document from which it is restored. -/
structure OnRecord (a : Archive) (p : Path) (operation text : String) (info : Info) (fs : Files) : Prop where
  read : fs.read info.path = .ok (a.document p operation text info.timestamp)
  restored : Record.ofText (Record.ofContent (a.absolute p) info.timestamp operation text).text =
    .ok (Record.ofContent (a.absolute p) info.timestamp operation text)
  intact : (Record.ofContent (a.absolute p) info.timestamp operation text).isIntact = true
  hash : info.hash = Digest.ofText text

theorem Backed.onRecord {l : Location} (backed : Backed a place p operation text m s info t n)
    (fits : t < 2 ^ 64) (there : fs.find info.path = .ok (l, .file (a.document p operation text t))) :
    OnRecord a p operation text info fs := by
  obtain ⟨_, _, _, rfl, _⟩ := backed
  exact ⟨Files.read_ok.mpr ⟨l, there⟩, Record.ofText_text_of_lt fits, Record.isIntact_ofContent _ _ _ _, rfl⟩

/-- Replacing the file keeps a record of what was there. -/
theorem Backed.landed {content : ByteArray} (backed : Backed a place p operation text m s info t k)
    (wf : m.files.WellFormed) (fits : t < 2 ^ 64) (landed : Landed k p content n) :
    OnRecord a p operation text info n.files ∨
      a.Crowded (a.directory place p) (baseOf p) info n.files := by
  have plain := Disk.Staged.not_slash_baseOf p
  rcases backed.stands wf fits with ⟨d, there⟩ | crowded
  · left
    have parsed := parseName?_fileName (baseOf p) fits (isDigest_ofText text)
    obtain ⟨_, d', _, _, admitted⟩ := landed
    refine backed.onRecord fits (admitted.2.read there ?_)
    rintro (temporary | same)
    · exact not_isTemporary_of_parseName? parsed temporary
    · exact ne_of_parseName? parsed (List.singleton_inj.mp (List.append_inj_right' same rfl))
  · have wf' : k.files.WellFormed := by
      obtain ⟨_, _, _, _, j, ⟨_, _, _, _, admitted⟩, pruned⟩ := backed
      exact pruned.1.2.sound (admitted.2.sound wf)
    exact .inr (crowded.mono plain wf' fun i inside => found_of_landed landed inside)

theorem Dates.lt {e : Disk.Environment} {c : Nat} (dates : Dates e s t) (clock : ∀ i, e.calendar i < c)
    (early : s + 1 < c) : t < c := by
  obtain ⟨i, rfl⟩ := dates
  have shown := clock i
  omega

/-- A backup that is made stands at its place unless others that are no older fill the archive, and
without faults it is gone when so many of those before it are newer. A file is left alone by a write that
fails; one that succeeds leaves a backup of what was there, under the same proviso. -/
theorem record_survives (a : Archive) (place : Place) (p : Path) (operation content : String)
    (wf : m.files.WellFormed) (tidy : m.environment.Tidy)
    (clock : ∀ i, m.environment.calendar i < 2 ^ 64) (early : s + 1 < 2 ^ 64) :
    (∀ info t n, ((a.create place p operation).run.run s).run m = ((.ok info, t), n) →
      ∃ text, m.files.read p = .ok text.toUTF8 ∧
        (OnRecord a p operation text info n.files ∨
          a.Crowded (a.directory place p) (baseOf p) info n.files) ∧
        ((∀ i, m.environment.fault i = none) → a.cap ≠ 0 →
          a.cap ≤ ((found m.files (a.directory place p) (baseOf p)).filter
            fun i => info.timestamp < i.timestamp).length → n.files.kindAt info.path = none)) ∧
    ∀ r t n, ((a.write place p content operation).run.run s).run m = ((r, t), n) →
      ∀ old, m.files.read p = .ok old →
        ((∃ e, r = .error e) ∧ n.files.read p = .ok old ∨
          ∃ receipt info text, r = .ok receipt ∧ receipt.backup = some info ∧ old = text.toUTF8 ∧
            n.files.read p = .ok content.toUTF8 ∧
            (OnRecord a p operation text info n.files ∨
              a.Crowded (a.directory place p) (baseOf p) info n.files)) := by
  constructor
  · intro info t n ran
    obtain ⟨_, _, made⟩ := (create_holds wf tidy).ends ran
    obtain ⟨text, backed⟩ := made info rfl
    have fits := backed.dated.lt clock early
    refine ⟨text, backed.read, ?_, fun healthy capped many => ?_⟩
    · exact (backed.stands wf fits).imp_left fun ⟨d, there⟩ => backed.onRecord fits there
    · have dated : info.timestamp = t := by rw [backed.shown]; rfl
      exact backed.lost wf fits healthy capped (dated ▸ many)
  · intro r t n ran old there
    obtain ⟨_, _, made, failed⟩ := (write_holds wf tidy).ends ran
    obtain ⟨l, found⟩ := Files.read_ok.mp there
    cases r with
    | error e =>
      exact .inl ⟨⟨e, rfl⟩, Files.read_ok.mpr ⟨l, preparing_spares wf found (failed e rfl)⟩⟩
    | ok receipt =>
      right
      cases made receipt rfl with
      | fresh absent _ => simp [Files.kindAt, found] at absent
      | @replaced info text _ k _ backed landed =>
        refine ⟨_, info, text, rfl, rfl, ?_, ?_, backed.landed wf (backed.dated.lt clock early) landed⟩
        · exact Except.ok.inj (there.symm.trans backed.read)
        · obtain ⟨_, d, _, found, _⟩ := landed
          exact Files.read_ok.mpr ⟨_, found⟩

open Pipeline (smallArchive smallMachine stillness)

/-- An archive that keeps one backup of a file. -/
def tightArchive : Archive := { smallArchive with cap := 1 }

theorem create_smallMachine : (((tightArchive.create .primary ⟨"/a.json"⟩ "manual").run.run 0).run
    (smallMachine "a.json" "1")).1.1.toOption.isSome = true := by
  unfold Archive.create Archive.prune
  simp only [Pipeline.newestFirst_eq]
  decide +kernel

theorem record_survives_small :
    (smallMachine "a.json" "1").files.WellFormed ∧ stillness.Tidy ∧ (∀ i, stillness.calendar i < 2 ^ 64) ∧
    0 + 1 < 2 ^ 64 ∧
    ∃ info t n text, ((tightArchive.create .primary ⟨"/a.json"⟩ "manual").run.run 0).run
        (smallMachine "a.json" "1") = ((.ok info, t), n) ∧
      (smallMachine "a.json" "1").files.read ⟨"/a.json"⟩ = .ok text.toUTF8 ∧
      (OnRecord tightArchive ⟨"/a.json"⟩ "manual" text info n.files ∨
        tightArchive.Crowded (tightArchive.directory .primary ⟨"/a.json"⟩) (baseOf ⟨"/a.json"⟩) info
          n.files) := by
  have wf : (smallMachine "a.json" "1").files.WellFormed := Pipeline.smallMachine_wellFormed
  have tidy : stillness.Tidy := Pipeline.stillness_calm.tidy
  have clock : ∀ i, stillness.calendar i < 2 ^ 64 := fun _ => Nat.two_pow_pos 64
  have early : 0 + 1 < 2 ^ 64 := Nat.one_lt_two_pow (by decide)
  have law := record_survives tightArchive .primary ⟨"/a.json"⟩ "manual" "2" wf tidy clock early
  have done := create_smallMachine
  generalize ran : ((tightArchive.create .primary ⟨"/a.json"⟩ "manual").run.run 0).run
    (smallMachine "a.json" "1") = r at done
  obtain ⟨⟨r, t⟩, n⟩ := r
  cases r with
  | error e => cases done
  | ok info =>
    obtain ⟨text, read, survives, _⟩ := law.1 info t n ran
    exact ⟨wf, tidy, clock, early, info, t, n, text, rfl, read, survives⟩

/-- A machine with a file and a backup of it that is dated after all that the calendar shows. -/
def datedAhead : Machine where
  files := ⟨[(["a.js"], .file "1".toUTF8), (["a.js.9999999999999.0123456789abcdef"], .file "0".toUTF8)], []⟩
  environment := stillness

theorem datedAhead_wellFormed : datedAhead.files.WellFormed :=
  .of_nodes (by decide) (by decide) rfl

/-- A backup that is gone when it is made, and a file that is replaced without one. -/
theorem backup_gone_at_once :
    let made := ((tightArchive.create .primary ⟨"/a.js"⟩ "manual").run.run 0).run datedAhead
    let wrote := ((tightArchive.write .primary ⟨"/a.js"⟩ "2" "manual").run.run 0).run datedAhead
    datedAhead.files.WellFormed ∧ datedAhead.environment.Calm ∧
    made.1.1.toOption.map (fun info => (info.path, made.2.files.kindAt info.path)) =
      some (⟨"/a.js.1.65cd25028f98f158"⟩, none) ∧
    wrote.1.1.toOption.map (fun receipt => receipt.backup.map fun info => wrote.2.files.kindAt info.path) =
      some (some none) ∧
    datedAhead.files.read ⟨"/a.js"⟩ = .ok "1".toUTF8 ∧ wrote.2.files.read ⟨"/a.js"⟩ = .ok "2".toUTF8 := by
  refine ⟨datedAhead_wellFormed, Pipeline.stillness_calm, ?made, ?wrote⟩
  case made =>
    unfold Archive.create Archive.prune
    simp only [Pipeline.newestFirst_eq]
    decide +kernel
  case wrote =>
    unfold Archive.write Archive.create Archive.prune
    simp only [Pipeline.newestFirst_eq]
    decide +kernel

end Archive

end SourceRepair.Backup
