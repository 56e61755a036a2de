import SourceRepair.Proofs.Backup.Atomic
import SourceRepair.Proofs.Backup.Keys
import SourceRepair.Proofs.Backup.Moves
import SourceRepair.Proofs.Backup.Survival
import SourceRepair.Proofs.Backup.Within

/-!
# One backup after another

Backups that one archive makes in turn are dated in turn. So the newest of a file are the last, and what
is found for it is what its last calls made, as long as no directory of the tree bears a name of one of
its backups: `newest_kept`.
-/

namespace SourceRepair.Backup.Archive

open Disk (Environment Files Location Machine Program Scope)
open Disk.Staged (Landed baseOf)
open Path (IsPlain)

/-! ### The last of a list -/

section

variable {α β : Type} {cap : Nat} {xs : List α} {x : α}

/-- The last elements of a list, or all of them where zero are asked for. -/
def latest (cap : Nat) (xs : List α) : List α := if cap = 0 then xs else xs.drop (xs.length - cap)

theorem latest_sublist (cap : Nat) (xs : List α) : (latest cap xs).Sublist xs := by
  unfold latest
  split
  · exact List.Sublist.refl xs
  · exact List.drop_sublist _ _

theorem map_latest (f : α → β) : (latest cap xs).map f = latest cap (xs.map f) := by
  unfold latest
  split
  · rfl
  · rw [List.map_drop, List.length_map]

theorem latest_ne_nil (some : xs ≠ []) : latest cap xs ≠ [] := by
  unfold latest
  split
  · exact some
  · have length := List.length_pos_iff.mpr some
    rw [← List.length_pos_iff, List.length_drop]
    omega

/-- Only the last count for what is last with one more. -/
theorem latest_append : latest cap (latest cap xs ++ [x]) = latest cap (xs ++ [x]) := by
  unfold latest
  by_cases all : cap = 0
  · simp only [if_pos all]
  · simp only [if_neg all, List.length_append, List.length_drop, List.length_singleton]
    by_cases few : xs.length < cap
    · have none : xs.length - cap = 0 := by omega
      rw [none, List.drop_zero, Nat.sub_zero]
    · have front : xs.length - (xs.length - cap) + 1 - cap = 1 := by omega
      have back : xs.length + 1 - cap = xs.length - cap + 1 := by omega
      rw [front, back, List.drop_append_of_le_length (by rw [List.length_drop]; omega),
        List.drop_append_of_le_length (by omega), List.drop_drop]

end

/-! ### Calls -/

/-- A backup that was made: of which file, what for, of which text, and what was told of it. -/
structure Call where
  path : Path
  operation : String
  text : String
  info : Info

variable {a : Archive} {p q : Path} {fs gs : Files} {m n k j : Machine} {s t : Nat} {calls ds : List Call}
  {c d : Call} {current l : Location} {name : String} {read : Nat × String}

/-- The backups of two files lie in one directory under one name. -/
def Shares (a : Archive) (p q : Path) : Prop :=
  a.directory .primary p = a.directory .primary q ∧ baseOf p = baseOf q

instance : Decidable (a.Shares p q) := inferInstanceAs (Decidable (_ ∧ _))

/-- The last calls for a file, as many as the archive keeps. -/
def kept (a : Archive) (calls : List Call) (q : Path) : List Call :=
  latest a.cap (calls.filter fun c => a.Shares c.path q)

theorem kept_append_of_shares (shares : a.Shares c.path q) :
    a.kept (calls ++ [c]) q = latest a.cap (a.kept calls q ++ [c]) := by
  unfold kept
  rw [List.filter_append, List.filter_singleton, decide_eq_true shares, cond_true, latest_append]

theorem kept_append_of_not_shares (other : ¬a.Shares c.path q) :
    a.kept (calls ++ [c]) q = a.kept calls q := by
  unfold kept
  rw [List.filter_append, List.filter_singleton, decide_eq_false other, cond_false, List.append_nil]

/-- A directory on the way to the backups of a call lies where a backup of a file could lie. -/
def Mistaken (a : Archive) (current : Location) (calls : List Call) (q : Path) : Prop :=
  ∃ c ∈ calls, ∃ l, (a.directory .primary c.path).OnWay current l ∧ a.IsRecord current .primary q l

namespace Call

def entry (c : Call) : String := fileName (baseOf c.path) c.info.timestamp (Digest.ofText c.text)

def document (a : Archive) (c : Call) : ByteArray := a.document c.path c.operation c.text c.info.timestamp

/-- What is told of a call is what it made. -/
structure Made (a : Archive) (c : Call) : Prop where
  shown : c.info = a.infoOf .primary c.path c.info.timestamp c.text
  fits : c.info.timestamp < 2 ^ 64

theorem Made.info_eq (made : c.Made a) (shares : a.Shares c.path q) : c.info =
    infoAt (a.directory .primary q) c.entry (c.info.timestamp, Digest.ofText c.text) := by
  rw [← shares.1]
  exact made.shown

theorem Made.path_eq (made : c.Made a) (shares : a.Shares c.path q) :
    c.info.path = (a.directory .primary q).join ⟨c.entry⟩ := by
  rw [made.info_eq shares, infoAt]

theorem Made.parsed (made : c.Made a) (shares : a.Shares c.path q) :
    parseName? (baseOf q) c.entry = some (c.info.timestamp, Digest.ofText c.text) := by
  rw [← shares.2]
  exact parseName?_fileName _ made.fits (isDigest_ofText c.text)

theorem isPlain_entry (c : Call) : IsPlain c.entry :=
  isPlain_fileName (Disk.Staged.not_slash_baseOf c.path) (isDigest_ofText c.text)

theorem Made.baseOf_eq (made : c.Made a) : baseOf c.info.path = c.entry := by
  have path : c.info.path = backupPath (a.directory .primary c.path) (baseOf c.path) c.info.timestamp
      (Digest.ofText c.text) := by
    rw [made.shown, infoOf]
  rw [path]
  exact baseOf_backupPath (Disk.Staged.not_slash_baseOf c.path) (isDigest_ofText c.text)

end Call

/-- Calls for one file, each dated after those before it. -/
structure InTurn (a : Archive) (q : Path) (calls : List Call) : Prop where
  made : ∀ c ∈ calls, c.Made a
  shares : ∀ c ∈ calls, a.Shares c.path q
  rising : calls.Pairwise fun c d => c.info.timestamp < d.info.timestamp

theorem InTurn.eq_of_entry (turn : a.InTurn q calls) (inside : c ∈ calls) (inside' : d ∈ calls)
    (same : c.entry = d.entry) : c = d := by
  have distinct : (calls.map (·.info.timestamp)).Nodup :=
    (List.pairwise_map.mpr turn.rising).imp fun less => Nat.ne_of_lt less
  refine List.inj_on_of_nodup_map distinct inside inside' ?_
  have base : baseOf c.path = baseOf d.path := (turn.shares c inside).2.trans (turn.shares d inside').2.symm
  rw [Call.entry, Call.entry, base] at same
  exact fileName_inj (isDigest_ofText c.text) (isDigest_ofText d.text) same

theorem InTurn.infos (turn : a.InTurn q calls) :
    (calls.map (·.info)).Pairwise fun i j => i.timestamp < j.timestamp := List.pairwise_map.mpr turn.rising

theorem nodup_of_rising {infos : List Info} (rising : infos.Pairwise fun i j => i.timestamp < j.timestamp) :
    infos.Nodup := by
  refine rising.imp fun less same => ?_
  rw [same] at less
  exact Nat.lt_irrefl _ less

theorem InTurn.sublist (turn : a.InTurn q calls) (within : ds.Sublist calls) : a.InTurn q ds :=
  ⟨fun c member => turn.made c (within.subset member), fun c member => turn.shares c (within.subset member),
    turn.rising.sublist within⟩

/-! ### What the tree holds -/

/-- The places for backups of a file hold the documents of these calls and nothing else. -/
def Holding (a : Archive) (q : Path) (fs : Files) (calls : List Call) : Prop :=
  ∀ name read node, parseName? (baseOf q) name = some read →
    (fs.get? ((a.directory .primary q).resolve fs.current ++ [name]) = some node ↔
      ∃ c ∈ calls, name = c.entry ∧ node = .file (c.document a))

theorem resolve_record (parsed : parseName? (baseOf q) name = some read) :
    ((a.directory .primary q).join ⟨name⟩).resolve current =
      (a.directory .primary q).resolve current ++ [name] :=
  Path.resolve_join _ (isPlain_of_parseName? (Disk.Staged.not_slash_baseOf q) parsed) current

/-- What is found for a file is what the calls made. -/
theorem Holding.found_perm (holding : a.Holding q fs calls) (turn : a.InTurn q calls) (wf : fs.WellFormed)
    (home : calls ≠ [] → ∃ dl, fs.find (a.directory .primary q) = .ok (dl, .directory)) :
    (found fs (a.directory .primary q) (baseOf q)).Perm (calls.map (·.info)) := by
  by_cases there : ∃ dl, fs.find (a.directory .primary q) = .ok (dl, .directory)
  · obtain ⟨dl, there⟩ := there
    have place := Path.locate_resolve (Files.find_ok.mp there).1
    refine (List.perm_ext_iff_of_nodup (nodup_found (Disk.Staged.not_slash_baseOf q) wf)
      (nodup_of_rising turn.infos)).mpr fun i => ?_
    rw [mem_found there, place, List.mem_map]
    constructor
    · rintro ⟨name, read, parsed, ⟨node, taken⟩, rfl⟩
      obtain ⟨c, inside, rfl, -⟩ := (holding name read node parsed).mp taken
      have shares := turn.shares c inside
      cases parsed.symm.trans ((turn.made c inside).parsed shares)
      exact ⟨c, inside, (turn.made c inside).info_eq shares⟩
    · rintro ⟨c, inside, rfl⟩
      have shares := turn.shares c inside
      have parsed := (turn.made c inside).parsed shares
      exact ⟨c.entry, _, parsed, ⟨_, (holding _ _ _ parsed).mpr ⟨c, inside, rfl, rfl⟩⟩,
        (turn.made c inside).info_eq shares⟩
  · have none : found fs (a.directory .primary q) (baseOf q) = [] :=
      List.eq_nil_iff_forall_not_mem.mpr fun i listed => there (directory_of_found listed)
    have empty : calls = [] := by_contra fun some => there (home some)
    rw [none, empty]
    exact List.Perm.refl _

/-! ### Pruning -/

theorem newestFirst_eq_reverse {infos xs : List Info} (perm : infos.Perm xs)
    (rising : xs.Pairwise fun i j => i.timestamp < j.timestamp) : newestFirst infos = xs.reverse := by
  have stamps : ∀ i ∈ xs, ∀ j ∈ xs, i.timestamp = j.timestamp → i = j := by
    have distinct : (xs.map Info.timestamp).Nodup := List.pairwise_map.mpr (rising.imp Nat.ne_of_lt)
    exact fun i inside j inside' same => List.inj_on_of_nodup_map distinct inside inside' same
  have perm' : (newestFirst infos).Perm xs := (List.mergeSort_perm _ _).trans perm
  refine List.Perm.eq_of_pairwise (fun i j inside inside' le ge => ?_) (sorted_newestFirst infos)
    (List.pairwise_reverse.mpr (rising.imp Nat.le_of_lt)) (perm'.trans (List.reverse_perm xs).symm)
  exact stamps i (perm'.mem_iff.mp inside) j (List.mem_reverse.mp inside') (Nat.le_antisymm ge le)

/-- What is not dropped is the last. -/
theorem not_mem_dropped_iff {dir : Path} {base : String} {xs : List Info} {i : Info}
    (perm : (found fs dir base).Perm xs) (rising : xs.Pairwise fun i j => i.timestamp < j.timestamp)
    (member : i ∈ xs) : i ∉ a.dropped fs dir base ↔ i ∈ latest a.cap xs := by
  unfold dropped latest
  split
  · simp [member]
  · rw [newestFirst_eq_reverse perm rising, List.drop_reverse, List.mem_reverse]
    have distinct := nodup_of_rising rising
    rw [← List.take_append_drop (xs.length - a.cap) xs] at member distinct
    have apart := (List.nodup_append.mp distinct).2.2
    constructor
    · exact (List.mem_append.mp member).resolve_left
    · exact fun late early => apart i early i late rfl

/-- In an environment that hides no directory pruning removes what is to be dropped. -/
theorem prune_drops {dir : Path} {base : String} (plain : '/' ∉ base.toList) (wf : m.files.WellFormed)
    (candid : m.environment.Candid) (ran : (a.prune dir base).run.run m = (.ok (), n)) :
    m.files.Grows n.files ∧
      ((a.dropped m.files dir base).map (·.path)).foldlM Files.remove m.files = .ok n.files := by
  have ends := (prune_holds_within (a := a) (pruning_prunes m.files dir plain) wf).run
  rw [ran] at ends
  refine ⟨ends.1.2.grows, ?_⟩
  have done := ends.2 rfl
  unfold dropped
  split at done
  · rename_i all
    rw [if_pos all, done]
    rfl
  · rename_i capped
    obtain ⟨infos, _, exactly, removed⟩ := done
    obtain rfl := exactly candid
    rwa [if_neg capped]

/-- Of what the tree held the last is left. -/
theorem Holding.pruned (holding : a.Holding q j.files calls) (turn : a.InTurn q calls)
    (full : (a.directory .primary q).text ≠ "") (wf : j.files.WellFormed) (candid : j.environment.Candid)
    {dl : Location} (there : j.files.find (a.directory .primary q) = .ok (dl, .directory))
    (ran : (a.prune (a.directory .primary q) (baseOf q)).run.run j = (.ok (), n)) :
    a.Holding q n.files (latest a.cap calls) := by
  have plain := Disk.Staged.not_slash_baseOf q
  obtain ⟨grows, removed⟩ := prune_drops plain wf candid ran
  have perm := holding.found_perm turn wf fun _ => ⟨dl, there⟩
  have place := Path.locate_resolve (Files.find_ok.mp there).1
  have listed : ∀ i ∈ a.dropped j.files (a.directory .primary q) (baseOf q),
      i ∈ found j.files (a.directory .primary q) (baseOf q) := by
    unfold dropped
    split
    · exact fun i none => nomatch none
    · exact fun i behind => mem_found_of_drop behind
  -- Whether a call is among the last can be told from its backup.
  have last : ∀ c ∈ calls, c.info ∈ latest a.cap (calls.map (·.info)) ↔ c ∈ latest a.cap calls := by
    intro c inside
    rw [← map_latest, List.mem_map]
    constructor
    · rintro ⟨d, late, same⟩
      have distinct := nodup_of_rising turn.infos
      rwa [List.inj_on_of_nodup_map distinct inside ((latest_sublist _ _).subset late) same.symm]
    · exact fun late => ⟨c, late, rfl⟩
  intro name read node parsed
  obtain ⟨gone, stays⟩ := get?_of_removed full plain there listed removed parsed
  rw [grows.1, ← place]
  rw [place] at gone stays
  constructor
  · intro taken
    have stayed : infoAt (a.directory .primary q) name read ∉
        a.dropped j.files (a.directory .primary q) (baseOf q) := by
      intro inside
      cases taken.symm.trans (place ▸ gone inside)
    rw [place, stays stayed] at taken
    obtain ⟨c, inside, rfl, same⟩ := (holding name read node parsed).mp taken
    have shares := turn.shares c inside
    cases parsed.symm.trans ((turn.made c inside).parsed shares)
    rw [← (turn.made c inside).info_eq shares,
      not_mem_dropped_iff perm turn.infos (List.mem_map_of_mem inside), last c inside] at stayed
    exact ⟨c, stayed, rfl, same⟩
  · rintro ⟨c, late, rfl, rfl⟩
    have inside := (latest_sublist _ _).subset late
    have shares := turn.shares c inside
    cases parsed.symm.trans ((turn.made c inside).parsed shares)
    have stayed := (not_mem_dropped_iff (a := a) perm turn.infos (List.mem_map_of_mem inside)).mpr
      ((last c inside).mpr late)
    rw [(turn.made c inside).info_eq shares] at stayed
    rw [place, stays stayed]
    exact (holding _ _ _ parsed).mpr ⟨c, inside, rfl, rfl⟩

/-! ### One more call -/

/-- A record of one file is none of another that shares nothing with it. -/
theorem not_isRecord_of_not_shares (other : ¬a.Shares p q) (plain : IsPlain name)
    (base : base? name = some (baseOf p).toList) :
    ¬a.IsRecord current .primary q (((a.directory .primary p).join ⟨name⟩).resolve current) := by
  rintro ⟨name', read, parsed, same⟩
  rw [resolve_record parsed, Path.resolve_join _ plain, resolve_directory, resolve_directory] at same
  obtain ⟨ways, ends⟩ := List.append_inj' same rfl
  obtain rfl := List.singleton_inj.mp ends
  have bases := base.symm.trans (base?_of_parseName? parsed)
  exact other ⟨directory_eq_iff.mpr (List.append_cancel_left ways), String.toList_injective (Option.some.inj bases)⟩

/-- The document of a new call comes to what the tree holds. -/
theorem Holding.landed (holding : a.Holding q m.files calls) (turn : a.InTurn q (calls ++ [c]))
    (landed : Landed m c.info.path (c.document a) j)
    (free : ∀ name read, parseName? (baseOf q) name = some read →
      j.files.get? ((a.directory .primary q).resolve m.files.current ++ [name]) ≠ some .directory) :
    a.Holding q j.files (calls ++ [c]) := by
  have new : c ∈ calls ++ [c] := List.mem_append_right _ List.mem_cons_self
  have made := turn.made c new
  have shares := turn.shares c new
  obtain ⟨_, d, _, there, admitted⟩ := landed
  rw [made.baseOf_eq] at there admitted
  obtain ⟨led, file, _⟩ := Files.find_ok.mp there
  have place : d ++ [c.entry] = (a.directory .primary q).resolve m.files.current ++ [c.entry] := by
    rw [Path.locate_resolve led, made.path_eq shares, admitted.2.grows.1]
    exact resolve_record (made.parsed shares)
  rw [place] at file admitted
  intro name read node parsed
  rw [admitted.2.grows.1]
  by_cases same : name = c.entry
  · subst same
    rw [file]
    constructor
    · intro stands
      exact ⟨c, new, rfl, (Option.some.inj stands).symm⟩
    · rintro ⟨d, inside, named, rfl⟩
      rw [turn.eq_of_entry inside new named.symm]
  · have unchanged : j.files.get? ((a.directory .primary q).resolve m.files.current ++ [name]) =
        m.files.get? ((a.directory .primary q).resolve m.files.current ++ [name]) := by
      have away : (a.directory .primary q).resolve m.files.current ++ [name] ≠
          (a.directory .primary q).resolve m.files.current ++ [c.entry] :=
        fun equal => same (List.singleton_inj.mp (List.append_cancel_left equal))
      have settled : ¬Disk.Staged.IsTemporary c.entry
          ((a.directory .primary q).resolve m.files.current ++ [name]) := not_isTemporary_of_parseName? parsed
      rw [← made.baseOf_eq] at settled
      exact admitted.2.get?_eq (free name read parsed) (Or.rec settled away)
        fun b => Or.rec settled fun both => away both.1
    rw [unchanged, holding name read node parsed]
    constructor
    · rintro ⟨d, inside, named, held⟩
      exact ⟨d, List.mem_append_left _ inside, named, held⟩
    · rintro ⟨d, inside, named, held⟩
      rcases List.mem_append.mp inside with old | last
      · exact ⟨d, old, named, held⟩
      · rw [List.mem_singleton.mp last] at named
        exact absurd named same

/-- A call leaves alone what the tree holds for other files. -/
theorem Holding.spared (holding : a.Holding q m.files calls) (spares : a.Spares .primary q m n)
    (same : n.files.current = m.files.current)
    (free : ∀ name read, parseName? (baseOf q) name = some read →
      n.files.get? ((a.directory .primary q).resolve m.files.current ++ [name]) ≠ some .directory) :
    a.Holding q n.files calls := by
  intro name read node parsed
  rw [same]
  cases node with
  | directory =>
    refine ⟨fun taken => absurd taken (free name read parsed), ?_⟩
    rintro ⟨_, _, _, held⟩
    cases held
  | file bytes =>
    rw [spares _ bytes ⟨name, read, parsed, (resolve_record parsed).symm⟩]
    exact holding name read _ parsed

/-- No directory comes to where the records of a file have their places. -/
theorem Holding.no_directory {base : String} (holding : a.Holding q m.files ds)
    (inside : (filing m.files.current (a.directory .primary p) base).Admits m n)
    (clear : ∀ l, (a.directory .primary p).OnWay m.files.current l → ¬a.IsRecord m.files.current .primary q l)
    (parsed : parseName? (baseOf q) name = some read) :
    n.files.get? ((a.directory .primary q).resolve m.files.current ++ [name]) ≠ some .directory := by
  intro directory
  rcases inside.2.made _ directory with before | made
  · obtain ⟨_, _, _, held⟩ := (holding name read _ parsed).mp before
    cases held
  · exact clear _ made ⟨name, read, parsed, (resolve_record parsed).symm⟩

/-! ### Calls in a series -/

/-- What else happens on a disk leaves the records and the ways to them alone. -/
structure Undisturbed (a : Archive) (fs gs : Files) : Prop where
  sound : gs.WellFormed
  current : gs.current = fs.current
  records : ∀ q l, a.IsRecord fs.current .primary q l → gs.get? l = fs.get? l
  ways : ∀ q dl, fs.find (a.directory .primary q) = .ok (dl, .directory) →
    gs.find (a.directory .primary q) = .ok (dl, .directory)

/-- Calls that succeed one after another, the first in a tree without records: with the last timestamp
and the disk after them. Each has its own environment, so the calendar can show anything. -/
inductive Series (a : Archive) : List Call → Nat → Files → Prop where
  | start {s : Nat} {fs : Files} (wf : fs.WellFormed)
      (free : ∀ q l, a.IsRecord fs.current .primary q l → fs.get? l = none) : Series a [] s fs
  | edit {calls : List Call} {s : Nat} {fs gs : Files} (before : Series a calls s fs)
      (edited : a.Undisturbed fs gs) : Series a calls s gs
  | call {calls : List Call} {c : Call} {s t : Nat} {m n : Machine} (before : Series a calls s m.files)
      (tidy : m.environment.Tidy) (candid : m.environment.Candid)
      (there : m.files.read c.path = .ok c.text.toUTF8)
      (ran : ((a.create .primary c.path c.operation).run.run s).run m = ((.ok c.info, t), n)) :
      Series a (calls ++ [c]) t n.files

/-- What holds after every call. -/
structure Orderly (a : Archive) (calls : List Call) (s : Nat) (fs : Files) : Prop where
  sound : fs.WellFormed
  made : ∀ c ∈ calls, c.Made a
  early : ∀ c ∈ calls, c.info.timestamp ≤ s
  rising : calls.Pairwise fun c d => c.info.timestamp < d.info.timestamp
  led : ∀ c ∈ calls, (a.directory .primary c.path).text ≠ "" → ∃ l, fs.locate c.info.path = .ok l
  holding : ∀ q, (a.directory .primary q).text ≠ "" → ¬a.Mistaken fs.current calls q →
    a.Holding q fs (a.kept calls q)

theorem inTurn_filter (made : ∀ c ∈ calls, c.Made a)
    (rising : calls.Pairwise fun c d => c.info.timestamp < d.info.timestamp) (q : Path) :
    a.InTurn q (calls.filter fun c => a.Shares c.path q) where
  made c member := made c (List.mem_filter.mp member).1
  shares _ member := of_decide_eq_true (List.mem_filter.mp member).2
  rising := rising.filter _

theorem Orderly.inTurn (orderly : a.Orderly calls s fs) (q : Path) : a.InTurn q (a.kept calls q) :=
  (inTurn_filter orderly.made orderly.rising q).sublist (latest_sublist _ _)

/-- What leads to a backup leads through the directory of the backups. -/
theorem Call.Made.home (made : c.Made a) (full : (a.directory .primary c.path).text ≠ "")
    (led : fs.locate c.info.path = .ok l) :
    ∃ dl, fs.find (a.directory .primary c.path) = .ok (dl, .directory) ∧ Files.Fits c.entry := by
  rw [made.path_eq ⟨rfl, rfl⟩] at led
  obtain ⟨dl, led', directory, fits, _⟩ := (Files.locate_join full c.isPlain_entry).mp led
  exact ⟨dl, Files.find_ok.mpr ⟨led', directory, fun no => absurd rfl no⟩, fits⟩

theorem Orderly.home_kept (orderly : a.Orderly calls s fs) (full : (a.directory .primary q).text ≠ "")
    (some : a.kept calls q ≠ []) : ∃ dl, fs.find (a.directory .primary q) = .ok (dl, .directory) := by
  obtain ⟨c, member⟩ := List.exists_mem_of_ne_nil _ some
  have shares := (orderly.inTurn q).shares c member
  have inside := List.mem_of_mem_filter ((latest_sublist _ _).subset member)
  rw [← shares.1] at full ⊢
  obtain ⟨l, led⟩ := orderly.led c inside full
  obtain ⟨dl, there, _⟩ := (orderly.made c inside).home full led
  exact ⟨dl, there⟩

theorem orderly_start (wf : fs.WellFormed)
    (free : ∀ q l, a.IsRecord fs.current .primary q l → fs.get? l = none) : a.Orderly [] s fs where
  sound := wf
  made := nofun
  early := nofun
  rising := List.Pairwise.nil
  led := nofun
  holding q _ _ := by
    intro name read node parsed
    rw [free q _ ⟨name, read, parsed, (resolve_record parsed).symm⟩]
    refine ⟨nofun, ?_⟩
    rintro ⟨c, member, _⟩
    cases (latest_sublist _ _).subset member

theorem Orderly.edit (orderly : a.Orderly calls s fs) (edited : a.Undisturbed fs gs) :
    a.Orderly calls s gs where
  sound := edited.sound
  made := orderly.made
  early := orderly.early
  rising := orderly.rising
  led c member full := by
    obtain ⟨l, led⟩ := orderly.led c member full
    obtain ⟨dl, there, fits⟩ := (orderly.made c member).home full led
    obtain ⟨led', directory, _⟩ := Files.find_ok.mp (edited.ways _ dl there)
    rw [(orderly.made c member).path_eq ⟨rfl, rfl⟩]
    exact ⟨_, (Files.locate_join full c.isPlain_entry).mpr ⟨dl, led', directory, fits, rfl⟩⟩
  holding q full clear := by
    rw [edited.current] at clear
    intro name read node parsed
    rw [edited.current, edited.records q _ ⟨name, read, parsed, (resolve_record parsed).symm⟩]
    exact orderly.holding q full clear name read node parsed

/-- The parts of a call that succeeds. -/
structure Ran (a : Archive) (c : Call) (m : Machine) (s t : Nat) (j n : Machine) : Prop where
  made : c.Made a
  dated : c.info.timestamp = t
  later : s < t
  landed : Landed m c.info.path (c.document a) j
  pruned : (a.prune (a.directory .primary c.path) (baseOf c.path)).run.run j = (.ok (), n)
  filed : (filing m.files.current (a.directory .primary c.path) (baseOf c.path)).Admits m n
  spares : ∀ q, ¬a.Shares c.path q → a.Spares .primary q m n

theorem ran_of_create (wf : m.files.WellFormed) (tidy : m.environment.Tidy) (fits : t < 2 ^ 64)
    (there : m.files.read c.path = .ok c.text.toUTF8)
    (ran : ((a.create .primary c.path c.operation).run.run s).run m = ((.ok c.info, t), n)) :
    ∃ j, a.Ran c m s t j n := by
  obtain ⟨text, k, j, created⟩ := create_parts ⟨ran, rfl⟩
  obtain rfl := text_of_read created.read there
  have dated : c.info.timestamp = t := by rw [created.shown]; rfl
  have wf' : k.files.WellFormed := by rw [created.same.1]; exact wf
  have tidy' : k.environment.Tidy := by rw [created.same.2]; exact tidy
  have landed := (created.replaced.holds (Disk.Staged.replace_holds wf' tidy')).2.1 rfl
  have filed := ((within_create m.files.current a .primary c.path c.operation s).holds wf tidy
    (Scope.Admits.refl _ m)).run
  rw [ran] at filed
  refine ⟨j, ⟨dated ▸ created.shown, dated ▸ fits⟩, dated, created.dated.later, ?_, created.pruned, filed.1,
    fun q other => ?_⟩
  · rw [Call.document, document, dated]
    exact landed.of_same created.same.1 created.same.2
  · have covers : Covers (a.sparing m.files.current .primary q) m.files (a.directory .primary c.path)
        (baseOf c.path) s := sparing_covers m.files fun name => not_isRecord_of_not_shares other
    exact spares_of_admits ((create_holds_within covers wf tidy).ends ran).1

namespace Ran

variable (ran : a.Ran c m s t j n)

include ran

theorem sound (wf : m.files.WellFormed) : j.files.WellFormed := by
  obtain ⟨_, d, _, _, admitted⟩ := ran.landed
  exact admitted.2.sound wf

theorem candid (candid : m.environment.Candid) : j.environment.Candid := by
  obtain ⟨_, d, _, _, admitted⟩ := ran.landed
  exact admitted.1 ▸ candid

theorem grows (wf : m.files.WellFormed) (candid : m.environment.Candid) : j.files.Grows n.files :=
  (prune_drops (Disk.Staged.not_slash_baseOf c.path) (ran.sound wf) (ran.candid candid) ran.pruned).1

theorem led : ∃ l, j.files.locate c.info.path = .ok l := by
  obtain ⟨_, d, _, there, _⟩ := ran.landed
  exact ⟨_, (Files.find_ok.mp there).1⟩

end Ran

theorem Orderly.call (orderly : a.Orderly calls s m.files) (ran : a.Ran c m s t j n)
    (candid : m.environment.Candid) : a.Orderly (calls ++ [c]) t n.files := by
  have grows := ran.grows orderly.sound candid
  have made : ∀ d ∈ calls ++ [c], d.Made a := by
    intro d member
    rcases List.mem_append.mp member with old | new
    · exact orderly.made d old
    · exact List.mem_singleton.mp new ▸ ran.made
  have rising : (calls ++ [c]).Pairwise fun c d => c.info.timestamp < d.info.timestamp := by
    refine List.pairwise_append.mpr ⟨orderly.rising, List.pairwise_singleton _ _, fun d old e new => ?_⟩
    rw [List.mem_singleton.mp new, ran.dated]
    exact Nat.lt_of_le_of_lt (orderly.early d old) ran.later
  refine ⟨ran.filed.2.sound orderly.sound, made, fun d member => ?_, rising, fun d member full => ?_,
    fun q full clear => ?_⟩
  · rcases List.mem_append.mp member with old | new
    · exact Nat.le_trans (orderly.early d old) (Nat.le_of_lt ran.later)
    · rw [List.mem_singleton.mp new, ran.dated]
  · rcases List.mem_append.mp member with old | new
    · obtain ⟨l, led⟩ := orderly.led d old full
      exact ⟨l, ran.filed.2.grows.locate led⟩
    · rw [List.mem_singleton.mp new]
      obtain ⟨l, led⟩ := ran.led
      exact ⟨l, grows.locate led⟩
  · rw [ran.filed.2.grows.1] at clear
    have held := orderly.holding q full fun ⟨d, old, mistaken⟩ => clear ⟨d, List.mem_append_left _ old, mistaken⟩
    have free : ∀ name read, parseName? (baseOf q) name = some read →
        n.files.get? ((a.directory .primary q).resolve m.files.current ++ [name]) ≠ some .directory :=
      fun name read => held.no_directory ran.filed fun l way record =>
        clear ⟨c, List.mem_append_right _ List.mem_cons_self, l, way, record⟩
    by_cases shares : a.Shares c.path q
    · rw [kept_append_of_shares shares]
      have turn : a.InTurn q (a.kept calls q ++ [c]) := by
        refine (inTurn_filter made rising q).sublist ?_
        rw [List.filter_append, List.filter_singleton, decide_eq_true shares]
        exact (latest_sublist _ _).append (List.Sublist.refl _)
      obtain ⟨l, led⟩ := ran.led
      obtain ⟨dl, there, _⟩ := ran.made.home (shares.1 ▸ full) led
      have pruned := ran.pruned
      rw [shares.1] at there pruned
      rw [shares.2] at pruned
      have landed := held.landed turn ran.landed fun name read parsed directory =>
        free name read parsed (grows.2 _ directory)
      exact landed.pruned turn full (ran.sound orderly.sound) (ran.candid candid) there pruned
    · rw [kept_append_of_not_shares shares]
      exact held.spared (ran.spares q shares) ran.filed.2.grows.1 free

theorem orderly_of_series (series : a.Series calls s fs) (fits : s < 2 ^ 64) : a.Orderly calls s fs := by
  induction series with
  | start wf free => exact orderly_start wf free
  | edit before edited ih => exact (ih fits).edit edited
  | call before tidy candid there ran ih =>
    obtain ⟨_, _, _, created⟩ := create_parts ⟨ran, rfl⟩
    have orderly := ih (Nat.lt_trans created.dated.later fits)
    obtain ⟨j, parts⟩ := ran_of_create orderly.sound tidy fits there ran
    exact orderly.call parts candid

/-! ### The law -/

theorem scan_finds {dir : Path} {base : String} {infos : List Info} (candid : m.environment.Candid)
    (ran : (scan dir base).run.run m = (.ok infos, n)) : infos = found m.files dir base := by
  have scanned : (scan dir base).run.Holds (fun _ => True) (fun r k => k.files = m.files ∧
      k.environment = m.environment ∧ ∀ infos, r = .ok infos → (infos = [] ∨ infos = found m.files dir base) ∧
        (m.environment.Candid → infos = found m.files dir base)) m :=
    scan_holds (fun _ _ _ _ _ => trivial) trivial
  have ends := scanned.run
  rw [ran] at ends
  exact (ends.2.2.2 infos rfl).2 candid

/-- Without a fault a directory that is there is scanned. -/
theorem scan_succeeds {dir : Path} {dl : Location} (base : String)
    (healthy : m.environment.fault m.steps = none) (there : m.files.find dir = .ok (dl, .directory)) :
    ∃ infos n, (scan dir base).run.run m = (.ok infos, n) := by
  have steady : Disk.Steady fun _ => True := fun _ _ _ _ _ => trivial
  have finds : (scan dir base).run.Holds (fun _ => True) (fun r _ => ∃ infos, r = .ok infos) m := by
    refine Disk.Job.holds_bind (Q := fun r _ => ∃ names, r = .ok (.ok names))
      (Disk.Job.holds_lift ((Program.holds_list steady trivial).mono (fun _ => id) ?_)) ?_
      (fun _ _ _ post => nomatch post)
    · rintro r k _ ⟨_, _, answered⟩
      rcases answered with same | ⟨fault, broken, _⟩
      · exact ⟨m.files.namesIn dl, by rw [same, list_ok.mpr ⟨dl, there, rfl⟩]⟩
      · rw [healthy] at broken
        cases broken
    · rintro r k _ ⟨names, same⟩
      cases same
      exact Disk.Job.holds_pure.mpr ⟨trivial, _, rfl⟩
  obtain ⟨_, infos, done⟩ := finds.run
  exact ⟨infos, _, Prod.ext done rfl⟩

/-- What a call made is on record as long as it is kept. -/
theorem Orderly.onRecord (orderly : a.Orderly calls s fs) (full : (a.directory .primary q).text ≠ "")
    (clear : ¬a.Mistaken fs.current calls q) (member : c ∈ a.kept calls q) :
    OnRecord a c.path c.operation c.text c.info fs := by
  have shares := (orderly.inTurn q).shares c member
  have inside := List.mem_of_mem_filter ((latest_sublist _ _).subset member)
  have made := orderly.made c inside
  have parsed := made.parsed shares
  obtain ⟨l, led⟩ := orderly.led c inside (by rwa [shares.1])
  have held := (orderly.holding q full clear _ _ _ parsed).mpr ⟨c, member, rfl, rfl⟩
  have place : l = (a.directory .primary q).resolve fs.current ++ [c.entry] := by
    rw [Path.locate_resolve led, made.path_eq shares]
    exact resolve_record parsed
  have slash : Files.endsInSlash c.info.path = false := by
    rw [made.path_eq shares]
    exact Path.endsInSlash_join _ c.isPlain_entry
  rw [← place] at held
  exact ⟨Files.read_ok.mpr ⟨l, Files.find_ok.mpr ⟨led, held, fun _ => slash⟩⟩,
    Record.ofText_text_of_lt made.fits, Record.isIntact_ofContent _ _ _ _, congrArg Info.hash made.shown⟩

/-- The calls of a series are dated in turn. What a scan finds for a file are the backups of its last
calls, as many as the archive keeps, and all of them are on record, unless a directory of the tree has a
name of one of its backups. -/
theorem newest_kept (series : a.Series calls s fs) (fits : s < 2 ^ 64) :
    (calls.Pairwise fun c d => c.info.timestamp < d.info.timestamp) ∧
    ∀ q, (a.directory .primary q).text ≠ "" → ¬a.Mistaken fs.current calls q →
      (∀ infos m n, m.files = fs → m.environment.Candid →
        (scan (a.directory .primary q) (baseOf q)).run.run m = (.ok infos, n) →
          infos.Perm ((a.kept calls q).map (·.info))) ∧
      (∀ m, m.files = fs → m.environment.fault m.steps = none → (∃ c ∈ calls, a.Shares c.path q) →
        ∃ infos n, (scan (a.directory .primary q) (baseOf q)).run.run m = (.ok infos, n)) ∧
      ∀ c ∈ a.kept calls q, OnRecord a c.path c.operation c.text c.info fs := by
  have orderly := orderly_of_series series fits
  refine ⟨orderly.rising, fun q full clear => ⟨?_, ?_, fun c member => orderly.onRecord full clear member⟩⟩
  · rintro infos m n rfl candid ran
    rw [scan_finds candid ran]
    exact (orderly.holding q full clear).found_perm (orderly.inTurn q) orderly.sound
      (orderly.home_kept full)
  · rintro m rfl healthy ⟨c, member, shares⟩
    have some : a.kept calls q ≠ [] := by
      refine latest_ne_nil (List.ne_nil_of_mem (a := c) ?_)
      exact List.mem_filter.mpr ⟨member, decide_eq_true shares⟩
    obtain ⟨dl, there⟩ := orderly.home_kept full some
    exact scan_succeeds (baseOf q) healthy there

open Pipeline (smallMachine stillness stillness_calm)

theorem create_roomyArchive : (((roomyArchive.create .primary ⟨"/a.json"⟩ "manual").run.run 0).run
      (smallMachine "a.json" "1")).1.1.toOption.isSome = true ∧
    (((roomyArchive.create .primary ⟨"/a.json"⟩ "manual").run.run 0).run
      (smallMachine "a.json" "1")).1.2 < 2 ^ 64 := by
  unfold Archive.create Archive.prune
  simp only [Pipeline.newestFirst_eq]
  decide +kernel

theorem newest_kept_small : ∃ c t n, roomyArchive.Series [c] t n ∧ t < 2 ^ 64 ∧
    (roomyArchive.directory .primary ⟨"/a.json"⟩).text ≠ "" ∧ ¬roomyArchive.Mistaken n.current [c] ⟨"/a.json"⟩ ∧
    (∀ infos m k, m.files = n → m.environment.Candid →
      (scan ⟨"/bk"⟩ "a.json").run.run m = (.ok infos, k) → infos.Perm [c.info]) ∧
    OnRecord roomyArchive ⟨"/a.json"⟩ "manual" "1" c.info n := by
  have place : roomyArchive.directory .primary ⟨"/a.json"⟩ = ⟨"/bk"⟩ ∧ baseOf ⟨"/a.json"⟩ = "a.json" ∧
      (⟨"/bk"⟩ : Path).resolve [] = ["bk"] ∧ (⟨"/bk"⟩ : Path).components = [.root, .name "bk"] ∧
      (smallMachine "a.json" "1").files.read ⟨"/a.json"⟩ = .ok "1".toUTF8 := by
    decide +kernel
  obtain ⟨directory, base, meant, components, there⟩ := place
  have full : (roomyArchive.directory .primary ⟨"/a.json"⟩).text ≠ "" := by
    rw [directory]
    decide
  have wf : (smallMachine "a.json" "1").files.WellFormed := Pipeline.smallMachine_wellFormed
  have free : ∀ q l, roomyArchive.IsRecord [] .primary q l → (smallMachine "a.json" "1").files.get? l = none := by
    rintro q l ⟨name, read, parsed, rfl⟩
    rw [resolve_record parsed, resolve_directory]
    show (smallMachine "a.json" "1").files.get? ((⟨"/bk"⟩ : Path).resolve [] ++ _ ++ [name]) = none
    rw [meant]
    simp [Files.get?, smallMachine, List.lookup_cons]
  obtain ⟨done, early⟩ := create_roomyArchive
  generalize ran : ((roomyArchive.create .primary ⟨"/a.json"⟩ "manual").run.run 0).run
    (smallMachine "a.json" "1") = r at done early
  obtain ⟨⟨r, t⟩, n⟩ := r
  cases r with
  | error e => cases done
  | ok info =>
    have series : roomyArchive.Series ([] ++ [⟨⟨"/a.json"⟩, "manual", "1", info⟩]) t n.files :=
      .call (.start wf free) stillness_calm.tidy (fun i fault broken => by cases broken) there ran
    have here : n.files.current = [] := ((create_holds wf stillness_calm.tidy).ends ran).1.2.grows.1
    have clear : ¬roomyArchive.Mistaken n.files.current [⟨⟨"/a.json"⟩, "manual", "1", info⟩] ⟨"/a.json"⟩ := by
      rintro ⟨c, member, l, ⟨cs, front, way⟩, name, read, parsed, same⟩
      rw [List.mem_singleton.mp member] at front way
      rw [here, directory] at way
      rw [directory, components, List.prefix_cons_iff] at front
      rw [resolve_record parsed, here, directory, meant] at same
      -- The way has no more steps than the root of the tree, and a record lies deeper.
      rcases front with rfl | ⟨ds, rfl, front⟩
      · cases way.symm.trans same
      rcases List.prefix_cons_iff.mp front with rfl | ⟨es, rfl, none⟩
      · cases way.symm.trans same
      · rw [List.prefix_nil.mp none] at way
        cases way.symm.trans same
    obtain ⟨_, law⟩ := newest_kept series early
    obtain ⟨found, _, record⟩ := law ⟨"/a.json"⟩ full clear
    have all : roomyArchive.kept ([] ++ [⟨⟨"/a.json"⟩, "manual", "1", info⟩]) ⟨"/a.json"⟩ =
        [⟨⟨"/a.json"⟩, "manual", "1", info⟩] := by
      rw [kept_append_of_shares ⟨rfl, rfl⟩]
      rfl
    rw [directory, base, all] at found
    rw [all] at record
    exact ⟨_, t, n.files, series, early, full, clear, found, record _ List.mem_cons_self⟩

/-- A machine with a file and a directory that has a name of a backup of it. -/
def namedAlike : Machine where
  files := ⟨[(["a.js"], .file "1".toUTF8), (["a.js.9999999999999.0123456789abcdef"], .directory),
    (["a.js.9999999999999.0123456789abcdef", "x.js"], .file "2".toUTF8)], []⟩
  environment := stillness

/-- The directory of the backups of one file counts as a backup of another, and the new backup of that is
removed for it. -/
theorem directory_counted :
    let a := { roomyArchive with cap := 1 }
    let first := ((a.create .primary ⟨"/a.js.9999999999999.0123456789abcdef/x.js"⟩ "manual").run.run 0).run
      namedAlike
    let second := ((a.create .primary ⟨"/a.js"⟩ "manual").run.run first.1.2).run first.2
    let listed := (scan (a.directory .primary ⟨"/a.js"⟩) "a.js").run.run second.2
    namedAlike.files.WellFormed ∧ namedAlike.environment.Calm ∧
    first.1.1.toOption.isSome = true ∧
    second.1.1.toOption.map (·.path) = some ⟨"/bk/a.js.2.65cd25028f98f158"⟩ ∧
    second.2.files.kindAt ⟨"/bk/a.js.2.65cd25028f98f158"⟩ = none ∧
    listed.1.toOption.map (fun infos => infos.map (·.path)) =
      some [⟨"/bk/a.js.9999999999999.0123456789abcdef"⟩] := by
  refine ⟨.of_nodes (by decide) (by decide) rfl, stillness_calm, ?_⟩
  unfold Archive.create Archive.prune
  simp only [Pipeline.newestFirst_eq]
  decide +kernel

end SourceRepair.Backup.Archive
