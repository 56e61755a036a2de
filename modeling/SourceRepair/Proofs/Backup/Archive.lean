import SourceRepair.Proofs.Backup.Names
import SourceRepair.Proofs.Backup.Record

/-!
# Writing with backups and restoring

What the archive does in every environment. `Archive.write_holds` says what may change at any moment
of a write and what a write that succeeds has done, `Archive.restore_holds` the same for a restore.
-/

namespace SourceRepair.Backup

open Disk (Program Staged Job Machine Files Scope Location IsNonce)
open Disk.Staged (staging replacing Landed Ready IsTemporary temporaryName baseOf)

/-! ### Dated work -/

namespace Dated

variable {α β : Type} {I : Machine → Prop} {m : Machine} {s : Nat}

/-- The invariant `I` holds at every moment of some work from the last timestamp `s` on, and `Q` of its
result, the last timestamp and the machine at its end. -/
def Holds (I : Machine → Prop) (Q : Except Failure α → Nat → Machine → Prop) (x : Dated α) (s : Nat)
    (m : Machine) : Prop :=
  Program.HoldsFrom I Q x.run s m

variable {Q : Except Failure α → Nat → Machine → Prop}

theorem holds_bind {x : Dated α} {f : α → Dated β} {R : Except Failure β → Nat → Machine → Prop}
    (first : Holds I Q x s m) (next : ∀ a t n, I n → Q (.ok a) t n → Holds I R (f a) t n)
    (failed : ∀ e t n, I n → Q (.error e) t n → R (.error e) t n) : Holds I R (x >>= f) s m := by
  rw [Holds, ExceptT.run_bind]
  refine Program.holdsFrom_bind first fun r t n i q => ?_
  cases r with
  | ok a => exact next a t n i q
  | error e => exact Program.holdsFrom_pure.mpr ⟨i, failed e t n i q⟩

theorem holds_mono {J : Machine → Prop} {R : Except Failure α → Nat → Machine → Prop} {x : Dated α}
    (h : Holds I Q x s m) (inv : ∀ n, I n → J n) (post : ∀ r t n, I n → Q r t n → R r t n) :
    Holds J R x s m :=
  Program.holdsFrom_mono h inv post

/-- What holds at the end of a run. -/
theorem Holds.ends {x : Dated α} {r : Except Failure α} {t : Nat} {n : Machine} (h : Holds I Q x s m)
    (ran : (x.run.run s).run m = ((r, t), n)) : I n ∧ Q r t n := by
  have ends := Program.Holds.run h
  rwa [ran] at ends

theorem holds_ofJob {job : Job α} (h : job.run.Holds I (fun r n => Q r s n) m) :
    Holds I Q (ofJob job) s m :=
  Program.holdsFrom_lift h

theorem holds_pure {a : α} : Holds I Q (pure a) s m ↔ I m ∧ Q (.ok a) s m := Program.holdsFrom_pure

theorem holds_state {p : StateT Nat Program α}
    (h : Program.HoldsFrom I (fun a t n => Q (.ok a) t n) p s m) : Holds I Q (liftM p) s m := by
  show Program.HoldsFrom I Q (ExceptT.lift p : Dated α).run s m
  rw [ExceptT.run_lift, map_eq_pure_bind]
  exact Program.holdsFrom_bind h fun _ _ _ i q => Program.holdsFrom_pure.mpr ⟨i, q⟩

theorem holds_lift {p : Program α} (h : p.Holds I (fun a n => Q (.ok a) s n) m) :
    Holds I Q (liftM p) s m :=
  holds_state (p := StateT.lift p) (Program.holdsFrom_lift h)

end Dated

namespace Archive

variable {I : Machine → Prop} {m n : Machine} {s : Nat} {base : String} {dir p : Path}

/-! ### Looking for backups -/

/-- The backups of a name in a directory of a disk, in no order. -/
def found (fs : Files) (dir : Path) (base : String) : List Info :=
  match fs.list dir with
  | .ok names => names.filterMap fun name =>
    (parseName? base name).map fun (timestamp, hash) => ⟨dir.join ⟨name⟩, timestamp, hash⟩
  | .error _ => []

/-- A backup that is found has a name that tells its timestamp and its digest. -/
theorem name_of_found {fs : Files} {i : Info} (member : i ∈ found fs dir base) :
    ∃ name, i.path = dir.join ⟨name⟩ ∧ parseName? base name = some (i.timestamp, i.hash) := by
  unfold found at member
  split at member
  · obtain ⟨name, _, shown⟩ := List.mem_filterMap.mp member
    obtain ⟨read, parsed, rfl⟩ := Option.map_eq_some_iff.mp shown
    exact ⟨name, rfl, parsed⟩
  · cases member

theorem scan_holds (steady : Disk.Steady I) (inv : I n) :
    (scan dir base).run.Holds I (fun r k => k.files = n.files ∧ k.environment = n.environment ∧
      ∀ infos, r = .ok infos → (infos = [] ∨ infos = found n.files dir base) ∧
        (n.environment.Candid → infos = found n.files dir base)) n := by
  refine Job.holds_bind (Q := fun r k => k.files = n.files ∧ k.environment = n.environment ∧
    ∀ names, r = .ok names → n.Answers (n.files.list dir) names)
    (Job.holds_lift ((Program.holds_list steady inv).mono (fun _ i => i) ?_)) ?_
    (fun e k _ answer => ⟨answer.1, answer.2.1, nofun⟩)
  · rintro r k _ ⟨files, environment, answered⟩
    refine ⟨files, environment, fun names same => ?_⟩
    cases same
    exact answered
  rintro r k inv ⟨files, environment, answered⟩
  have answered := answered r rfl
  cases r with
  | error fault =>
    dsimp only
    split
    · rename_i absent
      refine Job.holds_pure.mpr ⟨inv, files, environment, fun infos same => ?_⟩
      cases same
      refine ⟨.inl rfl, fun candid => ?_⟩
      rcases answered with same | ⟨fault', broken, failed⟩
      · rw [found, ← same]
      · cases failed
        exact absurd (eq_of_beq absent) (candid _ fault broken)
    · exact Job.holds_throw.mpr ⟨inv, files, environment, nofun⟩
  | ok names =>
    refine Job.holds_pure.mpr ⟨inv, files, environment, fun infos same => ?_⟩
    cases same
    rcases answered with same | ⟨fault, _, failed⟩
    · have all : names.filterMap (fun name => (parseName? base name).map fun (timestamp, hash) =>
          (⟨dir.join ⟨name⟩, timestamp, hash⟩ : Info)) = found n.files dir base := by
        rw [found, ← same]
      exact ⟨.inr all, fun _ => all⟩
    · cases failed

/-! ### Pruning -/

/-- The files with names of backups of a file. -/
def pruning (base : String) : Scope where
  lose l := ∃ d name read, l = d ++ [name] ∧ parseName? base name = some read
  gain _ _ := False
  make _ := False

theorem removeAll_holds {u : Scope} {infos : List Info} (wf : m.files.WellFormed) (inv : u.Admits m n)
    (lost : ∀ i ∈ infos, ∀ gs l, m.files.Grows gs → gs.locate i.path = .ok l → u.lose l) :
    (infos.forM fun i => Job.ofFault i.path (Program.remove i.path) : Job Unit).run.Holds (u.Admits m)
      (fun r k => r = .ok () → (infos.map (·.path)).foldlM Files.remove n.files = .ok k.files) n := by
  induction infos generalizing n with
  | nil => exact Job.holds_pure.mpr ⟨inv, fun _ => rfl⟩
  | cons i rest ih =>
    refine Job.holds_bind (Q := fun r k => r = .ok () → n.files.remove i.path = .ok k.files)
      (Job.holds_ofFault ((Program.holds_remove inv fun gs => Scope.allows_remove (inv.2.sound wf)
        fun l => lost i List.mem_cons_self _ l inv.2.grows).mono (fun _ i => i) ?_)) ?_
      (fun e k _ _ => nofun)
    · rintro r k _ (⟨_, rfl, done⟩ | ⟨fault, rfl, _⟩)
      · exact fun _ => done
      · exact nofun
    intro _ k inv removed
    refine (ih inv fun j member => lost j (List.mem_cons_of_mem _ member)).mono (fun _ i => i) ?_
    intro r j _ rest done
    rw [List.map_cons, List.foldlM_cons, removed rfl]
    exact rest done

/-- The newest backups are kept, as far as they were found. -/
def Pruned (a : Archive) (dir : Path) (base : String) (m n : Machine) : Prop :=
  (pruning base).Admits m n ∧
  if a.cap = 0 then n.files = m.files
  else ∃ infos, (infos = [] ∨ infos = found m.files dir base) ∧
    ((∀ i, m.environment.fault i = none) → infos = found m.files dir base) ∧
    (((newestFirst infos).drop a.cap).map (·.path)).foldlM Files.remove m.files = .ok n.files

/-- The backups of a name in a directory may be lost in the scope. -/
def Prunes (u : Scope) (fs : Files) (dir : Path) (base : String) : Prop :=
  ∀ name read gs l, fs.Grows gs → parseName? base name = some read →
    gs.locate (dir.join ⟨name⟩) = .ok l → u.lose l

theorem pruning_prunes (fs : Files) (dir : Path) (plain : '/' ∉ base.toList) :
    Prunes (pruning base) fs dir base := by
  intro name read gs l _ parsed led
  have plain := isPlain_of_parseName? plain parsed
  obtain ⟨d, rfl, _⟩ := Files.locate_plain (Path.piecesOf_join dir plain) plain led
  exact ⟨d, name, read, rfl, parsed⟩

/-- Pruning stays in every scope in which the backups may be lost. -/
theorem prune_holds_within {a : Archive} {u : Scope} (prunes : Prunes u m.files dir base)
    (wf : m.files.WellFormed) :
    (a.prune dir base).run.Holds (u.Admits m)
      (fun r k => r = .ok () → if a.cap = 0 then k.files = m.files
        else ∃ infos, (infos = [] ∨ infos = found m.files dir base) ∧
          (m.environment.Candid → infos = found m.files dir base) ∧
          (((newestFirst infos).drop a.cap).map (·.path)).foldlM Files.remove m.files = .ok k.files) m := by
  have start := Scope.Admits.refl u m
  unfold prune
  split
  · exact Job.holds_pure.mpr ⟨start, fun _ => rfl⟩
  · refine Job.holds_bind (scan_holds (Scope.steady _ m) start) ?_ (fun e k _ _ => nofun)
    rintro infos k inv ⟨files, environment, scanned⟩
    obtain ⟨either, candid⟩ := scanned infos rfl
    have lost : ∀ i ∈ (newestFirst infos).drop a.cap, ∀ gs l, m.files.Grows gs →
        gs.locate i.path = .ok l → u.lose l := by
      intro i member gs l grows led
      have inside : i ∈ infos := List.mem_mergeSort.mp (List.mem_of_mem_drop member)
      rcases either with none | same
      · rw [none] at inside
        cases inside
      · obtain ⟨name, path, parsed⟩ := name_of_found (same ▸ inside)
        exact prunes name _ gs l grows parsed (path ▸ led)
    refine (removeAll_holds wf inv lost).mono (fun _ i => i) fun r j inv removed done => ?_
    exact ⟨infos, either, candid, files ▸ removed done⟩

/-- Pruning loses nothing but backups of the file. -/
theorem prune_holds {a : Archive} (plain : '/' ∉ base.toList) (wf : m.files.WellFormed) :
    (a.prune dir base).run.Holds ((pruning base).Admits m)
      (fun r k => r = .ok () → Pruned a dir base m k) m :=
  (prune_holds_within (pruning_prunes m.files dir plain) wf).mono (fun _ i => i) fun _ _ inv rest done => by
    refine ⟨inv, ?_⟩
    have rest := rest done
    split at rest
    · rename_i all
      rwa [if_pos all]
    · rename_i capped
      obtain ⟨infos, either, candid, removed⟩ := rest
      rw [if_neg capped]
      exact ⟨infos, either, fun healthy => candid fun i fault broken => by simp [healthy] at broken, removed⟩

/-! ### Making a backup -/

/-- The name of a backup of a file that would be made now. -/
def backupPath (dir : Path) (base : String) (t : Nat) (hash : String) : Path :=
  dir.join ⟨fileName base t hash⟩

/-- What making a backup later than `s` may change. -/
def backing (dir : Path) (base : String) (s : Nat) : Scope where
  lose l := (∃ t hash fs bytes, s < t ∧ IsDigest hash ∧
    (replacing fs (backupPath dir base t hash) bytes).lose l) ∨ (pruning base).lose l
  gain l b := ∃ t hash fs bytes, s < t ∧ IsDigest hash ∧
    (replacing fs (backupPath dir base t hash) bytes).gain l b
  make l := ∃ t hash fs bytes, s < t ∧ IsDigest hash ∧
    (replacing fs (backupPath dir base t hash) bytes).make l

theorem pruning_le_backing : (pruning base).Le (backing dir base s) :=
  ⟨fun _ => .inr, fun _ _ => False.elim, fun _ => False.elim⟩

theorem replacing_le_backing {t : Nat} {hash : String} {fs : Files} {bytes : ByteArray} (later : s < t)
    (digest : IsDigest hash) :
    (replacing fs (backupPath dir base t hash) bytes).Le (backing dir base s) :=
  ⟨fun _ h => .inl ⟨t, hash, fs, bytes, later, digest, h⟩,
    fun _ _ h => ⟨t, hash, fs, bytes, later, digest, h⟩,
    fun _ h => ⟨t, hash, fs, bytes, later, digest, h⟩⟩

theorem baseOf_backupPath {t : Nat} {hash : String} (plain : '/' ∉ base.toList) (digest : IsDigest hash) :
    baseOf (backupPath dir base t hash) = fileName base t hash := by
  have named := isPlain_fileName (t := t) plain digest
  exact Staged.baseOf_eq (Path.fileName?_of_pieces (Path.piecesOf_join dir named) named)

/-- The name is one for a backup later than `s`, or for a temporary file of such a backup. -/
def Later (base : String) (s : Nat) (name : String) : Prop :=
  ∃ t hash, s < t ∧ IsDigest hash ∧
    (name = fileName base t hash ∨ ∃ nonce, name = temporaryName (fileName base t hash) nonce)

theorem later_of_replacing {t : Nat} {hash name : String} {fs : Files} {bytes : ByteArray}
    {d : Location} (plain : '/' ∉ base.toList) (later : s < t) (digest : IsDigest hash)
    (lost : (replacing fs (backupPath dir base t hash) bytes).lose (d ++ [name])) : Later base s name := by
  refine ⟨t, hash, later, digest, ?_⟩
  rcases lost with ⟨d', nonce, _, same⟩ | ⟨⟨d', same⟩, _⟩
  · rw [baseOf_backupPath plain digest] at same
    exact .inr ⟨nonce, List.singleton_inj.mp (List.append_inj_right' same rfl)⟩
  · rw [baseOf_backupPath plain digest] at same
    exact .inl (List.singleton_inj.mp (List.append_inj_right' same rfl))

theorem lose_backing {name : String} {d : Location} (plain : '/' ∉ base.toList)
    (lost : (backing dir base s).lose (d ++ [name])) :
    Later base s name ∨ ∃ read, parseName? base name = some read := by
  rcases lost with ⟨t, hash, fs, bytes, later, digest, lost⟩ | ⟨d', name', read, same, parsed⟩
  · exact .inl (later_of_replacing plain later digest lost)
  · obtain rfl := List.singleton_inj.mp (List.append_inj_right' same rfl)
    exact .inr ⟨read, parsed⟩

theorem gain_backing {name : String} {d : Location} {bytes : ByteArray} (plain : '/' ∉ base.toList)
    (gained : (backing dir base s).gain (d ++ [name]) bytes) : Later base s name := by
  obtain ⟨t, hash, fs, bytes', later, digest, gained⟩ := gained
  have lost : (replacing fs (backupPath dir base t hash) bytes').lose (d ++ [name]) :=
    gained.imp_right And.left
  exact later_of_replacing plain later digest lost

theorem Later.ne_base (later : Later base s base) : False := by
  obtain ⟨t, hash, _, _, same | ⟨nonce, same⟩⟩ := later
  · have longer := length_fileName base t hash
    rw [← same] at longer
    omega
  · have longer := length_fileName base t hash
    have length := congrArg String.length same
    rw [Staged.temporaryName_length] at length
    omega

/-- The names of later backups are not those of backups so far. -/
theorem Later.ne_fileName {t : Nat} {hash : String} (later : Later base s (fileName base t hash))
    (digest : IsDigest hash) : s < t := by
  obtain ⟨u, hash', after, digest', same | ⟨nonce, same⟩⟩ := later
  · rwa [fileName_inj digest digest' same]
  · exact absurd same (fileName_ne_temporaryName digest _ _)

/-- The timestamp of a backup made behind the last timestamp `s` in an environment. -/
def Dates (e : Disk.Environment) (s t : Nat) : Prop := ∃ i, t = max (e.calendar i) (s + 1)

theorem Dates.later {e : Disk.Environment} {t : Nat} (dates : Dates e s t) : s < t := by
  obtain ⟨i, rfl⟩ := dates
  omega

theorem nextTimestamp_holds (steady : Disk.Steady I) (inv : I n) :
    Program.HoldsFrom I (fun t u k => k.files = n.files ∧ k.environment = n.environment ∧
      Dates n.environment s t ∧ u = t) nextTimestamp s n := by
  refine Program.holdsFrom_bind (Q := fun now u k => u = s ∧ k.files = n.files ∧
    k.environment = n.environment ∧ ∃ i, now = n.environment.calendar i)
    (Program.holdsFrom_lift (Program.holds_quiet .calendar steady trivial inv
      fun k files environment => ⟨rfl, files, environment, n.steps, rfl⟩)) ?_
  rintro now u k inv ⟨rfl, files, environment, i, rfl⟩
  exact .pure inv ⟨files, environment, ⟨i, rfl⟩, rfl⟩

/-- What is known of a backup before it is made. -/
def infoOf (a : Archive) (place : Place) (p : Path) (t : Nat) (text : String) : Info :=
  ⟨backupPath (a.directory place p) (baseOf p) t (Digest.ofText text), t, Digest.ofText text⟩

/-- A backup of the text of a file was made, and what was too old was removed. -/
structure Backed (a : Archive) (place : Place) (p : Path) (operation text : String) (m : Machine)
    (s : Nat) (info : Info) (t : Nat) (n : Machine) : Prop where
  named : p.fileName? = some (baseOf p)
  read : m.files.read p = .ok text.toUTF8
  dated : Dates m.environment s t
  shown : info = a.infoOf place p t text
  made : ∃ k, Landed m info.path (Record.ofContent (a.absolute p) t operation text).text.toUTF8 k ∧
    Pruned a (a.directory place p) (baseOf p) k n

variable {a : Archive} {place : Place} {operation content : String}

theorem fileName?_of_nameOf (named : nameOf p = .ok base) : p.fileName? = some base := by
  unfold nameOf at named
  split at named
  · cases named
    assumption
  · cases named

/-- A scope in which backups later than `s` can be made in a directory. -/
structure Covers (u : Scope) (fs : Files) (dir : Path) (base : String) (s : Nat) : Prop where
  replaces : ∀ t hash bytes, s < t → IsDigest hash → Staged.Covers u fs (backupPath dir base t hash) bytes
  prunes : Prunes u fs dir base

theorem Covers.grows {u : Scope} {fs gs : Files} (covers : Covers u fs dir base s) (grows : fs.Grows gs) :
    Covers u gs dir base s where
  replaces t hash bytes later digest := (covers.replaces t hash bytes later digest).grows grows
  prunes name read hs l later := covers.prunes name read hs l (grows.trans later)

theorem backing_covers (fs : Files) (dir : Path) (s : Nat) (plain : '/' ∉ base.toList) :
    Covers (backing dir base s) fs dir base s where
  replaces t hash bytes later digest := by
    have le : (replacing fs (backupPath dir base t hash) bytes).Le (backing dir base s) :=
      replacing_le_backing later digest
    have covers := Staged.replacing_covers fs (backupPath dir base t hash) bytes
    exact ⟨covers.staging.trans le, fun gs d grows led => (covers.landing gs d grows led).trans le⟩
  prunes name read gs l grows parsed led :=
    pruning_le_backing.1 l (pruning_prunes fs dir plain name read gs l grows parsed led)

variable {u : Scope}

/-- Putting a document at the place of a backup, and pruning after it. -/
theorem save_holds {t : Nat} {hash : String} (bytes : ByteArray) (info : Info)
    (covers : Covers u m.files dir base s) (plain : '/' ∉ base.toList) (wf : m.files.WellFormed)
    (tidy : m.environment.Tidy) (later : s < t) (digest : IsDigest hash) (inv : u.Admits m n)
    (files : n.files = m.files) :
    Dated.Holds (u.Admits m)
      (fun r u k => u = t ∧ ∀ i, r = .ok i → i = info ∧
        ∃ j, Landed m (backupPath dir base t hash) bytes j ∧ Pruned a dir base j k)
      (do
        Dated.ofJob (Staged.replace (backupPath dir base t hash) bytes)
        Dated.ofJob (a.prune dir base)
        return info) t n := by
  have replaces := ((covers.replaces t hash bytes later digest).grows inv.2.grows)
  refine Dated.holds_bind (Q := fun r u k => u = t ∧ (r = .ok () →
      Landed m (backupPath dir base t hash) bytes k))
    (Dated.holds_ofJob ((Staged.replace_holds_within replaces (inv.2.sound wf) (inv.1 ▸ tidy)).mono
      (fun k step => inv.trans step)
      fun r k _ landed => ⟨rfl, fun done => (landed.1 done).of_same files inv.1⟩)) ?_
    (fun e u k _ post => ⟨post.1, nofun⟩)
  rintro _ t' k inv ⟨rfl, landed⟩
  have prunes := (covers.grows inv.2.grows).prunes
  refine Dated.holds_bind (Q := fun r v j => v = t' ∧ (r = .ok () → Pruned a dir base k j))
    (Dated.holds_ofJob (((prune_holds_within prunes (inv.2.sound wf)).and
      (prune_holds plain (inv.2.sound wf))).mono
      (fun j step => inv.trans step.1) fun r j _ pruned => ⟨rfl, pruned.2⟩)) ?_
    (fun e v j _ post => ⟨post.1, nofun⟩)
  rintro _ v j inv ⟨rfl, pruned⟩
  refine Dated.holds_pure.mpr ⟨inv, rfl, fun i same => ?_⟩
  cases same
  exact ⟨rfl, k, landed rfl, pruned rfl⟩

/-- Making a backup stays in every scope that covers it, and gives a backup of the text of the file. -/
theorem create_holds_within (covers : Covers u m.files (a.directory place p) (baseOf p) s)
    (wf : m.files.WellFormed) (tidy : m.environment.Tidy) :
    Dated.Holds (u.Admits m)
      (fun r t k => s ≤ t ∧ ∀ info, r = .ok info → ∃ text, Backed a place p operation text m s info t k)
      (a.create place p operation) s m := by
  have start := Scope.Admits.refl u m
  have steady := Scope.steady u m
  refine Dated.holds_bind (Q := fun r t k => t = s ∧ k.files = m.files ∧
    ∀ text, r = .ok text → m.files.read p = .ok text.toUTF8) (Dated.holds_ofJob (Job.holds_ofFault
      ((Program.readText_holds steady start).mono (fun _ i => i) ?_))) ?_
    (fun e t k _ post => ⟨Nat.le_of_eq post.1.symm, nofun⟩)
  · rintro r k _ ⟨files, _, read, _⟩
    cases r with
    | error fault => exact ⟨rfl, files, nofun⟩
    | ok text =>
      refine ⟨rfl, files, fun text' same => read text' ?_⟩
      cases same
      rfl
  intro text t n inv ⟨same, files, read⟩
  subst same
  have read := read text rfl
  refine Dated.holds_bind (Q := fun r t' k => k.files = m.files ∧ r = .ok t' ∧ Dates m.environment t t')
    (Dated.holds_state ((nextTimestamp_holds steady inv).mono (fun _ i => i) ?_)) ?_
    (fun e t' k _ post => nomatch post.2.1)
  · intro r k _ ⟨files', _, dates, same⟩
    exact ⟨files'.trans files, by rw [same], same ▸ inv.1 ▸ dates⟩
  intro now t' k inv ⟨files, same, dates⟩
  cases same
  have later := dates.later
  refine Dated.holds_bind (Q := fun r t k => t = now ∧ k.files = m.files ∧ r = nameOf p)
    (Dated.holds_ofJob (Job.holds_ofExcept.mpr ⟨inv, rfl, files, rfl⟩)) ?_
    (fun e t' k _ post => ⟨by omega, nofun⟩)
  intro base t' k inv ⟨same, files, named⟩
  subst same
  have named := fileName?_of_nameOf named.symm
  obtain rfl := Staged.baseOf_eq named
  refine Dated.holds_mono (save_holds (Record.ofContent (a.absolute p) t' operation text).text.toUTF8
    (a.infoOf place p t' text) covers (Staged.not_slash_baseOf p) wf tidy later (isDigest_ofText text) inv
    files) (fun _ i => i) ?_
  rintro r u j _ ⟨rfl, saved⟩
  refine ⟨Nat.le_of_lt later, fun info done => ⟨text, ?_⟩⟩
  obtain ⟨rfl, made⟩ := saved info done
  exact ⟨named, read, dates, rfl, made⟩

/-- Making a backup changes nothing but backups of the file, and gives one of its text. -/
theorem create_holds (wf : m.files.WellFormed) (tidy : m.environment.Tidy) :
    Dated.Holds ((backing (a.directory place p) (baseOf p) s).Admits m)
      (fun r t k => s ≤ t ∧ ∀ info, r = .ok info → ∃ text, Backed a place p operation text m s info t k)
      (a.create place p operation) s m :=
  create_holds_within (backing_covers m.files _ s (Staged.not_slash_baseOf p)) wf tidy

/-! ### Writing -/

theorem Backed.of_same {text : String} {info : Info} {t : Nat} {k : Machine}
    (backed : Backed a place p operation text n s info t k) (files : n.files = m.files)
    (environment : n.environment = m.environment) : Backed a place p operation text m s info t k := by
  obtain ⟨named, read, dates, shown, j, landed, pruned⟩ := backed
  exact ⟨named, files ▸ read, environment ▸ dates, shown, j, landed.of_same files environment, pruned⟩

/-- What a write may change at any moment, if its backup is made later than `s`. -/
def writing (a : Archive) (place : Place) (fs : Files) (p : Path) (content : String) (s : Nat) : Scope :=
  (backing (a.directory place p) (baseOf p) s).or (replacing fs p content.toUTF8)

/-- What a write that succeeds has done. -/
inductive Wrote (a : Archive) (place : Place) (p : Path) (content operation : String) (m : Machine)
    (s : Nat) : Receipt → Nat → Machine → Prop where
  | fresh {n : Machine} (absent : m.files.kindAt p = none) (landed : Landed m p content.toUTF8 n) :
      Wrote a place p content operation m s ⟨p, content.utf8ByteSize, none⟩ s n
  | replaced {info : Info} {text : String} {t : Nat} {k n : Machine}
      (backed : Backed a place p operation text m s info t k) (landed : Landed k p content.toUTF8 n) :
      Wrote a place p content operation m s ⟨p, content.utf8ByteSize, some info⟩ t n

/-- Only the disks and the environments of the machines count. -/
theorem Wrote.same {receipt : Receipt} {t : Nat} {j k : Machine}
    (wrote : Wrote a place p content operation j s receipt t k) (before : m.Same j) (after : k.Same n) :
    Wrote a place p content operation m s receipt t n := by
  cases wrote with
  | fresh absent landed =>
    exact .fresh (before.1 ▸ absent) ((landed.of_same before.1 before.2).same after)
  | replaced backed landed => exact .replaced (backed.of_same before.1 before.2) (landed.same after)

theorem Wrote.stamp {receipt : Receipt} {t : Nat} (wrote : Wrote a place p content operation m s receipt t n) :
    s ≤ t := by
  cases wrote with
  | fresh => exact Nat.le_refl s
  | replaced backed => exact Nat.le_of_lt backed.dated.later

/-- A backup was made, or there was nothing to make one of. -/
def Secured (a : Archive) (place : Place) (p : Path) (operation : String) (m : Machine) (s : Nat)
    (backup : Option Info) (t : Nat) (n : Machine) : Prop :=
  match backup with
  | none => m.files.kindAt p = none ∧ t = s ∧ n.files = m.files
  | some info => ∃ text, Backed a place p operation text m s info t n

theorem secure_holds (wf : m.files.WellFormed) (tidy : m.environment.Tidy)
    (inv : (backing (a.directory place p) (baseOf p) s).Admits m n) (files : n.files = m.files) :
    Dated.Holds ((backing (a.directory place p) (baseOf p) s).Admits m)
      (fun r t k => s ≤ t ∧ ∀ backup, r = .ok backup → Secured a place p operation m s backup t k)
      (some <$> a.create place p operation) s n := by
  rw [map_eq_pure_bind]
  refine Dated.holds_bind (Dated.holds_mono (create_holds (inv.2.sound wf) (inv.1 ▸ tidy))
    (fun _ => inv.trans) fun _ _ _ _ post => post) ?_ (fun e t k _ post => ⟨post.1, nofun⟩)
  intro info t k inv' ⟨le, made⟩
  obtain ⟨text, backed⟩ := made info rfl
  refine Dated.holds_pure.mpr ⟨inv', le, fun backup same => ?_⟩
  cases same
  exact ⟨text, backed.of_same files inv.1⟩

/-- What a write that fails may have changed. -/
def preparing (a : Archive) (place : Place) (p : Path) (s : Nat) : Scope :=
  (backing (a.directory place p) (baseOf p) s).or (staging p)

/-- A write changes nothing but the file, its backups and temporary files, and what it puts at the
file is the content. If it succeeds there is a backup of what was there, and if it fails the file is
left alone. -/
theorem write_holds (wf : m.files.WellFormed) (tidy : m.environment.Tidy) :
    Dated.Holds ((a.writing place m.files p content s).Admits m)
      (fun r t k => s ≤ t ∧
        (∀ receipt, r = .ok receipt → Wrote a place p content operation m s receipt t k) ∧
        ∀ e, r = .error e → (a.preparing place p s).Admits m k)
      (a.write place p content operation) s m := by
  have le := Scope.le_or_left (backing (a.directory place p) (baseOf p) s) (replacing m.files p content.toUTF8)
  have le' := Scope.le_or_right (backing (a.directory place p) (baseOf p) s) (replacing m.files p content.toUTF8)
  have start := Scope.Admits.refl (backing (a.directory place p) (baseOf p) s) m
  have early := Scope.le_or_left (backing (a.directory place p) (baseOf p) s) (staging p)
  have late := Scope.le_or_right (backing (a.directory place p) (baseOf p) s) (staging p)
  refine Dated.holds_bind (Q := fun r t k => t = s ∧ k.files = m.files ∧
      (backing (a.directory place p) (baseOf p) s).Admits m k ∧ r = .ok (m.files.kindAt p).isSome)
    (Dated.holds_lift ((Program.isPresent_holds (Scope.steady _ m) start).mono
      (fun _ => Scope.Admits.mono le) ?_)) ?_ (fun e t k _ post => nomatch post.2.2.2)
  · rintro b k inv ⟨files, _, rfl⟩
    exact ⟨rfl, files, inv, rfl⟩
  rintro present t k _ ⟨start, files, inv, same⟩
  subst t
  -- The rest of the write is the same with and without a backup.
  have rest : ∀ backup t j, (backing (a.directory place p) (baseOf p) s).Admits m j → s ≤ t →
      Secured a place p operation m s backup t j →
      Dated.Holds ((a.writing place m.files p content s).Admits m)
        (fun r t k => s ≤ t ∧
          (∀ receipt, r = .ok receipt → Wrote a place p content operation m s receipt t k) ∧
          ∀ e, r = .error e → (a.preparing place p s).Admits m k)
        (do
          Dated.ofJob (Staged.replace p content.toUTF8)
          return ⟨p, content.utf8ByteSize, backup⟩) t j := by
    intro backup t j inv later secured
    refine Dated.holds_bind (Q := fun r u i => u = t ∧ (r = .ok () → Landed j p content.toUTF8 i) ∧
        ∀ e, r = .error e → (staging p).Admits j i)
      (Dated.holds_ofJob ((Staged.replace_holds (inv.2.sound wf) (inv.1 ▸ tidy)).mono
        (fun i step => (inv.mono le).trans ((step.mono (Staged.replacing_mono inv.2.grows)).mono le'))
        fun r i _ landed => ⟨rfl, landed⟩)) ?_
      (fun e u i _ post => ⟨post.1 ▸ later, nofun, fun _ _ =>
        (inv.mono early).trans ((post.2.2 e rfl).mono late)⟩)
    rintro _ u i inv' ⟨rfl, landed, _⟩
    refine Dated.holds_pure.mpr ⟨inv', later, fun receipt same => ?_, nofun⟩
    cases same
    cases backup with
    | none =>
      obtain ⟨absent, rfl, files⟩ := secured
      exact .fresh absent ((landed rfl).of_same files inv.1)
    | some info =>
      obtain ⟨text, backed⟩ := secured
      exact .replaced backed (landed rfl)
  cases present with
  | false =>
    have absent : m.files.kindAt p = none := by simpa using (Except.ok.inj same).symm
    rw [if_neg Bool.false_ne_true, pure_bind]
    exact rest none s k inv (Nat.le_refl s) ⟨absent, rfl, files⟩
  | true =>
    refine Dated.holds_bind (Q := fun r t j => s ≤ t ∧
        (backing (a.directory place p) (baseOf p) s).Admits m j ∧
        ∀ backup, r = .ok backup → Secured a place p operation m s backup t j)
      (Dated.holds_mono (secure_holds wf tidy inv files) (fun _ => Scope.Admits.mono le)
        fun r t j inv post => ⟨post.1, inv, post.2⟩) ?_
      (fun e t j _ post => ⟨post.1, nofun, fun _ _ => post.2.1.mono early⟩)
    rintro backup t j _ ⟨later, inv, secured⟩
    exact rest backup t j inv later (secured backup rfl)

/-! ### Restoring -/

/-- A record that was read is intact and stands on the disk, and without a fault such a record is
read. -/
theorem readRecord_holds (steady : Disk.Steady I) (inv : I n) :
    (readRecord p).run.Holds I (fun r k => k.files = n.files ∧ k.environment = n.environment ∧
      (∀ record, r = .ok record → ∃ text, n.files.read p = .ok text.toUTF8 ∧
        Record.ofText text = .ok record ∧ record.isIntact = true) ∧
      ∀ text record, n.environment.fault n.steps = none → n.files.read p = .ok text.toUTF8 →
        Record.ofText text = .ok record → record.isIntact = true → r = .ok record) n := by
  refine Job.holds_bind (Job.holds_ofFault ((Program.readText_holds steady inv).mono
    (fun _ i => i) fun r k _ post => ?_)) ?_ ?_
    (Q := fun r k => k.files = n.files ∧ k.environment = n.environment ∧
      (∀ text, r = .ok text → n.files.read p = .ok text.toUTF8) ∧
      ∀ text, n.environment.fault n.steps = none → n.files.read p = .ok text.toUTF8 → r = .ok text)
  · obtain ⟨files, environment, read, healthy⟩ := post
    have found : ∀ text, n.environment.fault n.steps = none → n.files.read p = .ok text.toUTF8 →
        r = .ok text := by
      intro text fine there
      rw [healthy fine, there]
      exact Program.textOf_ok.mpr rfl
    cases r with
    | error fault =>
      exact ⟨files, environment, nofun, fun text fine there => nomatch found text fine there⟩
    | ok text =>
      refine ⟨files, environment, fun text' same => read text' ?_, fun text' fine there => ?_⟩
      · cases same
        rfl
      · cases found text' fine there
        rfl
  · rintro text k inv ⟨files, environment, read, healthy⟩
    refine Job.holds_bind (Job.holds_ofExcept.mpr ⟨inv, files, environment, rfl⟩) ?_ ?_
      (Q := fun r k => k.files = n.files ∧ k.environment = n.environment ∧ r = Record.ofText text)
    · rintro record k inv ⟨files, environment, decoded⟩
      split
      · rename_i intact
        refine Job.holds_pure.mpr ⟨inv, files, environment, fun record' same => ?_, ?_⟩
        · cases same
          exact ⟨text, read text rfl, decoded.symm, intact⟩
        · intro text' record' fine there decoded' _
          cases healthy text' fine there
          rw [← decoded] at decoded'
          cases decoded'
          rfl
      · rename_i damaged
        refine Job.holds_throw.mpr ⟨inv, files, environment, nofun, ?_⟩
        intro text' record' fine there decoded' intact
        cases healthy text' fine there
        rw [← decoded] at decoded'
        cases decoded'
        exact absurd intact damaged
    · rintro e k _ ⟨files, environment, decoded⟩
      refine ⟨files, environment, nofun, fun text' record' fine there decoded' _ => ?_⟩
      cases healthy text' fine there
      rw [← decoded] at decoded'
      cases decoded'
  · rintro e k _ ⟨files, environment, _, healthy⟩
    exact ⟨files, environment, nofun, fun text record fine there _ _ => nomatch healthy text fine there⟩

/-- Staged content passes the check only with the right digest. -/
theorem confirm_holds {w : Staged} {l : Location} {bytes : ByteArray} {hash : String}
    (steady : Disk.Steady I) (inv : I n) (waits : n.files.find w.temporary = .ok (l, .file bytes)) :
    (do
      let actual := Digest.ofBytes (← w.readBack)
      if actual = hash then return w
      else throw (.integrity w.target.text hash actual) : Job Staged).run.Holds I
      (fun r k => k.files = n.files ∧ k.environment = n.environment ∧
        ∀ w', r = .ok w' → w' = w ∧ Digest.ofBytes bytes = hash) n := by
  have there : n.files.read w.temporary = .ok bytes := Files.read_ok.mpr ⟨l, waits⟩
  refine Job.holds_bind (Staged.readBack_holds steady inv) ?_
    (fun e k _ post => ⟨post.1, post.2.1, nofun⟩)
  rintro actual k inv ⟨files, environment, read⟩
  have stored : bytes = actual := Except.ok.inj (there.symm.trans (read actual rfl))
  dsimp only
  split
  · rename_i equal
    refine Job.holds_pure.mpr ⟨inv, files, environment, fun w' same => ?_⟩
    cases same
    exact ⟨rfl, stored ▸ equal⟩
  · exact Job.holds_throw.mpr ⟨inv, files, environment, nofun⟩

/-- Stages the content of a record beside a target. -/
def stageRecord (record : Record) (target : Path) : Job Staged := do
  let s ← Staged.stage target record.content.toUTF8
  s.orDiscard do
    let hash := Digest.ofBytes (← s.readBack)
    if hash = record.hash then return s
    else throw (.integrity s.target.text record.hash hash)

/-- Puts the content of a record at a target. -/
def putBack (record : Record) (target : Path) : Job Path := do
  let s ← stageRecord record target
  s.orDiscard s.commit
  return s.target

theorem restore_eq (backup : Path) (target : Option Path) : restore backup target =
    readRecord backup >>= fun record => putBack record (target.getD record.originalPath) := by
  simp only [restore, stageRestore, putBack, stageRecord, bind_assoc]

/-- What a write of the content of a record may store so that the digest is right. -/
def Passes (e : Disk.Environment) (record : Record) (bytes : ByteArray) : Prop :=
  ∃ i, e.fault i = none ∧ bytes = e.stored i record.content.toUTF8 ∧ Digest.ofBytes bytes = record.hash

/-- Something of the digest of a record waits for a target. -/
def Confirmed (m : Machine) (record : Record) (target : Path) (w : Staged) (k : Machine) : Prop :=
  Ready k.files target ∧ ∃ nonce l bytes, IsNonce nonce ∧
    w = ⟨target, Staged.temporaryPath target nonce⟩ ∧ Passes m.environment record bytes ∧
    k.files.find w.temporary = .ok (l, .file bytes)

/-- Staging the content of a record leaves the target alone. -/
theorem stageRecord_holds {target : Path} {record : Record} (wf : m.files.WellFormed)
    (tidy : m.environment.Tidy) :
    (stageRecord record target).run.Holds ((staging target).Admits m)
      (fun r k => ∀ w, r = .ok w → Confirmed m record target w k) m := by
  refine Job.holds_bind (Staged.stage_holds wf tidy) ?_ (fun e k _ _ => nofun)
  intro w j inv post
  obtain ⟨⟨nonce, i, l, made, rfl, healthy, waits⟩, ready⟩ := post w rfl
  refine Staged.orDiscard_holds (confirm_holds (Scope.steady _ m) inv waits) ?_ ?_
  · rintro w' k _ ⟨files, _, passed⟩ w'' same
    cases same
    obtain ⟨rfl, digest⟩ := passed w' rfl
    exact ⟨files ▸ ready, nonce, l, _, made, rfl, ⟨i, healthy, rfl, digest⟩, files ▸ waits⟩
  · intro e k inv' _
    exact (Staged.discard_holds (fun _ => id) wf made inv').mono (fun _ i => i) fun _ _ _ _ => nofun

/-- Putting a record back puts something of its digest at the target, or changes nothing but temporary
files. -/
theorem putBack_holds {target : Path} {record : Record} (le : (staging target).Le u)
    (covers : ∀ bytes, Passes m.environment record bytes → Staged.Covers u m.files target bytes)
    (wf : m.files.WellFormed) (tidy : m.environment.Tidy) :
    (putBack record target).run.Holds (u.Admits m)
      (fun r k => (∀ q, r = .ok q → q = target ∧
          ∃ bytes, Passes m.environment record bytes ∧ Landed m target bytes k) ∧
        ∀ e, r = .error e → (staging target).Admits m k) m := by
  refine Job.holds_bind (Q := fun r k => (staging target).Admits m k ∧
      ∀ w, r = .ok w → Confirmed m record target w k)
    ((stageRecord_holds wf tidy).mono (fun _ => Scope.Admits.mono le) fun r k inv post => ⟨inv, post⟩) ?_
    (fun e k _ post => ⟨nofun, fun _ _ => post.1⟩)
  rintro w k _ ⟨inv, waits⟩
  obtain ⟨ready, nonce, l, bytes, made, rfl, passes, waits⟩ := waits w rfl
  refine Job.holds_bind (Staged.orDiscard_holds
      (Staged.commit_holds (covers bytes passes) wf made inv ready waits)
    (fun _ _ _ post => post) ?_) ?_ ?_ (Q := fun r k => (r = .ok () → Landed m target bytes k) ∧
      ∀ e, r = .error e → (staging target).Admits m k)
  · intro e j _ post
    exact (Staged.discard_holds (fun _ => id) wf made (post.2 e rfl)).mono (fun _ => Scope.Admits.mono le)
      fun _ i inv _ => ⟨nofun, fun _ _ => inv⟩
  · intro _ j inv post
    refine Job.holds_pure.mpr ⟨inv, fun q same => ?_, nofun⟩
    cases same
    exact ⟨rfl, bytes, passes, post.1 rfl⟩
  · intro e j inv post
    exact ⟨nofun, fun _ _ => post.2 e rfl⟩

/-- What a restore gives depends on the record in the backup alone. -/
def Restores (fs : Files) (backup : Path) (content : String) : Prop :=
  ∀ text record, fs.read backup = .ok text.toUTF8 → Record.ofText text = .ok record →
    record.isIntact = true → record.content = content

theorem hash_of_isIntact {record : Record} (intact : record.isIntact = true) :
    record.hash = Digest.ofBytes record.content.toUTF8 := by
  have same := intact
  rw [Record.isIntact, beq_iff_eq] at same
  exact same.symm

/-- Where no write stores something else of the same digest, only the content passes. -/
theorem Passes.eq {record : Record} {bytes : ByteArray} (passes : Passes m.environment record bytes)
    (detects : m.environment.Detects) (intact : record.isIntact = true) :
    bytes = record.content.toUTF8 := by
  obtain ⟨i, healthy, rfl, digest⟩ := passes
  refine (detects i _ healthy).resolve_right fun other => other ?_
  rw [digest, hash_of_isIntact intact]

/-- A restore puts the content of the record at the target, or changes nothing but temporary files. -/
theorem restore_holds {backup target : Path} (wf : m.files.WellFormed) (tidy : m.environment.Tidy)
    (detects : m.environment.Detects) (known : Restores m.files backup content) :
    (restore backup (some target)).run.Holds ((replacing m.files target content.toUTF8).Admits m)
      (fun r k => (∀ q, r = .ok q → Landed m target content.toUTF8 k) ∧
        ∀ e, r = .error e → (staging target).Admits m k) m := by
  have le := Staged.staging_le_replacing m.files target content.toUTF8
  have start := Scope.Admits.refl (replacing m.files target content.toUTF8) m
  rw [restore_eq]
  refine Job.holds_bind (readRecord_holds (Scope.steady _ m) start) ?_
    (fun e k _ post => ⟨nofun, fun _ _ => Scope.admits_of_files post.2.1 post.1⟩)
  rintro record k inv ⟨files, environment, read, _⟩
  obtain ⟨text, there, decoded, intact⟩ := read record rfl
  obtain rfl := known text record there decoded intact
  have covers : ∀ bytes, Passes k.environment record bytes →
      Staged.Covers (replacing m.files target record.content.toUTF8) k.files target bytes := by
    intro bytes passes
    rw [passes.eq (environment ▸ detects) intact, files]
    exact Staged.replacing_covers m.files target _
  refine (putBack_holds le covers (inv.2.sound wf) (environment ▸ tidy)).mono (fun _ => inv.trans) ?_
  rintro r j _ ⟨landed, failed⟩
  refine ⟨fun q done => ?_, fun e failure => ?_⟩
  · obtain ⟨_, bytes, passes, landed⟩ := landed q done
    rw [passes.eq (environment ▸ detects) intact] at landed
    exact landed.of_same files environment
  · exact (Scope.admits_of_files environment files).trans (failed e failure)

end Archive

end SourceRepair.Backup
