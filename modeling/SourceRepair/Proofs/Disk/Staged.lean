import SourceRepair.Proofs.Disk.Run

/-!
# Staged writes keep their target

Whatever fails, a staged write changes nothing but temporary files beside its target before it moves
the content over the target, and what it moves was read back. `Staged.replace_holds` says so for
every environment.
-/

namespace SourceRepair.Disk

open Files (piecesOf endsInSlash endsInDots)
open Path (IsPlain)

/-- What a made-up text looks like. -/
structure IsNonce (s : String) : Prop where
  length : s.length = 32
  digits : ∀ c ∈ s.toList, c ∈ "0123456789abcdef".toList

/-- Made-up texts are what they should be. -/
def Environment.Tidy (e : Environment) : Prop := ∀ i, IsNonce (e.nonce i)

/-- No write that is called a success stores other bytes of the same digest. -/
def Environment.Detects (e : Environment) : Prop :=
  ∀ i b, e.fault i = none → e.stored i b = b ∨ Digest.ofBytes (e.stored i b) ≠ Digest.ofBytes b

/-- No step fails as if something were not there. -/
def Environment.Candid (e : Environment) : Prop := ∀ i fault, e.fault i = some fault → fault.kind ≠ .notFound

namespace Staged

/-- The name of a temporary file beside a file of the name `base`. -/
def temporaryName (base nonce : String) : String := "." ++ base ++ "." ++ nonce ++ ".tmp"

/-- The name under which the content of a target waits, up to the nonce. -/
def baseOf (target : Path) : String := target.fileName?.getD "file"

theorem temporaryPath_eq (target : Path) (nonce : String) :
    temporaryPath target nonce = (directoryOf target).join ⟨temporaryName (baseOf target) nonce⟩ := rfl

/-- A place for a temporary file beside a file of the name `base`. -/
def IsTemporary (base : String) (l : Location) : Prop :=
  ∃ d nonce, IsNonce nonce ∧ l = d ++ [temporaryName base nonce]

theorem temporaryName_length (base nonce : String) :
    (temporaryName base nonce).length = base.length + nonce.length + 6 := by
  have dot : ".".length = 1 := by decide
  have ending : ".tmp".length = 4 := by decide
  simp only [temporaryName, String.length_append, dot, ending]
  omega

theorem not_slash_of_isNonce {nonce : String} (made : IsNonce nonce) : '/' ∉ nonce.toList :=
  fun member => absurd (made.digits _ member) (by decide)

theorem isPlain_temporaryName {base nonce : String} (plain : '/' ∉ base.toList)
    (made : IsNonce nonce) : IsPlain (temporaryName base nonce) := by
  refine Path.isPlain_of_length ?_ ?_
  · rw [temporaryName_length]
    omega
  · simp [temporaryName, plain, not_slash_of_isNonce made]

theorem not_slash_baseOf (target : Path) : '/' ∉ (baseOf target).toList := by
  cases named : target.fileName? with
  | none =>
    rw [baseOf, named]
    decide
  | some name =>
    rw [baseOf, named]
    exact Path.not_slash_fileName named

/-- A temporary path leads to a place for temporary files. -/
theorem isTemporary_of_locate {fs : Files} {target : Path} {nonce : String} {l : Location}
    (made : IsNonce nonce) (led : fs.locate (temporaryPath target nonce) = .ok l) :
    IsTemporary (baseOf target) l := by
  have plain := isPlain_temporaryName (not_slash_baseOf target) made
  obtain ⟨d, rfl, _⟩ := Files.locate_plain (Path.piecesOf_join _ plain) plain led
  exact ⟨d, nonce, made, rfl⟩

/-- No place for temporary files has the name that they are made for. -/
theorem not_isTemporary {base : String} {d : Location} : ¬IsTemporary base (d ++ [base]) := by
  rintro ⟨_, nonce, _, same⟩
  have length := congrArg String.length (List.append_inj_right' same rfl |> List.singleton_inj.mp)
  rw [temporaryName_length] at length
  omega

/-! ### Scopes of staged writes -/

/-- Temporary files beside a target. -/
def waiting (target : Path) : Scope where
  lose := IsTemporary (baseOf target)
  gain l _ := IsTemporary (baseOf target) l
  make _ := False

/-- Temporary files beside a target, and the directories that lead to it. -/
def staging (target : Path) : Scope where
  lose := IsTemporary (baseOf target)
  gain l _ := IsTemporary (baseOf target) l
  make l := ∃ d, ∃ name ∈ piecesOf (directoryOf target), l = d ++ [name]

theorem waiting_le_staging (target : Path) : (waiting target).Le (staging target) :=
  ⟨fun _ => id, fun _ _ => id, fun _ => False.elim⟩

/-- Content that comes to one location. -/
def landing (l : Location) (bytes : ByteArray) : Scope where
  lose k := k = l
  gain k b := k = l ∧ b = bytes
  make _ := False

/-! ### Making directories -/

theorem make_of_locate {fs gs : Files} {s : Scope} {p : Path} (wf : fs.WellFormed)
    (names : ∀ name ∈ piecesOf p, ∀ d, s.make (d ++ [name])) (done : fs.makeDirectory p = .ok gs) :
    s.Allows fs gs := by
  refine Scope.allows_makeDirectory wf (fun l led free => ?_) done
  obtain ⟨front, name, pieces, plain⟩ := wf.plain_of_locate led (by simp [free])
  obtain ⟨d, rfl, _⟩ := Files.locate_plain pieces plain led
  exact names name (by simp [pieces]) d

theorem kindAt_of_makeDirectory {fs gs : Files} {p : Path} (wf : fs.WellFormed)
    (done : fs.makeDirectory p = .ok gs) : gs.kindAt p = some .directory := by
  obtain ⟨l, led, free, rfl⟩ := Files.makeDirectory_ok.mp done
  have inner : l ≠ [] := Files.ne_nil_of_free free
  have allowed := Scope.allows_makeDirectory (s := .anything) wf (fun _ _ _ => trivial) done
  have found : (fs.put l .directory).find p = .ok (l, .directory) :=
    Files.find_ok.mpr ⟨allowed.grows.locate led, Files.get?_put_same inner, fun other => absurd rfl other⟩
  simp [Files.kindAt, found, Node.kind]

theorem isDirectory_holds {s : Scope} {m n : Machine} {p : Path} (inv : s.Admits m n) :
    (Program.isDirectory p).Holds (s.Admits m)
      (fun b k => k.files = n.files ∧ (b = true ↔ n.files.kindAt p = some .directory)) n := by
  refine (Program.holds_kind (Scope.steady s m) inv).bind ?_
  rintro reply k inv ⟨files, _, rfl⟩
  exact .pure inv ⟨files, by simp⟩

/-- Making directories makes nothing but what is named on the way, and if it succeeds the first of
them is there. -/
theorem makeInside_holds {s : Scope} {m n : Machine} {ps : List Path} (wf : m.files.WellFormed)
    (inv : s.Admits m n) (names : ∀ p ∈ ps, ∀ name ∈ piecesOf p, ∀ d, s.make (d ++ [name])) :
    (Program.makeInside ps).Holds (s.Admits m)
      (fun r k => r = .ok () → ∀ p ∈ ps.head?, k.files.kindAt p = some .directory) n := by
  induction ps generalizing n with
  | nil => exact .pure inv fun _ p none => by cases none
  | cons p outer ih =>
    have first : ∀ k, s.Admits m k →
        (Program.makeDirectory p).Holds (s.Admits m) (fun r j =>
          (r = .ok () → j.files.kindAt p = some .directory)) k := by
      intro k inv
      have wf' := inv.2.sound wf
      refine (Program.holds_makeDirectory inv
        fun gs => make_of_locate wf' (names p List.mem_cons_self)).mono (fun _ i => i) ?_
      intro r j _ outcome done
      rcases outcome with ⟨_, _, made⟩ | ⟨fault, failed, _⟩
      · exact kindAt_of_makeDirectory wf' made
      · rw [failed] at done
        cases done
    -- A failure is only forgiven where the directory is there.
    have forgiven : ∀ fault k, s.Admits m k →
        (do return if ← Program.isDirectory p then .ok () else .error fault :
          Program (Except Fault Unit)).Holds (s.Admits m)
          (fun r j => r = .ok () → ∀ q ∈ (p :: outer).head?, j.files.kindAt q = some .directory) k := by
      intro fault k inv
      refine (isDirectory_holds inv).bind fun b j inv checked => .pure inv fun done q same => ?_
      cases b with
      | false => cases done
      | true =>
        cases same
        rw [checked.1]
        exact checked.2.mp rfl
    rw [Program.makeInside]
    refine (first n inv).bind fun r k inv made => ?_
    cases r with
    | ok _ => exact .pure inv fun _ q same => by cases same; exact made rfl
    | error fault =>
      dsimp only
      split
      · refine (ih inv fun q member => names q (List.mem_cons_of_mem _ member)).bind
          fun r k inv _ => ?_
        cases r with
        | error fault => exact .pure inv nofun
        | ok _ =>
          refine (first k inv).bind fun r k inv made => ?_
          cases r with
          | ok _ => exact .pure inv fun _ q same => by cases same; exact made rfl
          | error fault => exact forgiven fault k inv
      · exact forgiven fault k inv

theorem makeDirectories_holds {s : Scope} {m n : Machine} {p : Path} (wf : m.files.WellFormed)
    (inv : s.Admits m n) (names : ∀ name ∈ piecesOf p, ∀ d, s.make (d ++ [name])) (full : p.text ≠ "") :
    (Program.makeDirectories p).Holds (s.Admits m)
      (fun r k => r = .ok () → k.files.kindAt p = some .directory) n := by
  refine (makeInside_holds wf inv fun q member name inside =>
    names name (Path.piecesOf_enclosing member inside)).mono (fun _ i => i) ?_
  intro r k _ made done
  exact made done p (by simp [Path.enclosing, full])

theorem directoryOf_ne_empty (target : Path) : (directoryOf target).text ≠ "" := by
  unfold directoryOf
  split
  · split
    · decide
    · simp_all
  · decide

/-! ### Staging -/

theorem orDiscard_holds {α : Type} {I : Machine → Prop} {n : Machine} {s : Staged} {work : Job α}
    {Q R : Except Failure α → Machine → Prop} (done : work.run.Holds I Q n)
    (kept : ∀ a k, I k → Q (.ok a) k → R (.ok a) k)
    (discarded : ∀ e k, I k → Q (.error e) k → s.discard.Holds I (fun _ => R (.error e)) k) :
    (s.orDiscard work).run.Holds I R n := by
  refine done.bind fun r k inv post => ?_
  cases r with
  | ok a => exact .pure inv (kept a k inv post)
  | error e => exact (discarded e k inv post).bind fun _ j inv post => .pure inv post

section

variable {m n : Machine} {target : Path} {bytes : ByteArray} {nonce : String}

theorem discard_holds {s : Scope} (loses : ∀ l, IsTemporary (baseOf target) l → s.lose l)
    (wf : m.files.WellFormed) (made : IsNonce nonce) (inv : s.Admits m n) :
    (discard ⟨target, temporaryPath target nonce⟩).Holds (s.Admits m) (fun _ _ => True) n := by
  refine (Program.holds_remove inv fun gs => ?_).bind fun _ k inv _ => .pure inv trivial
  exact Scope.allows_remove (inv.2.sound wf) fun l led => loses l (isTemporary_of_locate made led)

/-- The content waits at its temporary place, as the environment stored it. -/
def Waits (m : Machine) (target : Path) (bytes : ByteArray) (s : Staged) (n : Machine) : Prop :=
  ∃ nonce i l, IsNonce nonce ∧ s = ⟨target, temporaryPath target nonce⟩ ∧
    m.environment.fault i = none ∧
    n.files.find s.temporary = .ok (l, .file (m.environment.stored i bytes))

/-- The way to a target is there: its directory, and a place for a temporary file in it. -/
def Ready (fs : Files) (target : Path) : Prop :=
  fs.kindAt (directoryOf target) = some .directory ∧
    ∃ nonce l, IsNonce nonce ∧ fs.locate (temporaryPath target nonce) = .ok l

theorem Ready.grows {fs gs : Files} (ready : Ready fs target) (grows : fs.Grows gs) :
    Ready gs target := by
  obtain ⟨directory, nonce, l, made, led⟩ := ready
  exact ⟨grows.kindAt directory, nonce, l, made, grows.locate led⟩

/-- Staging from the moment on when the nonce is known. -/
def fill (target : Path) (bytes : ByteArray) (nonce : String) : Job Staged :=
  (⟨target, temporaryPath target nonce⟩ : Staged).orDiscard do
    Job.ofFault (temporaryPath target nonce) (Program.create (temporaryPath target nonce))
    Job.ofFault (temporaryPath target nonce) (Program.write (temporaryPath target nonce) bytes)
    Job.ofFault (temporaryPath target nonce) (Program.sync (temporaryPath target nonce))
    return ⟨target, temporaryPath target nonce⟩

/-- Filling a temporary file touches nothing but temporary files. -/
theorem fill_holds (wf : m.files.WellFormed) (made : IsNonce nonce)
    (inv : (waiting target).Admits m n) :
    (fill target bytes nonce).run.Holds ((waiting target).Admits m)
      (fun r k => ∀ s, r = .ok s → Waits m target bytes s k) n := by
  have place : ∀ k, (waiting target).Admits m k → ∀ l,
      k.files.locate (temporaryPath target nonce) = .ok l →
        (waiting target).lose l ∧ ∀ b, (waiting target).gain l b :=
    fun k _ l led => ⟨isTemporary_of_locate made led, fun _ => isTemporary_of_locate made led⟩
  refine orDiscard_holds (Q := fun r k => ∀ s, r = .ok s → Waits m target bytes s k) ?_
    (fun a k _ post => post)
    (fun e k inv _ => (discard_holds (fun _ => id) wf made inv).mono (fun _ i => i) fun _ _ _ _ => nofun)
  refine Job.holds_bind (Q := fun _ _ => True) (Job.holds_ofFault ?_) ?_ (fun e k _ _ => nofun)
  · refine (Program.holds_create inv fun gs => Scope.allows_create (inv.2.sound wf) fun l led =>
      ⟨(place n inv l led).1, (place n inv l led).2 _⟩).mono (fun _ i => i) fun r k _ _ => ?_
    cases r <;> trivial
  intro _ n inv _
  refine Job.holds_bind (Q := fun r k => r = .ok () →
      Waits m target bytes ⟨target, temporaryPath target nonce⟩ k) (Job.holds_ofFault ?_) ?_
    (fun e k _ _ => nofun)
  · refine (Program.holds_write inv fun gs => Scope.allows_write (inv.2.sound wf) fun l led =>
      ⟨(place n inv l led).1, (place n inv l led).2 _⟩).mono (fun _ i => i) fun r k after stored => ?_
    rcases stored with ⟨healthy, rfl, written⟩ | ⟨fault, rfl, _⟩
    · intro _
      obtain ⟨l, found⟩ := Scope.find_of_write (inv.2.sound wf) written
      rw [inv.1] at healthy found
      exact ⟨nonce, n.steps, l, made, rfl, healthy, found⟩
    · exact nofun
  intro _ n inv waits
  refine Job.holds_bind (Q := fun _ k => k.files = n.files) (Job.holds_ofFault ?_) ?_
    (fun e k _ _ => nofun)
  · refine Program.holds_quiet (.sync _) (Scope.steady _ m) trivial inv fun k files _ => ?_
    generalize (n.perform _).1 = r
    cases r <;> exact files
  rintro _ k inv files
  refine Job.holds_pure.mpr ⟨inv, fun s done => ?_⟩
  cases done
  obtain ⟨nonce', i, l, made', same, healthy, found⟩ := waits rfl
  exact ⟨nonce', i, l, made', same, healthy, files ▸ found⟩

/-- Staging touches nothing but temporary files, and if it succeeds the way to the target is there. -/
theorem stage_holds (wf : m.files.WellFormed) (tidy : m.environment.Tidy) :
    (stage target bytes).run.Holds ((staging target).Admits m)
      (fun r k => ∀ s, r = .ok s → Waits m target bytes s k ∧ Ready k.files target) m := by
  refine Job.holds_bind (Q := fun r k => r = .ok () →
      k.files.kindAt (directoryOf target) = some .directory) (Job.holds_ofFault ?_) ?_
    (fun e k _ _ => nofun)
  · refine (makeDirectories_holds wf (Scope.Admits.refl (staging target) m)
      (fun name inside d => ⟨d, name, inside, rfl⟩) (directoryOf_ne_empty target)).mono
      (fun _ i => i) fun r k _ there => ?_
    cases r with
    | ok _ => exact fun _ => there rfl
    | error _ => exact nofun
  intro _ n inv there
  have given : IsNonce (n.environment.nonce n.steps) := inv.1 ▸ tidy n.steps
  refine Job.holds_bind (Q := fun r k => k.files = n.files ∧ ∀ nonce, r = .ok nonce → IsNonce nonce)
    (Job.holds_lift (Program.holds_quiet .nonce (Scope.steady _ m) trivial inv
      fun k files _ => ⟨files, fun nonce same => ?_⟩)) ?_ (fun e k _ _ => nofun)
  · cases same
    exact given
  rintro nonce k inv ⟨files, found⟩
  -- Filling starts where the directories are made, so they are still there at its end.
  refine (fill_holds (inv.2.sound wf) (found nonce rfl) (Scope.Admits.refl _ k)).mono
    (fun _ later => inv.trans (later.mono (waiting_le_staging target))) fun r j later waits s done => ?_
  obtain ⟨nonce', i, l, made', same, healthy, waiting⟩ := waits s done
  have directory := later.2.grows.kindAt (files ▸ there rfl)
  refine ⟨⟨nonce', i, l, made', same, inv.1 ▸ healthy, inv.1 ▸ waiting⟩, directory, nonce', l, made', ?_⟩
  rw [same] at waiting
  exact (Files.find_ok.mp waiting).1

/-! ### Reading back and moving -/

theorem readBack_holds {I : Machine → Prop} {w : Staged} (steady : Steady I) (inv : I n) :
    w.readBack.run.Holds I (fun r k => k.files = n.files ∧ k.environment = n.environment ∧
      ∀ b, r = .ok b → n.files.read w.temporary = .ok b) n := by
  refine Job.holds_ofFault ((Program.holds_read steady inv).mono (fun _ i => i) ?_)
  rintro r k _ ⟨files, environment, answered⟩
  cases r with
  | error fault => exact ⟨files, environment, nofun⟩
  | ok bytes =>
    refine ⟨files, environment, fun b same => ?_⟩
    cases same
    rcases answered with same | ⟨fault, _, failed⟩
    · exact same.symm
    · cases failed

theorem verify_holds {s : Scope} {w : Staged} (inv : s.Admits m n) :
    (w.verify bytes).run.Holds (s.Admits m)
      (fun r k => k.files = n.files ∧ (r = .ok () → n.files.read w.temporary = .ok bytes)) n := by
  refine Job.holds_bind (readBack_holds (Scope.steady s m) inv) (fun actual k inv found => ?_)
    (fun e k _ found => ⟨found.1, nofun⟩)
  split
  · rename_i same
    exact Job.holds_pure.mpr ⟨inv, found.1, fun _ => same ▸ found.2.2 actual rfl⟩
  · exact Job.holds_throw.mpr ⟨inv, found.1, nofun⟩

/-- The target holds the content, and nothing else has changed but temporary files. -/
def Landed (m : Machine) (target : Path) (bytes : ByteArray) (n : Machine) : Prop :=
  Ready n.files target ∧ ∃ d, target.fileName? = some (baseOf target) ∧
    n.files.find target = .ok (d ++ [baseOf target], .file bytes) ∧
    ((staging target).or (landing (d ++ [baseOf target]) bytes)).Admits m n

/-- Only the disk and the environment of the machine before count. -/
theorem Landed.of_same {k : Machine} (landed : Landed n target bytes k) (files : n.files = m.files)
    (environment : n.environment = m.environment) : Landed m target bytes k := by
  obtain ⟨ready, d, named, found, same, allowed⟩ := landed
  exact ⟨ready, d, named, found, same.trans environment, files ▸ allowed⟩

theorem Landed.same {k : Machine} (landed : Landed m target bytes n) (same : n.Same k) :
    Landed m target bytes k := by
  obtain ⟨ready, d, named, found, admitted⟩ := landed
  exact ⟨same.1 ▸ ready, d, named, same.1 ▸ found, Scope.steady _ m n k same.1 same.2 admitted⟩

/-- The place of a target: of its name, and where its path leads, if it does so from the start. -/
def IsPlace (fs : Files) (target : Path) (l : Location) : Prop :=
  (∃ d, l = d ++ [baseOf target]) ∧ ∀ k, fs.locate target = .ok k → l = k

/-- What replacing a target may change at any moment. -/
def replacing (fs : Files) (target : Path) (bytes : ByteArray) : Scope where
  lose l := (staging target).lose l ∨ IsPlace fs target l
  gain l b := (staging target).gain l b ∨ IsPlace fs target l ∧ b = bytes
  make := (staging target).make

theorem staging_le_replacing (fs : Files) (target : Path) (bytes : ByteArray) :
    (staging target).Le (replacing fs target bytes) :=
  ⟨fun _ => .inl, fun _ _ => .inl, fun _ => id⟩

theorem IsPlace.grows {fs gs : Files} {l : Location} (place : IsPlace gs target l) (grows : fs.Grows gs) :
    IsPlace fs target l :=
  ⟨place.1, fun k led => place.2 k (grows.locate led)⟩

/-- Where the path leads is found out no later than at the start. -/
theorem replacing_mono {fs gs : Files} (grows : fs.Grows gs) :
    (replacing gs target bytes).Le (replacing fs target bytes) :=
  ⟨fun _ => .imp_right fun place => place.grows grows,
    fun _ _ => .imp_right fun place => ⟨place.1.grows grows, place.2⟩, fun _ => id⟩

/-- A target that something can be moved to ends in its file name. -/
theorem locate_target {fs : Files} {k : Location} (wf : fs.WellFormed) (led : fs.locate target = .ok k)
    (free : fs.get? k ≠ some .directory) :
    ∃ d name, k = d ++ [name] ∧ target.fileName? = some name := by
  obtain ⟨front, name, pieces, plain⟩ := wf.plain_of_locate led free
  obtain ⟨d, same, _⟩ := Files.locate_plain pieces plain led
  exact ⟨d, name, same, Path.fileName?_of_pieces pieces plain⟩

theorem baseOf_eq {name : String} (named : target.fileName? = some name) : baseOf target = name := by
  simp [baseOf, named]

/-- What a path finds as a file has the name that its temporary files are made for. -/
theorem place_of_file {fs : Files} {l : Location} (wf : fs.WellFormed)
    (found : fs.find target = .ok (l, .file bytes)) :
    ∃ d, l = d ++ [baseOf target] ∧ target.fileName? = some (baseOf target) := by
  obtain ⟨led, file, _⟩ := Files.find_ok.mp found
  obtain ⟨d, name, rfl, named⟩ := locate_target wf led (by simp [file])
  rw [baseOf_eq named]
  exact ⟨d, rfl, named⟩

/-- What is moved is what waits, and it goes to the place of the target. -/
theorem lands_of_rename {fs gs : Files} {l : Location} (wf : fs.WellFormed) (made : IsNonce nonce)
    (waits : fs.find (temporaryPath target nonce) = .ok (l, .file bytes))
    (done : fs.rename (temporaryPath target nonce) target = .ok gs) :
    ∃ d, target.fileName? = some (baseOf target) ∧ fs.locate target = .ok (d ++ [baseOf target]) ∧
      gs.find target = .ok (d ++ [baseOf target], .file bytes) ∧
      ((waiting target).or (landing (d ++ [baseOf target]) bytes)).Allows fs gs := by
  have leaves := isTemporary_of_locate made (Files.find_ok.mp waits).1
  obtain ⟨k, l', bytes', led, dots, found, slash, free, files⟩ := Files.rename_ok.mp done
  obtain ⟨rfl, rfl⟩ : l' = l ∧ bytes' = bytes := by
    have same := found.symm.trans waits
    simpa using same
  obtain ⟨d, name, rfl, named⟩ := locate_target wf led free
  obtain rfl := baseOf_eq named
  have apart : l' ≠ d ++ [baseOf target] := by
    rintro rfl
    exact not_isTemporary leaves
  have allowed : ((waiting target).or (landing (d ++ [baseOf target]) bytes')).Allows fs gs := by
    refine Scope.allows_rename wf (fun j b found => ?_) (fun j b k' found led' _ => ?_) done
    · exact .inl (isTemporary_of_locate made (Files.find_ok.mp found).1)
    · obtain ⟨rfl, rfl⟩ : j = l' ∧ b = bytes' := by
        have same := found.symm.trans waits
        simpa using same
      cases led'.symm.trans led
      exact ⟨.inr rfl, .inr ⟨rfl, rfl⟩⟩
  refine ⟨d, named, led, Files.find_ok.mpr ⟨allowed.grows.locate led, ?_, fun _ => slash⟩, allowed⟩
  rw [files, if_neg apart, Files.get?_put_same (by simp)]

/-- A scope in which a target can be replaced. -/
structure Covers (u : Scope) (fs : Files) (target : Path) (bytes : ByteArray) : Prop where
  staging : (staging target).Le u
  landing : ∀ gs d, fs.Grows gs → gs.locate target = .ok (d ++ [baseOf target]) →
    (landing (d ++ [baseOf target]) bytes).Le u

theorem Covers.grows {u : Scope} {fs gs : Files} (covers : Covers u fs target bytes) (grows : fs.Grows gs) :
    Covers u gs target bytes :=
  ⟨covers.staging, fun hs d later => covers.landing hs d (grows.trans later)⟩

theorem replacing_covers (fs : Files) (target : Path) (bytes : ByteArray) :
    Covers (replacing fs target bytes) fs target bytes where
  staging := staging_le_replacing fs target bytes
  landing gs d grows led := by
    have place : ∀ l, l = d ++ [baseOf target] → IsPlace fs target l := by
      rintro l rfl
      refine ⟨⟨d, rfl⟩, fun k led' => ?_⟩
      exact Except.ok.inj (led.symm.trans (grows.locate led'))
    exact ⟨fun l same => .inr (place l same), fun l b both => .inr ⟨place l both.1, both.2⟩,
      fun l => False.elim⟩

variable {u : Scope}

theorem commit_holds {l : Location} (covers : Covers u m.files target bytes) (wf : m.files.WellFormed)
    (made : IsNonce nonce) (inv : (staging target).Admits m n) (ready : Ready n.files target)
    (waits : n.files.find (temporaryPath target nonce) = .ok (l, .file bytes)) :
    (commit ⟨target, temporaryPath target nonce⟩).run.Holds (u.Admits m)
      (fun r k => (r = .ok () → Landed m target bytes k) ∧
        ∀ e, r = .error e → (staging target).Admits m k) n := by
  have arrives : ∀ gs, n.files.rename (temporaryPath target nonce) target = .ok gs →
      u.Allows n.files gs := by
    intro gs done
    obtain ⟨d, _, led, _, allowed⟩ := lands_of_rename (inv.2.sound wf) made waits done
    exact (allowed.mono (waiting_le_staging target).or).mono
      (Scope.or_le covers.staging (covers.landing n.files d inv.2.grows led))
  refine Job.holds_ofFault ((Program.holds_rename (inv.mono covers.staging) arrives).mono
    (fun _ i => i) fun r k after outcome => ?_)
  rcases outcome with ⟨_, rfl, done⟩ | ⟨fault, rfl, same, _⟩
  · refine ⟨fun _ => ?_, nofun⟩
    obtain ⟨d, named, _, found, allowed⟩ := lands_of_rename (inv.2.sound wf) made waits done
    exact ⟨ready.grows allowed.grows, d, named, found, after.1,
      (inv.2.mono (Scope.le_or_left _ _)).trans (allowed.mono (waiting_le_staging target).or)⟩
  · exact ⟨nofun, fun e _ => ⟨after.1, same ▸ inv.2⟩⟩

/-- Replacing a target stays in every scope that covers it, and puts exactly the content there or changes
nothing but temporary files. -/
theorem replace_holds_within (covers : Covers u m.files target bytes) (wf : m.files.WellFormed)
    (tidy : m.environment.Tidy) :
    (replace target bytes).run.Holds (u.Admits m)
      (fun r k => (r = .ok () → Landed m target bytes k) ∧
        ∀ e, r = .error e → (staging target).Admits m k) m := by
  have le := covers.staging
  refine Job.holds_bind (Q := fun r k => (staging target).Admits m k ∧
      ∀ s, r = .ok s → Waits m target bytes s k ∧ Ready k.files target)
    ((stage_holds wf tidy).mono (fun _ => Scope.Admits.mono le) fun r k i q => ⟨i, q⟩) ?_
    (fun e k _ post => ⟨nofun, fun _ _ => post.1⟩)
  rintro w n _ ⟨staged, waits⟩
  obtain ⟨⟨nonce, i, l, made, rfl, healthy, found⟩, ready⟩ := waits w rfl
  refine orDiscard_holds (Q := fun r k => (r = .ok () → Landed m target bytes k) ∧
      ∀ e, r = .error e → (staging target).Admits m k) ?_ (fun _ k _ post => post) ?_
  · refine Job.holds_bind (Q := fun r k => (staging target).Admits m k ∧ k.files = n.files ∧
        (r = .ok () → n.files.read (temporaryPath target nonce) = .ok bytes))
      ((verify_holds staged).mono (fun _ => Scope.Admits.mono le) fun r k i q => ⟨i, q⟩) ?_ ?_
    · rintro _ k _ ⟨staged, files, verified⟩
      obtain ⟨l', found'⟩ := Files.read_ok.mp (verified rfl)
      exact commit_holds covers wf made staged (files ▸ ready) (files ▸ found')
    · exact fun e k _ post => ⟨nofun, fun _ _ => post.1⟩
  · intro e k _ post
    exact (discard_holds (fun _ => id) wf made (post.2 e rfl)).mono (fun _ => Scope.Admits.mono le)
      fun _ j staged _ => ⟨nofun, fun _ _ => staged⟩

/-- Replacing a target puts exactly the content there, or changes nothing but temporary files. -/
theorem replace_holds (wf : m.files.WellFormed) (tidy : m.environment.Tidy) :
    (replace target bytes).run.Holds ((replacing m.files target bytes).Admits m)
      (fun r k => (r = .ok () → Landed m target bytes k) ∧
        ∀ e, r = .error e → (staging target).Admits m k) m :=
  replace_holds_within (replacing_covers m.files target bytes) wf tidy

end

end Staged

end SourceRepair.Disk
