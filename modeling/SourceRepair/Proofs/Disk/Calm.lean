import Mathlib.Data.String.Basic
import SourceRepair.Proofs.Disk.Staged

/-!
# Calm environments

In an environment without faults a staged write succeeds where nothing stands in its way,
`Staged.replace_succeeds`. What it did is said for every environment by `Staged.replace_holds`.
-/

namespace SourceRepair.Disk

open Files (Fits endsInSlash)
open Path (IsPlain)

/-- Nothing fails unless the disk says so, writes store what they are given, and made-up texts are
what they should be. -/
structure Environment.Calm (e : Environment) : Prop where
  healthy : ∀ i, e.fault i = none
  faithful : ∀ i b, e.stored i b = b
  tidy : e.Tidy

theorem Environment.Calm.detects {e : Environment} (calm : e.Calm) : e.Detects :=
  fun i b _ => .inl (calm.faithful i b)

namespace Machine

variable {m n : Machine}

/-- Without faults an operation does what the disk says. -/
theorem Outcome.ok {operation : Except Fault Files} {gs : Files} {r : Except Fault Unit}
    (outcome : m.Outcome operation r n) (calm : m.environment.Calm) (can : operation = .ok gs) :
    r = .ok () ∧ n.files = gs := by
  rcases outcome with ⟨_, done, same⟩ | ⟨fault, _, _, broken | failed⟩
  · exact ⟨done, (Except.ok.inj (can.symm.trans same)).symm⟩
  · rw [calm.healthy] at broken
    cases broken
  · cases can.symm.trans failed

theorem Outcome.error {operation : Except Fault Files} {fault : Fault} {r : Except Fault Unit}
    (outcome : m.Outcome operation r n) (calm : m.environment.Calm) (cannot : operation = .error fault) :
    r = .error fault ∧ n.files = m.files := by
  rcases outcome with ⟨_, _, same⟩ | ⟨fault', failed, same, broken | failed'⟩
  · cases cannot.symm.trans same
  · rw [calm.healthy] at broken
    cases broken
  · cases cannot.symm.trans failed'
    exact ⟨failed, same⟩

theorem Stored.ok {p : Path} {bytes : ByteArray} {gs : Files} {r : Except Fault Unit}
    (stored : m.Stored p bytes r n) (calm : m.environment.Calm) (can : m.files.write p bytes = .ok gs) :
    r = .ok () ∧ n.files = gs := by
  unfold Stored at stored
  rw [calm.faithful] at stored
  rcases stored with ⟨_, done, same⟩ | ⟨fault, _, _, broken | failed⟩
  · exact ⟨done, (Except.ok.inj (can.symm.trans same)).symm⟩
  · rw [calm.healthy] at broken
    cases broken
  · cases can.symm.trans failed

theorem Answers.ok {α : Type} {answer r : Except Fault α} (answers : m.Answers answer r)
    (calm : m.environment.Calm) : r = answer := by
  rcases answers with same | ⟨fault, broken, _⟩
  · exact same
  · rw [calm.healthy] at broken
    cases broken

end Machine

namespace Staged

variable {m n : Machine} {fs : Files} {target : Path} {bytes : ByteArray} {nonce nonce' base : String}
  {l : Location}

/-! ### Places for temporary files -/

/-- Every digit of a nonce or a digest is one byte. -/
theorem utf8ByteSize_of_digits {s : String} (digits : ∀ c ∈ s.toList, c ∈ "0123456789abcdef".toList) :
    s.utf8ByteSize = s.toList.length := by
  have single : ∀ c ∈ "0123456789abcdef".toList, c.utf8Size = 1 := by simp [Char.utf8Size]
  rw [← String.utf8Len_toList]
  generalize s.toList = cs at digits
  induction cs with
  | nil => rfl
  | cons c cs ih =>
    rw [String.utf8Len_cons, single c (digits c List.mem_cons_self), List.length_cons,
      ih fun d member => digits d (List.mem_cons_of_mem _ member)]

/-- Whether a temporary file can have its name does not depend on the nonce. -/
theorem fits_temporaryName (made : IsNonce nonce) : Fits (temporaryName base nonce) ↔
    base.utf8ByteSize + 38 ≤ Files.nameLimit ∧ ∀ c ∈ base.toList, c.toNat ≠ 0 := by
  have size : (temporaryName base nonce).utf8ByteSize = base.utf8ByteSize + 38 := by
    have dot : ".".utf8ByteSize = 1 := by decide
    have ending : ".tmp".utf8ByteSize = 4 := by decide
    have inner : nonce.utf8ByteSize = 32 := by
      rw [utf8ByteSize_of_digits made.digits, String.length_toList, made.length]
    simp only [temporaryName, String.utf8ByteSize_append, dot, ending, inner]
    omega
  constructor
  · rintro ⟨short, clean⟩
    exact ⟨size ▸ short, fun c member => clean c (by simp [temporaryName, member])⟩
  · rintro ⟨short, clean⟩
    refine ⟨size ▸ short, fun c member => ?_⟩
    have hex : ∀ c ∈ "0123456789abcdef".toList, c.toNat ≠ 0 := by simp
    have ending : ∀ c ∈ ".tmp".toList, c.toNat ≠ 0 := by simp
    simp only [temporaryName, String.toList_append, List.mem_append, or_assoc] at member
    rcases member with dot | inside | dot | made' | last
    · exact ending c (List.mem_cons.mpr (.inl (List.mem_singleton.mp dot)))
    · exact clean c inside
    · exact ending c (List.mem_cons.mpr (.inl (List.mem_singleton.mp dot)))
    · exact hex c (made.digits c made')
    · exact ending c last

/-- Where there is a place for one temporary file there is one for every other. -/
theorem Ready.locate (ready : Ready fs target) (made : IsNonce nonce) :
    ∃ d, fs.locate (temporaryPath target nonce) = .ok (d ++ [temporaryName (baseOf target) nonce]) := by
  obtain ⟨_, nonce', l, made', led⟩ := ready
  have full := directoryOf_ne_empty target
  obtain ⟨d, led, directory, fits, _⟩ :=
    (Files.locate_join full (isPlain_temporaryName (not_slash_baseOf target) made')).mp led
  have fits := (fits_temporaryName made).mpr ((fits_temporaryName made').mp fits)
  exact ⟨d, (Files.locate_join full (isPlain_temporaryName (not_slash_baseOf target) made)).mpr
    ⟨d, led, directory, fits, rfl⟩⟩

/-- Nothing stands in the way of a staged write: the directory of the target is there, and no directory
stands where a temporary file for it or the target itself is to be. -/
structure Clear (fs : Files) (target : Path) : Prop where
  ready : Ready fs target
  temporary : ∀ nonce, IsNonce nonce → fs.kindAt (temporaryPath target nonce) ≠ some .directory
  place : ∃ k, fs.locate target = .ok k ∧ fs.get? k ≠ some .directory
  slash : endsInSlash target = false

theorem not_directory {p : Path} (other : fs.kindAt p ≠ some .directory) (led : fs.locate p = .ok l) :
    fs.get? l ≠ some .directory := by
  intro directory
  exact other (Files.kindAt_directory.mpr ⟨l, Files.find_ok.mpr ⟨led, directory, fun no => absurd rfl no⟩⟩)

theorem Clear.locate (clear : Clear fs target) (made : IsNonce nonce) :
    ∃ l, fs.locate (temporaryPath target nonce) = .ok l ∧ fs.get? l ≠ some .directory := by
  obtain ⟨d, led⟩ := clear.ready.locate made
  exact ⟨_, led, not_directory (clear.temporary nonce made) led⟩

/-- Changes that make no directory, and lose no target, leave the way clear. -/
theorem Clear.admits {s : Scope} (clear : Clear m.files target) (admitted : s.Admits m n)
    (none : ∀ l, ¬s.make l) : Clear n.files target where
  ready := clear.ready.grows admitted.2.grows
  temporary nonce made there := by
    obtain ⟨l, found⟩ := Files.kindAt_directory.mp there
    obtain ⟨led, directory, _⟩ := Files.find_ok.mp found
    obtain ⟨k, led', free⟩ := clear.locate made
    cases led.symm.trans (admitted.2.grows.locate led')
    exact free ((admitted.2.made _ directory).resolve_right (none _))
  place := by
    obtain ⟨k, led, free⟩ := clear.place
    exact ⟨k, admitted.2.grows.locate led,
      fun directory => free ((admitted.2.made _ directory).resolve_right (none _))⟩
  slash := clear.slash

/-! ### Staged writes that succeed -/

theorem makeDirectories_calm {p : Path} (calm : m.environment.Calm) (full : p.text ≠ "")
    (there : m.files.kindAt p = some .directory) :
    (Program.makeDirectories p).Holds (Scope.nothing.Admits m) (fun r _ => r = .ok ()) m := by
  obtain ⟨l, found⟩ := Files.kindAt_directory.mp there
  obtain ⟨led, directory, _⟩ := Files.find_ok.mp found
  have cannot : m.files.makeDirectory p = .error .alreadyExists := by
    simp [Files.makeDirectory, led, directory, bind, Except.bind]
  have start := Scope.Admits.refl Scope.nothing m
  rw [Program.makeDirectories, Path.enclosing, if_neg (by simpa using full), Program.makeInside]
  refine (Program.holds_makeDirectory start fun gs done => ?_).bind fun r k inv outcome => ?_
  · cases cannot.symm.trans done
  · obtain ⟨rfl, files⟩ := outcome.error calm cannot
    refine (isDirectory_holds inv).bind fun b j inv checked => .pure inv ?_
    rw [checked.2.mpr (files ▸ there), if_pos rfl]

theorem fill_calm (calm : m.environment.Calm) (wf : m.files.WellFormed) (made : IsNonce nonce)
    (led : m.files.locate (temporaryPath target nonce) = .ok l)
    (free : m.files.get? l ≠ some .directory) :
    (fill target bytes nonce).run.Holds ((waiting target).Admits m)
      (fun r k => r = .ok ⟨target, temporaryPath target nonce⟩ ∧
        ∃ l, k.files.find (temporaryPath target nonce) = .ok (l, .file bytes)) m := by
  have place : ∀ n : Machine, ∀ l, n.files.locate (temporaryPath target nonce) = .ok l →
      (waiting target).lose l ∧ ∀ b, (waiting target).gain l b :=
    fun n l led => ⟨isTemporary_of_locate made led, fun _ => isTemporary_of_locate made led⟩
  have slash := Path.endsInSlash_join (directoryOf target)
    (isPlain_temporaryName (not_slash_baseOf target) made)
  have start := Scope.Admits.refl (waiting target) m
  refine orDiscard_holds (Q := fun r k => r = .ok ⟨target, temporaryPath target nonce⟩ ∧
      ∃ l, k.files.find (temporaryPath target nonce) = .ok (l, .file bytes)) ?_ (fun _ _ _ post => post)
    (fun e k _ post => nomatch post.1)
  have created := Files.create_ok.mpr ⟨l, led, free, slash, rfl⟩
  refine Job.holds_bind (Q := fun r k => r = .ok () ∧
      m.files.create (temporaryPath target nonce) = .ok k.files) (Job.holds_ofFault ?_) ?_
    (fun e k _ post => nomatch post.1)
  · refine (Program.holds_create start fun gs => Scope.allows_create wf fun l led =>
      ⟨(place m l led).1, (place m l led).2 _⟩).mono (fun _ i => i) fun r k _ outcome => ?_
    obtain ⟨rfl, same⟩ := outcome.ok calm created
    exact ⟨rfl, same ▸ created⟩
  rintro _ k inv ⟨_, created⟩
  obtain ⟨l', found⟩ := Scope.find_of_create wf created
  have written : k.files.write (temporaryPath target nonce) bytes = .ok (k.files.put l' (.file bytes)) :=
    Files.write_ok.mpr ⟨l', _, found, rfl⟩
  refine Job.holds_bind (Q := fun r j => r = .ok () ∧
      k.files.write (temporaryPath target nonce) bytes = .ok j.files) (Job.holds_ofFault ?_) ?_
    (fun e k _ post => nomatch post.1)
  · refine (Program.holds_write inv fun gs => Scope.allows_write (inv.2.sound wf) fun l led =>
      ⟨(place k l led).1, (place k l led).2 _⟩).mono (fun _ i => i) fun r j _ stored => ?_
    obtain ⟨rfl, same⟩ := stored.ok (inv.1 ▸ calm) written
    exact ⟨rfl, same ▸ written⟩
  rintro _ j inv' ⟨_, written⟩
  obtain ⟨l'', found'⟩ := Scope.find_of_write (inv.2.sound wf) written
  refine Job.holds_bind (Q := fun r i => r = .ok () ∧ i.files = j.files) (Job.holds_ofFault ?_) ?_
    (fun e k _ post => nomatch post.1)
  · refine Program.holds_quiet (.sync _) (Scope.steady _ m) trivial inv' fun i files _ => ?_
    have fine : (j.perform (.sync (temporaryPath target nonce))).1 = .ok () := by
      show (j.attempt (.ok j.files)).1 = .ok ()
      simp [Machine.attempt, inv'.1, calm.healthy]
    rw [fine]
    exact ⟨rfl, files⟩
  rintro _ i inv'' ⟨_, files⟩
  exact Job.holds_pure.mpr ⟨inv'', rfl, l'', files ▸ found'⟩

/-- Where the way is clear staging succeeds, and the content waits as it was given. -/
theorem stage_calm (calm : m.environment.Calm) (wf : m.files.WellFormed) (clear : Clear m.files target) :
    (stage target bytes).run.Holds ((waiting target).Admits m)
      (fun r n => ∃ nonce l, IsNonce nonce ∧ r = .ok ⟨target, temporaryPath target nonce⟩ ∧
        n.files.find (temporaryPath target nonce) = .ok (l, .file bytes)) m := by
  have none : Scope.nothing.Le (waiting target) :=
    ⟨fun _ => False.elim, fun _ _ => False.elim, fun _ => False.elim⟩
  refine Job.holds_bind (Q := fun r _ => r = .ok ()) (Job.holds_ofFault
    ((makeDirectories_calm calm (directoryOf_ne_empty target) clear.ready.1).mono
      (fun _ => Scope.Admits.mono none) fun r k _ done => ?_)) ?_ (fun e k _ post => nomatch post)
  · subst done
    rfl
  intro _ n inv _
  have given : IsNonce (n.environment.nonce n.steps) := inv.1 ▸ calm.tidy n.steps
  refine Job.holds_bind (Q := fun r k => k.files = n.files ∧ ∃ nonce, r = .ok nonce ∧ IsNonce nonce)
    (Job.holds_lift (Program.holds_quiet .nonce (Scope.steady _ m) trivial inv
      fun k files _ => ⟨files, _, rfl, given⟩)) ?_ (fun e k _ post => nomatch post.2)
  rintro nonce k inv' ⟨files, nonce', same, made⟩
  cases same
  obtain ⟨l, led, free⟩ := (clear.admits inv' fun _ => id).locate made
  refine (fill_calm (inv'.1 ▸ calm) (inv'.2.sound wf) made led free).mono (fun _ => inv'.trans) ?_
  rintro r j _ ⟨done, l, found⟩
  exact ⟨nonce, l, made, done, found⟩

theorem readBack_calm {w : Staged} (calm : n.environment.Calm) (found : n.files.find w.temporary =
    .ok (l, .file bytes)) (inv : (waiting target).Admits m n) :
    w.readBack.run.Holds ((waiting target).Admits m)
      (fun r k => r = .ok bytes ∧ k.files = n.files) n := by
  refine Job.holds_ofFault ((Program.holds_read (Scope.steady _ m) inv).mono (fun _ i => i) ?_)
  rintro r k _ ⟨files, _, answered⟩
  rw [Files.read_ok.mpr ⟨l, found⟩] at answered
  rw [answered.ok calm]
  exact ⟨rfl, files⟩

theorem verify_calm {w : Staged} (calm : n.environment.Calm) (found : n.files.find w.temporary =
    .ok (l, .file bytes)) (inv : (waiting target).Admits m n) :
    (w.verify bytes).run.Holds ((waiting target).Admits m)
      (fun r k => r = .ok () ∧ k.files = n.files) n := by
  refine Job.holds_bind (readBack_calm calm found inv) ?_ (fun e k _ post => nomatch post.1)
  rintro actual k inv ⟨same, files⟩
  cases same
  rw [if_pos rfl]
  exact Job.holds_pure.mpr ⟨inv, rfl, files⟩

/-- Content has come to a target, and nothing else has changed but temporary files. -/
def Settled (m : Machine) (target : Path) (bytes : ByteArray) (n : Machine) : Prop :=
  ∃ d, ((waiting target).or (landing (d ++ [baseOf target]) bytes)).Admits m n

/-- Where the way is clear what waits can be moved to the target. -/
theorem commit_calm (calm : m.environment.Calm) (wf : m.files.WellFormed) (made : IsNonce nonce)
    (clear : Clear m.files target)
    (waits : m.files.find (temporaryPath target nonce) = .ok (l, .file bytes)) :
    (commit ⟨target, temporaryPath target nonce⟩).run.Holds (fun _ => True)
      (fun r n => r = .ok () ∧ Settled m target bytes n) m := by
  obtain ⟨k, led, free⟩ := clear.place
  obtain ⟨front, name, pieces, plain⟩ := wf.plain_of_locate led free
  have renamed := Files.rename_ok.mpr
    ⟨k, l, bytes, led, Path.endsInDots_of_pieces pieces plain, waits, clear.slash, free, rfl⟩
  refine Job.holds_ofFault ((Program.holds_rename (Scope.Admits.refl .anything m) fun gs done =>
    Scope.allows_rename wf (fun _ _ _ => trivial) (fun _ _ _ _ _ _ => ⟨trivial, trivial⟩) done).mono
      (fun _ _ => trivial) fun r n inv outcome => ?_)
  obtain ⟨rfl, files⟩ := outcome.ok calm renamed
  obtain ⟨d, _, _, _, allowed⟩ := lands_of_rename wf made waits renamed
  exact ⟨rfl, d, inv.1, files ▸ allowed⟩

/-- Where the way is clear content is put at the target. -/
theorem replace_succeeds (calm : m.environment.Calm) (wf : m.files.WellFormed)
    (clear : Clear m.files target) :
    (replace target bytes).run.Holds (fun _ => True)
      (fun r n => r = .ok () ∧ Settled m target bytes n) m := by
  refine Job.holds_bind (Q := fun r n => (waiting target).Admits m n ∧ ∃ nonce l, IsNonce nonce ∧
      r = .ok ⟨target, temporaryPath target nonce⟩ ∧
      n.files.find (temporaryPath target nonce) = .ok (l, .file bytes))
    ((stage_calm calm wf clear).mono (fun _ _ => trivial) fun r n inv post => ⟨inv, post⟩) ?_
    (fun e n _ post => by obtain ⟨_, _, _, _, same, _⟩ := post; cases same)
  rintro w n _ ⟨inv, nonce, l, made, same, found⟩
  cases same
  have verified := verify_calm (w := ⟨target, temporaryPath target nonce⟩) (inv.1 ▸ calm) found inv
  refine orDiscard_holds (Q := fun r k => r = .ok () ∧ Settled m target bytes k) ?_
    (fun _ _ _ post => post) (fun e n _ post => nomatch post.1)
  refine Job.holds_bind (Q := fun r k => (waiting target).Admits m k ∧ r = .ok () ∧ k.files = n.files)
    (verified.mono (fun _ _ => trivial) fun r k inv post => ⟨inv, post⟩) ?_
    (fun e n _ post => nomatch post.2.1)
  rintro _ k _ ⟨inv', _, files⟩
  refine (commit_calm (inv'.1 ▸ calm) (inv'.2.sound wf) made (clear.admits inv' fun _ => id)
    (files ▸ found)).mono (fun _ i => i) fun r j _ ⟨done, d, settled⟩ => ⟨done, d, ?_⟩
  exact (inv'.mono (Scope.le_or_left _ _)).trans settled

/-- What has settled leaves the way to other targets clear. -/
theorem Clear.settled {p : Path} (clear : Clear m.files p) (settled : Settled m target bytes n) :
    Clear n.files p := by
  obtain ⟨d, admitted⟩ := settled
  exact clear.admits admitted fun _ made => made.elim id id

end Staged

end SourceRepair.Disk
