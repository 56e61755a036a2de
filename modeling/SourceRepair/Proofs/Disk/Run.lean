import SourceRepair.Disk.Staged
import SourceRepair.Proofs.Disk.Scope

/-!
# Reasoning about runs

`Holds` says of a run that an invariant holds at every moment of it and a condition at its end. What
follows from it for a whole program is put together from its parts by `Holds.bind`.
-/

namespace SourceRepair.Disk

namespace Program

variable {α β : Type} {I J : Machine → Prop} {m : Machine}

/-- The invariant `I` holds at every moment of a run, and `Q` of its result and its end. -/
def Holds (I : Machine → Prop) (Q : α → Machine → Prop) : Program α → Machine → Prop
  | done a, m => I m ∧ Q a m
  | step action next, m =>
    I m ∧ (next (m.perform action).1).Holds I Q (m.perform action).2

theorem holds_pure {Q : α → Machine → Prop} {a : α} :
    (pure a : Program α).Holds I Q m ↔ I m ∧ Q a m := Iff.rfl

theorem Holds.pure {Q : α → Machine → Prop} {a : α} (inv : I m) (post : Q a m) :
    (pure a : Program α).Holds I Q m := ⟨inv, post⟩

theorem Holds.bind {p : Program α} {f : α → Program β} {Q : α → Machine → Prop}
    {R : β → Machine → Prop} (first : p.Holds I Q m)
    (next : ∀ a n, I n → Q a n → (f a).Holds I R n) : (p >>= f).Holds I R m := by
  induction p generalizing m with
  | done a => exact next a m first.1 first.2
  | step action k ih => exact ⟨first.1, ih _ first.2⟩

theorem Holds.mono {p : Program α} {Q R : α → Machine → Prop} (h : p.Holds I Q m)
    (inv : ∀ n, I n → J n) (post : ∀ a n, I n → Q a n → R a n) : p.Holds J R m := by
  induction p generalizing m with
  | done a => exact ⟨inv m h.1, post a m h.1 h.2⟩
  | step action k ih => exact ⟨inv m h.1, ih _ h.2⟩

theorem holds_true (p : Program α) (m : Machine) {Q : α → Machine → Prop} (all : ∀ a n, Q a n) :
    p.Holds (fun _ => True) Q m := by
  induction p generalizing m with
  | done a => exact ⟨trivial, all a m⟩
  | step action k ih => exact ⟨trivial, ih _ _⟩

/-- What holds at the end of a run holds of what the run gives. -/
theorem Holds.run {p : Program α} {Q : α → Machine → Prop} (h : p.Holds I Q m) :
    I (p.run m).2 ∧ Q (p.run m).1 (p.run m).2 := by
  induction p generalizing m with
  | done a => exact h
  | step action k ih => exact ih _ h.2

theorem holds_perform (action : Action) {Q : action.Reply → Machine → Prop} :
    (perform action).Holds I Q m ↔
      I m ∧ I (m.perform action).2 ∧ Q (m.perform action).1 (m.perform action).2 := Iff.rfl

theorem Holds.and {p : Program α} {Q R : α → Machine → Prop} (left : p.Holds I Q m)
    (right : p.Holds J R m) : p.Holds (fun n => I n ∧ J n) (fun a n => Q a n ∧ R a n) m := by
  induction p generalizing m with
  | done a => exact ⟨⟨left.1, right.1⟩, left.2, right.2⟩
  | step action k ih => exact ⟨⟨left.1, right.1⟩, ih _ left.2 right.2⟩

end Program

/-! ### Work that may fail -/

namespace Job

open Program

variable {α β : Type} {I : Machine → Prop} {m : Machine}

theorem holds_bind {x : Job α} {f : α → Job β} {Q : Except Failure α → Machine → Prop}
    {R : Except Failure β → Machine → Prop} (first : x.run.Holds I Q m)
    (next : ∀ a n, I n → Q (.ok a) n → (f a).run.Holds I R n)
    (failed : ∀ e n, I n → Q (.error e) n → R (.error e) n) : (x >>= f).run.Holds I R m := by
  rw [ExceptT.run_bind]
  refine first.bind fun r n i q => ?_
  cases r with
  | ok a => exact next a n i q
  | error e => exact ⟨i, failed e n i q⟩

theorem holds_pure {a : α} {Q : Except Failure α → Machine → Prop} :
    (pure a : Job α).run.Holds I Q m ↔ I m ∧ Q (.ok a) m := Iff.rfl

theorem holds_throw {e : Failure} {Q : Except Failure α → Machine → Prop} :
    (throw e : Job α).run.Holds I Q m ↔ I m ∧ Q (.error e) m := Iff.rfl

theorem holds_ofExcept {r : Except Failure α} {Q : Except Failure α → Machine → Prop} :
    (Job.ofExcept r).run.Holds I Q m ↔ I m ∧ Q r m := Iff.rfl

theorem holds_lift {p : Program α} {Q : Except Failure α → Machine → Prop}
    (h : p.Holds I (fun a n => Q (.ok a) n) m) : (liftM p : Job α).run.Holds I Q m := by
  show (ExceptT.lift p : Job α).run.Holds I Q m
  rw [ExceptT.run_lift]
  exact h.bind fun a n i q => ⟨i, q⟩

theorem holds_ofFault {path : Path} {p : Program (Except Fault α)}
    {Q : Except Failure α → Machine → Prop}
    (h : p.Holds I (fun r n => match r with
      | .ok a => Q (.ok a) n
      | .error fault => Q (.error (.ofFault path fault)) n) m) :
    (Job.ofFault path p).run.Holds I Q m := by
  refine h.bind fun r n i q => ?_
  cases r with
  | ok a => exact ⟨i, q⟩
  | error fault => exact ⟨i, q⟩

theorem holds_discard {job : Job α} {Q : Machine → Prop} (h : job.run.Holds I (fun _ n => Q n) m) :
    (discard job : Job Unit).run.Holds I (fun _ n => Q n) m := by
  show (_ <$> job : Job Unit).run.Holds I (fun _ n => Q n) m
  rw [map_eq_pure_bind]
  exact holds_bind h (fun _ _ i q => ⟨i, q⟩) fun _ _ _ q => q

end Job

/-! ### Work that keeps a state -/

namespace Program

variable {α β σ : Type} {I J : Machine → Prop} {Q R : α → σ → Machine → Prop} {t : σ} {m : Machine}

/-- The invariant `I` holds at every moment of some work from the state `t` on, and `Q` of its result,
its state and the machine at its end. -/
def HoldsFrom (I : Machine → Prop) (Q : α → σ → Machine → Prop) (x : StateT σ Program α) (t : σ)
    (m : Machine) : Prop :=
  (x.run t).Holds I (fun r n => Q r.1 r.2 n) m

theorem holdsFrom_bind {x : StateT σ Program α} {f : α → StateT σ Program β}
    {R : β → σ → Machine → Prop} (first : HoldsFrom I Q x t m)
    (next : ∀ a u n, I n → Q a u n → HoldsFrom I R (f a) u n) : HoldsFrom I R (x >>= f) t m := by
  rw [HoldsFrom, StateT.run_bind]
  exact Holds.bind first fun r n i q => next r.1 r.2 n i q

theorem holdsFrom_mono {x : StateT σ Program α} (h : HoldsFrom I Q x t m) (inv : ∀ n, I n → J n)
    (post : ∀ a u n, I n → Q a u n → R a u n) : HoldsFrom J R x t m :=
  Holds.mono h inv fun r n => post r.1 r.2 n

theorem holdsFrom_pure {a : α} : HoldsFrom I Q (pure a) t m ↔ I m ∧ Q a t m := holds_pure

theorem holdsFrom_lift {p : Program α} (h : p.Holds I (fun a n => Q a t n) m) :
    HoldsFrom I Q (liftM p) t m := by
  show ((StateT.lift p : StateT σ Program α).run t).Holds I _ m
  rw [StateT.run_lift]
  exact h.bind fun _ _ i q => .pure i q

end Program

-- From here on only the rules above are used: unfolding a run can mean running the whole program.
attribute [irreducible] Program.Holds

/-! ### Actions -/

/-- The disk and the environment are those of another machine. -/
def Machine.Same (n k : Machine) : Prop := k.files = n.files ∧ k.environment = n.environment

theorem Machine.Same.refl (n : Machine) : n.Same n := ⟨rfl, rfl⟩

theorem Machine.Same.trans {n k j : Machine} (first : n.Same k) (second : k.Same j) : n.Same j :=
  ⟨second.1.trans first.1, second.2.trans first.2⟩

/-- What only the disk and the environment decide. -/
def Steady (I : Machine → Prop) : Prop :=
  ∀ n k, k.files = n.files → k.environment = n.environment → I n → I k

/-- One machine comes from another by changes in a scope, in the same environment. -/
def Scope.Admits (s : Scope) (m n : Machine) : Prop :=
  n.environment = m.environment ∧ s.Allows m.files n.files

namespace Scope

variable {s t : Scope} {m n k : Machine}

theorem Admits.refl (s : Scope) (m : Machine) : s.Admits m m := ⟨rfl, Allows.refl s _⟩

theorem Admits.trans (first : s.Admits m n) (second : s.Admits n k) : s.Admits m k :=
  ⟨second.1.trans first.1, first.2.trans second.2⟩

theorem Admits.mono (le : s.Le t) (admitted : s.Admits m n) : t.Admits m n :=
  ⟨admitted.1, admitted.2.mono le⟩

/-- Nothing that a scope is about has changed. -/
theorem admits_of_files (environment : n.environment = m.environment) (files : n.files = m.files) :
    s.Admits m n := ⟨environment, files ▸ Allows.refl s _⟩

theorem steady (s : Scope) (m : Machine) : Steady (s.Admits m) :=
  fun _ _ files environment inv => inv.trans (admits_of_files environment files)

end Scope

namespace Machine

variable {m : Machine} {s : Scope}

/-- How an operation on the disk can end: as the disk says, or with a fault that changes nothing. -/
def Outcome (m : Machine) (operation : Except Fault Files) (r : Except Fault Unit) (n : Machine) :
    Prop :=
  (m.environment.fault m.steps = none ∧ r = .ok () ∧ operation = .ok n.files) ∨
  ∃ fault, r = .error fault ∧ n.files = m.files ∧
    (m.environment.fault m.steps = some fault ∨ operation = .error fault)

/-- An attempt, counted. -/
theorem attempt_spec (m : Machine) (operation : Except Fault Files) :
    let n := { (m.attempt operation).2 with steps := m.steps + 1 }
    n.environment = m.environment ∧ m.Outcome operation (m.attempt operation).1 n := by
  unfold attempt Outcome
  cases broken : m.environment.fault m.steps with
  | some fault => exact ⟨rfl, .inr ⟨fault, rfl, rfl, .inl rfl⟩⟩
  | none =>
    cases operation with
    | error fault => exact ⟨rfl, .inr ⟨fault, rfl, rfl, .inr rfl⟩⟩
    | ok files => exact ⟨rfl, .inl ⟨rfl, rfl, rfl⟩⟩

theorem Outcome.allows {operation : Except Fault Files} {r : Except Fault Unit} {n : Machine}
    (outcome : m.Outcome operation r n) (allowed : ∀ gs, operation = .ok gs → s.Allows m.files gs) :
    s.Allows m.files n.files := by
  rcases outcome with ⟨_, _, done⟩ | ⟨_, _, same, _⟩
  · exact allowed _ done
  · exact same ▸ Scope.Allows.refl s _

/-- How a question can end: with the answer, or with a fault. -/
def Answers {α : Type} (m : Machine) (answer r : Except Fault α) : Prop :=
  r = answer ∨ ∃ fault, m.environment.fault m.steps = some fault ∧ r = .error fault

theorem ask_spec {α : Type} (m : Machine) (answer : Except Fault α) :
    m.Answers answer (m.ask answer).1 := by
  unfold Answers ask
  cases m.environment.fault m.steps with
  | none => exact .inl rfl
  | some fault => exact .inr ⟨fault, rfl, rfl⟩

/-- The actions that leave the disk alone. -/
def Quiet : Action → Prop
  | .makeDirectory _ | .create _ | .write _ _ | .rename _ _ | .remove _ => False
  | _ => True

theorem perform_quiet {action : Action} (quiet : Quiet action) :
    (m.perform action).2.files = m.files ∧ (m.perform action).2.environment = m.environment := by
  cases action with
  | makeDirectory | create | write | rename | remove => exact quiet.elim
  | read path | list path =>
    simp only [perform, act, ask]
    cases m.environment.fault m.steps <;> exact ⟨rfl, rfl⟩
  | sync path =>
    obtain ⟨environment, ⟨_, _, done⟩ | ⟨_, _, same, _⟩⟩ := attempt_spec m (.ok m.files)
    · exact ⟨(Except.ok.inj done).symm, environment⟩
    · exact ⟨same, environment⟩
  | _ => exact ⟨rfl, rfl⟩

/-- How a write can end. Also a write that fails may have stored something. -/
def Stored (m : Machine) (p : Path) (bytes : ByteArray) (r : Except Fault Unit) (n : Machine) : Prop :=
  let operation := m.files.write p (m.environment.stored m.steps bytes)
  (m.environment.fault m.steps = none ∧ r = .ok () ∧ operation = .ok n.files) ∨
  ∃ fault, r = .error fault ∧ (n.files = m.files ∨ operation = .ok n.files) ∧
    (m.environment.fault m.steps = some fault ∨ operation = .error fault)

theorem store_spec (m : Machine) (p : Path) (bytes : ByteArray) :
    let n := { (m.store p bytes).2 with steps := m.steps + 1 }
    n.environment = m.environment ∧ m.Stored p bytes (m.store p bytes).1 n := by
  unfold store Stored
  cases broken : m.environment.fault m.steps with
  | some fault =>
    cases m.files.write p (m.environment.stored m.steps bytes) with
    | error fault' => exact ⟨rfl, .inr ⟨fault, rfl, .inl rfl, .inl rfl⟩⟩
    | ok files => exact ⟨rfl, .inr ⟨fault, rfl, .inr rfl, .inl rfl⟩⟩
  | none =>
    cases m.files.write p (m.environment.stored m.steps bytes) with
    | error fault' => exact ⟨rfl, .inr ⟨fault', rfl, .inl rfl, .inr rfl⟩⟩
    | ok files => exact ⟨rfl, .inl ⟨rfl, rfl, rfl⟩⟩

theorem Stored.allows {p : Path} {bytes : ByteArray} {r : Except Fault Unit} {n : Machine}
    (stored : m.Stored p bytes r n)
    (allowed : ∀ gs, m.files.write p (m.environment.stored m.steps bytes) = .ok gs →
      s.Allows m.files gs) : s.Allows m.files n.files := by
  rcases stored with ⟨_, _, done⟩ | ⟨_, _, same | done, _⟩
  · exact allowed _ done
  · exact same ▸ Scope.Allows.refl s _
  · exact allowed _ done

end Machine

namespace Program

variable {I : Machine → Prop} {m n : Machine} {s : Scope} {p : Path}

theorem holds_quiet (action : Action) {Q : action.Reply → Machine → Prop} (steady : Steady I)
    (quiet : Machine.Quiet action) (inv : I n)
    (post : ∀ k, k.files = n.files → k.environment = n.environment → Q (n.perform action).1 k) :
    (perform action).Holds I Q n := by
  obtain ⟨files, environment⟩ := Machine.perform_quiet (m := n) quiet
  exact (holds_perform action).mpr ⟨inv, steady n _ files environment inv, post _ files environment⟩

theorem holds_read (steady : Steady I) (inv : I n) :
    (read p).Holds I (fun r k => k.files = n.files ∧ k.environment = n.environment ∧
      n.Answers (n.files.read p) r) n :=
  holds_quiet (.read p) steady trivial inv fun _ files environment =>
    ⟨files, environment, n.ask_spec _⟩

theorem holds_list (steady : Steady I) (inv : I n) :
    (list p).Holds I (fun r k => k.files = n.files ∧ k.environment = n.environment ∧
      n.Answers (n.files.list p) r) n :=
  holds_quiet (.list p) steady trivial inv fun _ files environment =>
    ⟨files, environment, n.ask_spec _⟩

theorem holds_kind (steady : Steady I) (inv : I n) :
    (kind p).Holds I (fun r k => k.files = n.files ∧ k.environment = n.environment ∧
      r = n.files.kindAt p) n :=
  holds_quiet (.kind p) steady trivial inv fun _ files environment => ⟨files, environment, rfl⟩

theorem isPresent_holds (steady : Steady I) (inv : I n) :
    (isPresent p).Holds I (fun b k => k.files = n.files ∧ k.environment = n.environment ∧
      b = (n.files.kindAt p).isSome) n := by
  refine (holds_kind steady inv).bind fun r k inv seen => .pure inv ?_
  obtain ⟨files, environment, rfl⟩ := seen
  exact ⟨files, environment, rfl⟩

theorem textOf_ok {bytes : ByteArray} {text : String} :
    textOf bytes = .ok text ↔ bytes = text.toUTF8 := by
  unfold textOf String.fromUTF8?
  constructor
  · intro read
    split at read
    · rename_i found
      cases read
      split at found
      · cases found
        rfl
      · cases found
    · cases read
  · rintro rfl
    have valid : text.toUTF8.IsValidUTF8 := text.isValidUTF8
    rw [dif_pos valid]
    rfl

/-- A text that was read is the content of the file, and without a fault it is read. -/
theorem readText_holds (steady : Steady I) (inv : I n) :
    (readText p).Holds I (fun r k => k.files = n.files ∧ k.environment = n.environment ∧
      (∀ text, r = .ok text → n.files.read p = .ok text.toUTF8) ∧
      (n.environment.fault n.steps = none → r = n.files.read p >>= textOf)) n := by
  refine (holds_read steady inv).bind fun r k inv answer => ?_
  obtain ⟨files, environment, answered⟩ := answer
  refine .pure inv ⟨files, environment, fun text read => ?_, fun healthy => ?_⟩
  · rcases answered with same | ⟨fault, _, failed⟩
    · cases r with
      | error fault => cases read
      | ok bytes => rw [← same, textOf_ok.mp read]
    · rw [failed] at read
      cases read
  · rcases answered with same | ⟨fault, broken, _⟩
    · rw [same]
    · rw [healthy] at broken
      cases broken

theorem holds_makeDirectory (inv : s.Admits m n)
    (allowed : ∀ gs, n.files.makeDirectory p = .ok gs → s.Allows n.files gs) :
    (makeDirectory p).Holds (s.Admits m) (n.Outcome (n.files.makeDirectory p)) n := by
  obtain ⟨environment, outcome⟩ := Machine.attempt_spec n (n.files.makeDirectory p)
  exact (holds_perform (.makeDirectory p)).mpr ⟨inv, inv.trans ⟨environment, outcome.allows allowed⟩, outcome⟩

theorem holds_create (inv : s.Admits m n)
    (allowed : ∀ gs, n.files.create p = .ok gs → s.Allows n.files gs) :
    (create p).Holds (s.Admits m) (n.Outcome (n.files.create p)) n := by
  obtain ⟨environment, outcome⟩ := Machine.attempt_spec n (n.files.create p)
  exact (holds_perform (.create p)).mpr ⟨inv, inv.trans ⟨environment, outcome.allows allowed⟩, outcome⟩

theorem holds_rename {source target : Path} (inv : s.Admits m n)
    (allowed : ∀ gs, n.files.rename source target = .ok gs → s.Allows n.files gs) :
    (rename source target).Holds (s.Admits m) (n.Outcome (n.files.rename source target)) n := by
  obtain ⟨environment, outcome⟩ := Machine.attempt_spec n (n.files.rename source target)
  exact (holds_perform (.rename source target)).mpr ⟨inv, inv.trans ⟨environment, outcome.allows allowed⟩, outcome⟩

theorem holds_remove (inv : s.Admits m n)
    (allowed : ∀ gs, n.files.remove p = .ok gs → s.Allows n.files gs) :
    (remove p).Holds (s.Admits m) (n.Outcome (n.files.remove p)) n := by
  obtain ⟨environment, outcome⟩ := Machine.attempt_spec n (n.files.remove p)
  exact (holds_perform (.remove p)).mpr ⟨inv, inv.trans ⟨environment, outcome.allows allowed⟩, outcome⟩

theorem holds_write {bytes : ByteArray} (inv : s.Admits m n)
    (allowed : ∀ gs, n.files.write p (n.environment.stored n.steps bytes) = .ok gs →
      s.Allows n.files gs) : (write p bytes).Holds (s.Admits m) (n.Stored p bytes) n := by
  obtain ⟨environment, stored⟩ := Machine.store_spec n p bytes
  exact (holds_perform (.write p bytes)).mpr ⟨inv, inv.trans ⟨environment, stored.allows allowed⟩, stored⟩

/-- Whatever a program does, the disk stays sound and no directory is given up. -/
theorem holds_anything {α : Type} (p : Program α) (wf : m.files.WellFormed) :
    p.Holds (Scope.anything.Admits m) (fun _ _ => True) m := by
  have single : ∀ (action : Action) (n : Machine), Scope.anything.Admits m n →
      (perform action).Holds (Scope.anything.Admits m) (fun _ _ => True) n := by
    intro action n inv
    have wf := inv.2.sound wf
    cases action with
    | makeDirectory p =>
      exact (holds_makeDirectory inv fun gs => Scope.allows_makeDirectory wf fun _ _ _ => trivial).mono
        (fun _ i => i) fun _ _ _ _ => trivial
    | create p =>
      exact (holds_create inv fun gs => Scope.allows_create wf fun _ _ => ⟨trivial, trivial⟩).mono
        (fun _ i => i) fun _ _ _ _ => trivial
    | write p bytes =>
      exact (holds_write inv fun gs => Scope.allows_write wf fun _ _ => ⟨trivial, trivial⟩).mono
        (fun _ i => i) fun _ _ _ _ => trivial
    | rename source target =>
      exact (holds_rename inv fun gs => Scope.allows_rename wf (fun _ _ _ => trivial)
        fun _ _ _ _ _ _ => ⟨trivial, trivial⟩).mono (fun _ i => i) fun _ _ _ _ => trivial
    | remove p =>
      exact (holds_remove inv fun gs => Scope.allows_remove wf fun _ _ => trivial).mono (fun _ i => i)
        fun _ _ _ _ => trivial
    | _ => exact holds_quiet _ (Scope.steady _ m) trivial inv fun _ _ _ => trivial
  have whole : ∀ n, Scope.anything.Admits m n →
      p.Holds (Scope.anything.Admits m) (fun _ _ => True) n := by
    induction p with
    | done a => exact fun n inv => .pure inv trivial
    | step action next ih =>
      exact fun n inv => (single action n inv).bind fun reply k inv _ => ih reply k inv
  exact whole m (Scope.Admits.refl _ m)

end Program

end SourceRepair.Disk
