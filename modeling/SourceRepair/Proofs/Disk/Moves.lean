import SourceRepair.Proofs.Disk.Staged

/-!
# What a run moves into place

Content comes to a name other than a temporary one by a move alone, so the moves of a run tell what
it put where and in which order.
-/

namespace SourceRepair.Disk

/-- Content that was moved over a target, with what the target held before. -/
structure Move where
  target : Path
  before : Option ByteArray
  after : ByteArray
deriving DecidableEq

/-- The move that an action makes, if it succeeds. -/
def Machine.moved (m : Machine) : Action → List Move
  | .rename source target =>
    match m.environment.fault m.steps, m.files.rename source target, m.files.read source with
    | none, .ok _, .ok bytes => [⟨target, (m.files.read target).toOption, bytes⟩]
    | _, _, _ => []
  | _ => []

theorem Machine.moved_rename {m : Machine} {source target : Path} {gs : Files} {bytes : ByteArray}
    (healthy : m.environment.fault m.steps = none) (done : m.files.rename source target = .ok gs)
    (there : m.files.read source = .ok bytes) :
    m.moved (.rename source target) = [⟨target, (m.files.read target).toOption, bytes⟩] := by
  simp only [moved, healthy, done, there]

namespace Program

variable {α β : Type} {m n k : Machine} {p : Program α}

/-- The moves of a run, in order. -/
def moves : Program α → Machine → List Move
  | done _, _ => []
  | step action next, m =>
    m.moved action ++ (next (m.perform action).1).moves (m.perform action).2

@[simp] theorem moves_pure (a : α) : (pure a : Program α).moves m = [] := rfl

theorem moves_bind (f : α → Program β) :
    (p >>= f).moves m = p.moves m ++ (f (p.run m).1).moves (p.run m).2 := by
  induction p generalizing m with
  | done a => rfl
  | step action next ih =>
    show m.moved action ++ ((next _).bind f).moves _ = _
    rw [show (next (m.perform action).1).bind f = next (m.perform action).1 >>= f from rfl, ih,
      ← List.append_assoc]
    rfl

/-- A program that moves nothing, whatever is replied. -/
def Still : Program α → Prop
  | done _ => True
  | step action next => (∀ m : Machine, m.moved action = []) ∧ ∀ reply, (next reply).Still

theorem Still.moves (still : p.Still) : p.moves m = [] := by
  induction p generalizing m with
  | done a => rfl
  | step action next ih =>
    show m.moved action ++ _ = []
    rw [still.1 m, ih _ (still.2 _)]
    rfl

theorem Still.bind {f : α → Program β} (first : p.Still) (next : ∀ a, (f a).Still) :
    (p >>= f).Still := by
  induction p with
  | done a => exact next a
  | step action k ih => exact ⟨first.1, fun reply => ih reply (first.2 reply)⟩

theorem still_pure (a : α) : (pure a : Program α).Still := trivial

theorem still_perform {action : Action} (other : ∀ m : Machine, m.moved action = []) :
    (perform action).Still := ⟨other, fun _ => trivial⟩

/-- A run from one machine to another, with its result and its moves. -/
def Gives (p : Program α) (m : Machine) (a : α) (n : Machine) (ms : List Move) : Prop :=
  p.run m = (a, n) ∧ p.moves m = ms

theorem gives_run (p : Program α) (m : Machine) :
    p.Gives m (p.run m).1 (p.run m).2 (p.moves m) := ⟨rfl, rfl⟩

theorem bind_gives {f : α → Program β} {b : β} {ms : List Move} (h : (p >>= f).Gives m b k ms) :
    ∃ a n first rest, p.Gives m a n first ∧ (f a).Gives n b k rest ∧ ms = first ++ rest := by
  obtain ⟨ran, moved⟩ := h
  rw [run_bind] at ran
  rw [moves_bind] at moved
  exact ⟨_, _, _, _, p.gives_run m, ⟨ran, rfl⟩, moved.symm⟩

theorem Gives.holds {I : Machine → Prop} {Q : α → Machine → Prop} {a : α} {ms : List Move}
    (h : p.Gives m a n ms) (holds : p.Holds I Q m) : I n ∧ Q a n := by
  have ends := holds.run
  rwa [h.1] at ends

theorem pure_gives {σ : Type} {a b : α} {t u : σ} {ms : List Move}
    (h : ((pure a : StateT σ Program α).run t).Gives m (b, u) n ms) :
    b = a ∧ u = t ∧ n = m ∧ ms = [] := by
  obtain ⟨ran, moved⟩ := h
  cases ran
  exact ⟨rfl, rfl, rfl, moved.symm⟩

theorem lift_gives {σ : Type} {a : α} {t u : σ} {ms : List Move}
    (h : ((liftM p : StateT σ Program α).run t).Gives m (a, u) n ms) : u = t ∧ p.Gives m a n ms := by
  have shown : ((StateT.lift p : StateT σ Program α).run t).Gives m (a, u) n ms := h
  rw [StateT.run_lift] at shown
  obtain ⟨b, k, first, rest, gives, ⟨ran, moved⟩, rfl⟩ := bind_gives shown
  cases ran
  rw [← moved, moves_pure, List.append_nil]
  exact ⟨rfl, gives⟩

theorem quiet_gives (action : Action) {reply : action.Reply} {ms : List Move}
    (quiet : Machine.Quiet action) (h : (perform action).Gives m reply n ms) : m.Same n ∧ ms = [] := by
  obtain ⟨ran, moved⟩ := h
  have after : (m.perform action).2 = n := congrArg Prod.snd ran
  have none : m.moved action = [] := by
    cases action with
    | rename => exact quiet.elim
    | _ => rfl
  refine ⟨after ▸ Machine.perform_quiet quiet, ?_⟩
  rw [← moved]
  show m.moved action ++ [] = []
  rw [none]
  rfl

/-- A look at the clock between other work. -/
theorem now_gives {σ : Type} {time : Nat} {t u : σ} {ms : List Move}
    (h : ((liftM now : StateT σ Program Nat).run t).Gives m (time, u) n ms) :
    u = t ∧ m.Same n ∧ ms = [] := by
  obtain ⟨same, asked⟩ := lift_gives h
  exact ⟨same, quiet_gives .now trivial asked⟩

theorem Gives.still {a : α} {ms : List Move} (h : p.Gives m a n ms) (still : p.Still) : ms = [] :=
  h.2.symm.trans still.moves

end Program

namespace Job

open Program

variable {α β : Type} {m k : Machine} {x : Job α} {f : α → Job β}

theorem still_bind (first : x.run.Still) (next : ∀ a, (f a).run.Still) : (x >>= f).run.Still := by
  rw [ExceptT.run_bind]
  refine first.bind fun r => ?_
  cases r with
  | ok a => exact next a
  | error e => exact still_pure _

theorem still_ofFault {path : Path} {p : Program (Except Fault α)} (still : p.Still) :
    (Job.ofFault path p).run.Still :=
  still.bind fun r => by cases r <;> exact still_pure _

theorem still_pure (a : α) : (pure a : Job α).run.Still := Program.still_pure (Except.ok a)

theorem still_throw (e : Failure) : (throw e : Job α).run.Still := Program.still_pure (Except.error e)

theorem still_lift {p : Program α} (still : p.Still) : (liftM p : Job α).run.Still := by
  show (ExceptT.lift p : Job α).run.Still
  rw [ExceptT.run_lift]
  exact still.bind fun _ => still_pure _

/-- A run that succeeds consists of two that succeed. -/
theorem bind_gives {b : β} {ms : List Move} (h : (x >>= f).run.Gives m (.ok b) k ms) :
    ∃ a n first rest, x.run.Gives m (.ok a) n first ∧ (f a).run.Gives n (.ok b) k rest ∧
      ms = first ++ rest := by
  rw [ExceptT.run_bind] at h
  obtain ⟨r, n, first, rest, gives, gives', same⟩ := Program.bind_gives h
  cases r with
  | ok a => exact ⟨a, n, first, rest, gives, gives', same⟩
  | error e => cases gives'.1

end Job

-- As for `Holds`, only the rules are used from here on.
attribute [irreducible] Program.Still

/-! ### Staged writes -/

namespace Program

theorem still_isDirectory (path : Path) : (isDirectory path).Still :=
  Still.bind (still_perform fun _ => rfl) fun _ => still_pure _

theorem still_makeInside (ps : List Path) : (makeInside ps).Still := by
  induction ps with
  | nil => exact still_pure _
  | cons path outer ih =>
    have make : (makeDirectory path).Still := still_perform fun _ => rfl
    have forgive : ∀ fault : Fault, (do return if ← isDirectory path then .ok () else .error fault :
        Program (Except Fault Unit)).Still :=
      fun fault => (still_isDirectory path).bind fun _ => still_pure _
    rw [makeInside]
    refine make.bind fun r => ?_
    cases r with
    | ok _ => exact still_pure _
    | error fault =>
      dsimp only
      split
      · refine ih.bind fun r => ?_
        cases r with
        | error fault => exact still_pure _
        | ok _ =>
          refine make.bind fun r => ?_
          cases r with
          | ok _ => exact still_pure _
          | error fault => exact forgive fault
      · exact forgive fault

end Program

namespace Staged

open Program

theorem still_discard (s : Staged) : s.discard.Still :=
  Still.bind (still_perform fun _ => rfl) fun _ => Program.still_pure _

theorem still_orDiscard {α : Type} (s : Staged) {work : Job α} (still : work.run.Still) :
    (s.orDiscard work).run.Still := by
  refine Still.bind still fun r => ?_
  cases r with
  | ok a => exact Program.still_pure _
  | error e => exact (still_discard s).bind fun _ => Program.still_pure _

theorem still_stage (target : Path) (bytes : ByteArray) : (stage target bytes).run.Still := by
  refine Job.still_bind (Job.still_ofFault (still_makeInside _)) fun _ => ?_
  refine Job.still_bind (Job.still_lift (still_perform fun _ => rfl)) fun nonce => ?_
  refine still_orDiscard _ ?_
  refine Job.still_bind (Job.still_ofFault (still_perform fun _ => rfl)) fun _ => ?_
  refine Job.still_bind (Job.still_ofFault (still_perform fun _ => rfl)) fun _ => ?_
  refine Job.still_bind (Job.still_ofFault (still_perform fun _ => rfl)) fun _ => ?_
  exact Job.still_pure _

theorem still_readBack (s : Staged) : s.readBack.run.Still :=
  Job.still_ofFault (still_perform fun _ => rfl)

theorem still_verify (s : Staged) (bytes : ByteArray) : (s.verify bytes).run.Still := by
  refine Job.still_bind (still_readBack s) fun actual => ?_
  split
  · exact Job.still_pure _
  · exact Job.still_throw _

/-- Work that is not discarded has succeeded. -/
theorem orDiscard_gives {α : Type} {s : Staged} {work : Job α} {m n : Machine} {a : α} {ms : List Move}
    (h : (s.orDiscard work).run.Gives m (.ok a) n ms) : work.run.Gives m (.ok a) n ms := by
  obtain ⟨r, k, first, rest, gives, gives', same⟩ := Program.bind_gives h
  cases r with
  | ok b =>
    obtain ⟨ran, moved⟩ := gives'
    cases ran
    rw [same, ← moved, moves_pure, List.append_nil]
    exact gives
  | error e =>
    obtain ⟨_, j, _, _, _, last, _⟩ := Program.bind_gives gives'
    cases last.1

/-- A move that succeeds is the only one. -/
theorem commit_gives {s : Staged} {m n : Machine} {bytes : ByteArray} {ms : List Move}
    (h : s.commit.run.Gives m (.ok ()) n ms) (waits : m.files.read s.temporary = .ok bytes) :
    ms = [⟨s.target, (m.files.read s.target).toOption, bytes⟩] := by
  obtain ⟨r, k, first, rest, ⟨ran, moved⟩, gives', rfl⟩ := Program.bind_gives h
  have reply : (m.attempt (m.files.rename s.temporary s.target)).1 = r := congrArg Prod.fst ran
  obtain ⟨_, ⟨healthy, _, done⟩ | ⟨fault, failed, _⟩⟩ :=
    Machine.attempt_spec m (m.files.rename s.temporary s.target)
  · have only : m.moved (.rename s.temporary s.target) =
        [⟨s.target, (m.files.read s.target).toOption, bytes⟩] := Machine.moved_rename healthy done waits
    have none : rest = [] := by
      cases r with
      | ok _ => exact gives'.2.symm
      | error fault => exact gives'.2.symm
    have all : m.moved (.rename s.temporary s.target) ++ [] = first := moved
    rw [none, ← all, only]
    rfl
  · rw [reply] at failed
    subst failed
    cases gives'.1

/-- Replacing a target that succeeds makes one move. -/
theorem replace_gives {target : Path} {bytes : ByteArray} {m n : Machine} {ms : List Move}
    (wf : m.files.WellFormed) (tidy : m.environment.Tidy)
    (h : (replace target bytes).run.Gives m (.ok ()) n ms) :
    ∃ before, ms = [⟨target, before, bytes⟩] ∧
      ∀ old, m.files.read target = .ok old → before = some old := by
  obtain ⟨w, k, first, rest, gives, gives', rfl⟩ := Job.bind_gives h
  obtain ⟨inv, waits⟩ := gives.holds (stage_holds wf tidy)
  obtain ⟨⟨nonce, i, l, made, rfl, healthy, found⟩, ready⟩ := waits w rfl
  obtain ⟨_, j, second, third, checked, moved, rfl⟩ := Job.bind_gives (orDiscard_gives gives')
  obtain ⟨_, files, read⟩ := checked.holds (verify_holds inv)
  have waits : j.files.read (temporaryPath target nonce) = .ok bytes := by
    rw [files]
    exact read rfl
  refine ⟨(j.files.read target).toOption, ?_, fun old there => ?_⟩
  · rw [gives.still (still_stage target bytes), checked.still (still_verify _ bytes),
      commit_gives moved waits]
    rfl
  · -- Staging loses temporary files only, and the target is none.
    obtain ⟨l, found⟩ := Files.read_ok.mp there
    obtain ⟨d, rfl, _⟩ := place_of_file wf found
    have still := inv.2.read found not_isTemporary
    rw [files, Files.read_ok.mpr ⟨_, still⟩]
    rfl

end Staged

end SourceRepair.Disk
