import SourceRepair.Proofs.Disk.Enclosing

/-!
# What programs ask for

Which locations an action may change is decided by its paths. So a program that asks for nothing but
what a scope permits, whatever is replied, stays in the scope on every machine: `Within.holds`.
-/

namespace SourceRepair.Disk

/-- The reply can come from a tidy machine. -/
def Action.Fair : (action : Action) → action.Reply → Prop
  | .nonce, text => IsNonce text
  | _, _ => True

/-- What an action may change lies in the scope, if relative paths start in `current`. -/
def Scope.Permits (s : Scope) (current : Location) : Action → Prop
  | .makeDirectory p => s.make (p.resolve current)
  | .create p => s.lose (p.resolve current) ∧ s.gain (p.resolve current) .empty
  | .write p _ => s.lose (p.resolve current) ∧ ∀ b, s.gain (p.resolve current) b
  | .rename source target =>
    s.lose (source.resolve current) ∧ s.lose (target.resolve current) ∧
      ∀ b, s.gain (target.resolve current) b
  | .remove p => s.lose (p.resolve current)
  | _ => True

variable {s t : Scope} {current : Location} {action : Action}

theorem Scope.Permits.mono (le : s.Le t) (permits : s.Permits current action) : t.Permits current action := by
  cases action with
  | makeDirectory p => exact le.make _ permits
  | create p => exact ⟨le.lose _ permits.1, le.gain _ _ permits.2⟩
  | write p bytes => exact ⟨le.lose _ permits.1, fun b => le.gain _ _ (permits.2 b)⟩
  | rename source target =>
    exact ⟨le.lose _ permits.1, le.lose _ permits.2.1, fun b => le.gain _ _ (permits.2.2 b)⟩
  | remove p => exact le.lose _ permits
  | _ => trivial

theorem Scope.permits_of_quiet (quiet : Machine.Quiet action) : s.Permits current action := by
  cases action with
  | makeDirectory | create | write | rename | remove => exact quiet.elim
  | _ => trivial

namespace Program

variable {α β σ : Type} {P P' : Action → Prop} {Q Q' : α → Prop} {R : β → Prop} {p : Program α}

/-- Every action that a program asks for satisfies `P` and its result `Q`, whatever fair replies it
gets. -/
def Within (P : Action → Prop) (Q : α → Prop) : Program α → Prop
  | done a => Q a
  | step action next => P action ∧ ∀ reply, action.Fair reply → (next reply).Within P Q

theorem within_pure {a : α} (post : Q a) : (pure a : Program α).Within P Q := post

theorem within_perform (asked : P action) : (perform action).Within P action.Fair :=
  ⟨asked, fun _ fair => fair⟩

theorem Within.bind {f : α → Program β} (first : p.Within P Q) (next : ∀ a, Q a → (f a).Within P R) :
    (p >>= f).Within P R := by
  induction p with
  | done a => exact next a first
  | step action k ih => exact ⟨first.1, fun reply fair => ih reply (first.2 reply fair)⟩

theorem Within.mono (within : p.Within P Q) (asked : ∀ action, P action → P' action)
    (post : ∀ a, Q a → Q' a) : p.Within P' Q' := by
  induction p with
  | done a => exact post a within
  | step action k ih => exact ⟨asked _ within.1, fun reply fair => ih reply (within.2 reply fair)⟩

theorem Within.any (within : p.Within P Q) : p.Within P fun _ => True :=
  within.mono (fun _ => id) fun _ _ => trivial

theorem within_lift {f : Program α} {u : σ} (within : f.Within P Q) :
    ((liftM f : StateT σ Program α).run u).Within P fun r => Q r.1 := by
  show ((StateT.lift f : StateT σ Program α).run u).Within P _
  rw [StateT.run_lift]
  exact within.bind fun _ post => within_pure post

/-- A permitted action stays in the scope. -/
theorem holds_permitted {m n : Machine} (permits : s.Permits m.files.current action)
    (wf : m.files.WellFormed) (tidy : m.environment.Tidy) (inv : s.Admits m n) :
    (perform action).Holds (s.Admits m) (fun reply _ => action.Fair reply) n := by
  have wf := inv.2.sound wf
  have meant : ∀ {p : Path} {l}, n.files.locate p = .ok l → l = p.resolve m.files.current := by
    intro p l led
    rw [Path.locate_resolve led, inv.2.grows.1]
  cases action with
  | makeDirectory p =>
    refine (holds_makeDirectory inv fun gs => Scope.allows_makeDirectory wf fun l led _ => ?_).mono
      (fun _ i => i) fun _ _ _ _ => trivial
    rw [meant led]
    exact permits
  | create p =>
    refine (holds_create inv fun gs => Scope.allows_create wf fun l led => ?_).mono (fun _ i => i)
      fun _ _ _ _ => trivial
    rw [meant led]
    exact permits
  | write p bytes =>
    refine (holds_write inv fun gs => Scope.allows_write wf fun l led => ?_).mono (fun _ i => i)
      fun _ _ _ _ => trivial
    rw [meant led]
    exact ⟨permits.1, permits.2 _⟩
  | rename source target =>
    refine (holds_rename inv fun gs => Scope.allows_rename wf (fun l b found => ?_)
      fun l b k _ led _ => ?_).mono (fun _ i => i) fun _ _ _ _ => trivial
    · rw [meant (Files.find_ok.mp found).1]
      exact permits.1
    · rw [meant led]
      exact ⟨permits.2.1, permits.2.2 b⟩
  | remove p =>
    refine (holds_remove inv fun gs => Scope.allows_remove wf fun l led => ?_).mono (fun _ i => i)
      fun _ _ _ _ => trivial
    rw [meant led]
    exact permits
  | nonce =>
    have given : IsNonce (n.environment.nonce n.steps) := inv.1 ▸ tidy n.steps
    exact holds_quiet _ (Scope.steady _ m) trivial inv fun _ _ _ => given
  | _ => exact holds_quiet _ (Scope.steady _ m) trivial inv fun _ _ _ => trivial

/-- A program that asks for nothing but what a scope permits stays in the scope. -/
theorem Within.holds {m n : Machine} (within : p.Within (s.Permits m.files.current) Q)
    (wf : m.files.WellFormed) (tidy : m.environment.Tidy) (inv : s.Admits m n) :
    p.Holds (s.Admits m) (fun a _ => Q a) n := by
  induction p generalizing n with
  | done a => exact .pure inv within
  | step action next ih =>
    exact (holds_permitted within.1 wf tidy inv).bind fun reply k inv fair =>
      ih reply (within.2 reply fair) inv

end Program

namespace Job

open Program

variable {α β : Type} {P : Action → Prop} {Q : α → Prop} {R : β → Prop} {x : Job α}

/-- What the result is, if the work succeeds. -/
def Done (Q : α → Prop) (r : Except Failure α) : Prop := ∀ a, r = .ok a → Q a

theorem within_bind {f : α → Job β} (first : x.run.Within P (Done Q))
    (next : ∀ a, Q a → (f a).run.Within P (Done R)) : (x >>= f).run.Within P (Done R) := by
  rw [ExceptT.run_bind]
  refine first.bind fun r post => ?_
  cases r with
  | ok a => exact next a (post a rfl)
  | error e => exact within_pure nofun

theorem within_pure {a : α} (post : Q a) : (pure a : Job α).run.Within P (Done Q) := by
  refine Program.within_pure fun b same => ?_
  cases same
  exact post

theorem within_throw (e : Failure) : (throw e : Job α).run.Within P (Done Q) :=
  Program.within_pure nofun

theorem within_ofExcept {r : Except Failure α} (post : Done Q r) : (Job.ofExcept r).run.Within P (Done Q) :=
  Program.within_pure post

theorem within_lift {p : Program α} (within : p.Within P Q) :
    (liftM p : Job α).run.Within P (Done Q) := by
  show (ExceptT.lift p : Job α).run.Within P (Done Q)
  rw [ExceptT.run_lift]
  refine within.bind fun a post => Program.within_pure fun b same => ?_
  cases same
  exact post

theorem within_ofFault {path : Path} {p : Program (Except Fault α)}
    (within : p.Within P fun r => ∀ a, r = .ok a → Q a) :
    (Job.ofFault path p).run.Within P (Done Q) := by
  refine within.bind fun r post => ?_
  cases r with
  | ok a =>
    refine Program.within_pure fun b same => ?_
    cases same
    exact post a rfl
  | error fault => exact Program.within_pure nofun

/-- Work of which only what it asks for counts. -/
theorem within_ask {path : Path} {p : Program (Except Fault α)}
    (within : p.Within P fun _ => True) : (Job.ofFault path p).run.Within P (Done fun _ => True) :=
  within_ofFault (within.mono (fun _ => id) fun _ _ _ _ => trivial)

end Job

-- As for `Holds`, only the rules are used from here on.
attribute [irreducible] Program.Within

/-! ### Staged writes -/

namespace Staged

open Program
open Path (OnWay)

variable {P : Action → Prop} {α : Type} {target : Path} {bytes : ByteArray} {current l : Location}

/-- A place for a temporary file beside a target. -/
def IsBeside (current : Location) (target : Path) (l : Location) : Prop :=
  ∃ nonce, IsNonce nonce ∧ l = (directoryOf target).resolve current ++ [temporaryName (baseOf target) nonce]

theorem isBeside_temporaryPath {nonce : String} (made : IsNonce nonce) :
    IsBeside current target ((temporaryPath target nonce).resolve current) :=
  ⟨nonce, made, resolve_temporaryPath made target current⟩

/-- What a staged write may touch before it moves anything. -/
def beside (current : Location) (target : Path) : Scope where
  lose := IsBeside current target
  gain l _ := IsBeside current target l
  make := (directoryOf target).OnWay current

/-- What a staged write may touch. -/
def around (current : Location) (target : Path) : Scope where
  lose l := l = target.resolve current ∨ IsBeside current target l
  gain l _ := l = target.resolve current ∨ IsBeside current target l
  make := (directoryOf target).OnWay current

theorem beside_le_around : (beside current target).Le (around current target) :=
  ⟨fun _ => .inr, fun _ _ => .inr, fun _ => id⟩

theorem within_isDirectory (quiet : ∀ action, Machine.Quiet action → P action) (path : Path) :
    (isDirectory path).Within P fun _ => True :=
  (within_perform (quiet (.kind path) trivial)).bind fun _ _ => within_pure trivial

theorem within_makeInside (quiet : ∀ action, Machine.Quiet action → P action) {ps : List Path}
    (make : ∀ p ∈ ps, P (.makeDirectory p)) : (makeInside ps).Within P fun _ => True := by
  induction ps with
  | nil => exact within_pure trivial
  | cons path outer ih =>
    have first : (makeDirectory path).Within P fun _ => True :=
      (within_perform (make path List.mem_cons_self)).any
    have forgive : ∀ fault : Fault, (do return if ← isDirectory path then .ok () else .error fault :
        Program (Except Fault Unit)).Within P fun _ => True :=
      fun fault => (within_isDirectory quiet path).bind fun _ _ => within_pure trivial
    rw [makeInside]
    refine first.bind fun r _ => ?_
    cases r with
    | ok _ => exact within_pure trivial
    | error fault =>
      dsimp only
      split
      · refine (ih fun p member => make p (List.mem_cons_of_mem _ member)).bind fun r _ => ?_
        cases r with
        | error fault => exact within_pure trivial
        | ok _ =>
          refine first.bind fun r _ => ?_
          cases r with
          | ok _ => exact within_pure trivial
          | error fault => exact forgive fault
      · exact forgive fault

theorem within_orDiscard {s : Staged} {work : Job α} {Q : α → Prop} (remove : P (.remove s.temporary))
    (within : work.run.Within P (Job.Done Q)) : (s.orDiscard work).run.Within P (Job.Done Q) := by
  refine within.bind fun r post => ?_
  cases r with
  | ok a => exact Program.within_pure post
  | error e =>
    have discard : s.discard.Within P fun _ => True :=
      (within_perform remove).bind fun _ _ => Program.within_pure trivial
    exact discard.bind fun _ _ => Program.within_pure post

/-- Content that waits for a target beside it. -/
def Awaits (target : Path) (s : Staged) : Prop :=
  ∃ nonce, IsNonce nonce ∧ s = ⟨target, temporaryPath target nonce⟩

theorem within_stage (current : Location) (target : Path) (bytes : ByteArray) :
    (stage target bytes).run.Within ((beside current target).Permits current) (Job.Done (Awaits target)) := by
  have make : ∀ p ∈ (directoryOf target).enclosing,
      (beside current target).Permits current (.makeDirectory p) :=
    fun p member => Path.onWay_of_mem_enclosing member
  refine Job.within_bind (Job.within_ask (within_makeInside (fun _ => Scope.permits_of_quiet) make))
    fun _ _ => ?_
  have permits : (beside current target).Permits current .nonce := trivial
  have named : Program.nonce.Within ((beside current target).Permits current) IsNonce :=
    within_perform permits
  refine Job.within_bind (Job.within_lift named) fun nonce made => ?_
  have place : IsBeside current target ((temporaryPath target nonce).resolve current) :=
    isBeside_temporaryPath made
  have create : (beside current target).Permits current (.create (temporaryPath target nonce)) :=
    ⟨place, place⟩
  have write : (beside current target).Permits current (.write (temporaryPath target nonce) bytes) :=
    ⟨place, fun _ => place⟩
  have sync : (beside current target).Permits current (.sync (temporaryPath target nonce)) := trivial
  refine within_orDiscard place ?_
  refine Job.within_bind (Job.within_ask (within_perform create).any) fun _ _ => ?_
  refine Job.within_bind (Job.within_ask (within_perform write).any) fun _ _ => ?_
  refine Job.within_bind (Job.within_ask (within_perform sync).any) fun _ _ => ?_
  exact Job.within_pure ⟨nonce, made, rfl⟩

theorem within_readBack (quiet : ∀ action, Machine.Quiet action → P action) (s : Staged) :
    s.readBack.run.Within P (Job.Done fun _ => True) :=
  Job.within_ask (within_perform (quiet (.read s.temporary) trivial)).any

theorem within_verify (quiet : ∀ action, Machine.Quiet action → P action) (s : Staged)
    (bytes : ByteArray) : (s.verify bytes).run.Within P (Job.Done fun _ => True) := by
  refine Job.within_bind (within_readBack quiet s) fun actual _ => ?_
  split
  · exact Job.within_pure trivial
  · exact Job.within_throw _

theorem within_commit {s : Staged} (awaits : Awaits target s) :
    s.commit.run.Within ((around current target).Permits current) (Job.Done fun _ => True) := by
  obtain ⟨nonce, made, rfl⟩ := awaits
  have permits : (around current target).Permits current (.rename (temporaryPath target nonce) target) :=
    ⟨.inr (isBeside_temporaryPath made), .inl rfl, fun _ => .inl rfl⟩
  exact Job.within_ask (within_perform permits).any

theorem permits_discard {s : Staged} (awaits : Awaits target s) :
    (around current target).Permits current (.remove s.temporary) := by
  obtain ⟨nonce, made, rfl⟩ := awaits
  dsimp only [Scope.Permits, around]
  exact .inr (isBeside_temporaryPath made)

/-- Replacing a target touches nothing but the target, what is beside it and the way to it. -/
theorem within_replace (current : Location) (target : Path) (bytes : ByteArray) :
    (replace target bytes).run.Within ((around current target).Permits current)
      (Job.Done fun _ => True) := by
  refine Job.within_bind ((within_stage current target bytes).mono
    (fun _ => Scope.Permits.mono beside_le_around) fun _ => id) fun s awaits => ?_
  refine within_orDiscard (permits_discard awaits) ?_
  exact Job.within_bind (within_verify (fun _ => Scope.permits_of_quiet) s bytes) fun _ _ =>
    within_commit awaits

end Staged

end SourceRepair.Disk
