import SourceRepair.Disk.Files

/-!
# A model of the machine

All that a program can see: the disk, and an environment that answers what the disk does not decide.
The environment says for each step what the clocks show, whether the step fails and what a write
really stores, so a law about all environments covers every clock and every schedule of failures.
-/

namespace SourceRepair.Disk

structure Environment where
  /-- What the clock shows at a step, without pauses, in nanoseconds. -/
  now : Nat → Nat
  /-- What the calendar shows at a step, in milliseconds. -/
  calendar : Nat → Nat
  sample : Nat → Recovery.Snapshot
  random : Nat → Nat
  nonce : Nat → String
  /-- The fault of a step that fails. -/
  fault : Nat → Option Fault
  /-- What a write stores at a step. -/
  stored : Nat → ByteArray → ByteArray

structure Machine where
  files : Files
  environment : Environment
  /-- The number of actions so far. -/
  steps : Nat := 0
  /-- The length of all pauses so far, in nanoseconds. -/
  paused : Nat := 0

namespace Machine

/-- An operation on the disk, which fails if the environment says so. -/
def attempt (m : Machine) (operation : Except Fault Files) : Except Fault Unit × Machine :=
  match m.environment.fault m.steps with
  | some fault => (.error fault, m)
  | none =>
    match operation with
    | .error fault => (.error fault, m)
    | .ok files => (.ok (), { m with files := files })

/-- A question about the disk, which fails if the environment says so. -/
def ask {α : Type} (m : Machine) (answer : Except Fault α) : Except Fault α × Machine :=
  match m.environment.fault m.steps with
  | some fault => (.error fault, m)
  | none => (answer, m)

/-- Writes bytes, or whatever the environment makes of them. A write that fails may have stored
something as well. -/
def store (m : Machine) (p : Path) (bytes : ByteArray) : Except Fault Unit × Machine :=
  match m.files.write p (m.environment.stored m.steps bytes) with
  | .error fault => (.error ((m.environment.fault m.steps).getD fault), m)
  | .ok files =>
    let stored := { m with files := files }
    match m.environment.fault m.steps with
    | some fault => (.error fault, stored)
    | none => (.ok (), stored)

/-- What an action does, and the reply. -/
def act (m : Machine) : (action : Action) → action.Reply × Machine
  | .now => (m.environment.now m.steps + m.paused, m)
  | .calendar => (m.environment.calendar m.steps, m)
  | .sample => (m.environment.sample m.steps, m)
  | .random most => (min (m.environment.random m.steps) most, m)
  | .pause milliseconds => ((), { m with paused := m.paused + nanoseconds milliseconds })
  | .nonce => (m.environment.nonce m.steps, m)
  | .currentDirectory => (⟨"/" ++ String.intercalate "/" m.files.current⟩, m)
  | .kind path => (m.files.kindAt path, m)
  | .read path => m.ask (m.files.read path)
  | .list path => m.ask (m.files.list path)
  | .makeDirectory path => m.attempt (m.files.makeDirectory path)
  | .create path => m.attempt (m.files.create path)
  | .write path bytes => m.store path bytes
  | .sync _ => m.attempt (.ok m.files)
  | .rename source target => m.attempt (m.files.rename source target)
  | .remove path => m.attempt (m.files.remove path)

/-- An action, counted. -/
def perform (m : Machine) (action : Action) : action.Reply × Machine :=
  let (reply, next) := m.act action
  (reply, { next with steps := m.steps + 1 })

end Machine

namespace Program

variable {α β : Type}

/-- Runs a program on the modelled machine. -/
def run (m : Machine) : Program α → α × Machine
  | done a => (a, m)
  | step action next => (next (m.perform action).1).run (m.perform action).2

@[simp] theorem run_pure (m : Machine) (a : α) : (pure a : Program α).run m = (a, m) := rfl

@[simp] theorem run_bind (m : Machine) (p : Program α) (f : α → Program β) :
    (p >>= f).run m = (f (p.run m).1).run (p.run m).2 := by
  induction p generalizing m with
  | done a => rfl
  | step action next ih => exact ih _ _

end Program

end SourceRepair.Disk
