import SourceRepair.Json.Value
import SourceRepair.Recovery.Category

/-!
# Circuit breakers

A breaker admits calls while few of them fail. When too many failures fall into one window of time it
opens and refuses every call for a while; then a single trial is admitted, whose outcome closes the
breaker or opens it again. Callers pass the current instant, in any unit.
-/

namespace SourceRepair.Recovery

inductive BreakerState where
  | closed
  | opened
  /-- A trial is admitted or running. -/
  | halfOpen
deriving DecidableEq, Repr, Inhabited

def BreakerState.name : BreakerState → String
  | closed => "closed"
  | opened => "open"
  | halfOpen => "half-open"

structure Breaker where
  category : Category
  state : BreakerState := .closed
  /-- When the breaker was last opened. -/
  openedAt : Option Nat := none
  /-- When the failures happened that still count, oldest first. -/
  failures : List Nat := []
  threshold : Nat
  recoveryTimeout : Nat
  window : Nat
  trialInFlight : Bool := false
deriving DecidableEq, Repr, Inhabited

/-- What is shown of a breaker. -/
structure BreakerSnapshot where
  category : Category
  state : BreakerState
  /-- How long ago the breaker was opened. -/
  openedAgo : Option Nat
  failureCount : Nat
deriving DecidableEq, Repr, Inhabited

/-- The document of a snapshot, with a value for the time since the breaker was opened. -/
def BreakerSnapshot.toJson (openedAgo : Option Nat → Json.Value) (s : BreakerSnapshot) : Json.Value :=
  .object [("category", .string s.category.name), ("state", .string s.state.name),
    ("openedMsAgo", openedAgo s.openedAgo), ("failureCount", .nat s.failureCount)]

namespace Breaker

/-- A closed breaker. It takes at least one failure to open it. -/
def fresh (category : Category) (threshold recoveryTimeout window : Nat) : Breaker where
  category := category
  threshold := max threshold 1
  recoveryTimeout := recoveryTimeout
  window := window

/-- Forgets the oldest failures as long as they lie before the window. -/
def prune (b : Breaker) (now : Nat) : Breaker :=
  { b with failures := b.failures.dropWhile fun t => b.window < now - t }

/-- The time of refusal is over. -/
def cooled (b : Breaker) (now : Nat) : Bool :=
  b.openedAt.all fun t => b.recoveryTimeout ≤ now - t

/-- Asks for a call: whether it is admitted, and the breaker after that. -/
def tryAcquire (b : Breaker) (now : Nat) : Bool × Breaker :=
  match b.state with
  | .closed => (true, b)
  | .opened =>
    if b.cooled now then (true, { b with state := .halfOpen, trialInFlight := true }) else (false, b)
  | .halfOpen => if b.trialInFlight then (false, b) else (true, { b with trialInFlight := true })

/-- Opens the breaker. -/
def trip (b : Breaker) (now : Nat) : Breaker :=
  { b with state := .opened, openedAt := some now, trialInFlight := false }

/-- A call succeeded; the success of a trial closes the breaker and forgets all failures. -/
def recordSuccess (b : Breaker) (now : Nat) : Breaker :=
  let pruned := b.prune now
  if b.state = .halfOpen then
    { pruned with state := .closed, openedAt := none, failures := [], trialInFlight := false }
  else { pruned with trialInFlight := false }

/-- A call failed; the failure of a trial opens the breaker, and so does one failure too many. -/
def recordFailure (b : Breaker) (now : Nat) : Breaker :=
  let charged := { b with failures := b.failures ++ [now] }.prune now
  match b.state with
  | .halfOpen => charged.trip now
  | .closed => if charged.threshold ≤ charged.failures.length then charged.trip now else charged
  | .opened => charged

def snapshot (b : Breaker) (now : Nat) : BreakerSnapshot where
  category := b.category
  state := b.state
  openedAgo := b.openedAt.map (now - ·)
  failureCount := b.failures.length

end Breaker

end SourceRepair.Recovery
