import SourceRepair.Disk.Program
import SourceRepair.Recovery.Backoff
import SourceRepair.Recovery.Breaker
import SourceRepair.Recovery.Classify
import SourceRepair.Recovery.Config
import SourceRepair.Recovery.Plan

/-!
# Handling failures

A handler keeps a record of each failure for a while, charges it to a breaker, and runs operations
under the plan of their failures. Every run of an operation ends in exactly one of five ways.
-/

namespace SourceRepair.Recovery

open Disk (Program)

/-- What was being attempted when a failure occurred. -/
structure Context where
  operation : String
  path : Option Path := none
  /-- The breaker that is charged; else it is the one of the failure's own category. -/
  categoryHint : Option Category := none
  retryCount : Nat := 0
deriving DecidableEq, Repr, Inhabited

structure Record where
  /-- Records are numbered in the order in which they are made. -/
  number : Nat
  category : Category
  message : String
  context : Context
  remedy : Remedy
  resolved : Bool := false
deriving DecidableEq, Repr, Inhabited

def Context.toJson (c : Context) : Json.Value :=
  .object ([("operation", .string c.operation), ("retryCount", .nat c.retryCount)] ++
    c.path.toList.map (fun p => ("path", .string p.text)) ++
    c.categoryHint.toList.map fun h => ("categoryHint", .string h.name))

def Record.toJson (r : Record) : Json.Value :=
  .object [("category", .string r.category.name), ("severity", .string r.category.severity.name),
    ("message", .string r.message), ("context", r.context.toJson),
    ("retryCount", .nat r.context.retryCount), ("recoveryStrategy", r.remedy.toJson),
    ("resolved", .bool r.resolved)]

/-- How the run of an operation ended. -/
inductive Execution (α : Type) where
  /-- The operation succeeded, in the first attempt or a later one. -/
  | retried (value : α) (attempts : Nat)
  | recovered (value : α) (record : Record)
  | skipped (record : Record) (failure : Failure)
  /-- Also the end of a run that a breaker refuses. -/
  | aborted (record : Record) (failure : Failure)
  | escalated (record : Record) (failure : Failure)
deriving Inhabited

namespace Execution

variable {α : Type}

def outcome : Execution α → String
  | retried _ _ => "retried"
  | recovered _ _ => "recovered-via-fallback"
  | skipped _ _ => "skipped"
  | aborted _ _ => "aborted"
  | escalated _ _ => "escalated"

def record? : Execution α → Option Record
  | retried _ _ => none
  | recovered _ r | skipped r _ | aborted r _ | escalated r _ => some r

/-- The value, or the failure that ended the run. -/
def result : Execution α → Except Failure α
  | retried a _ | recovered a _ => .ok a
  | skipped _ f | aborted _ f | escalated _ f => .error f

/-- The end of a run whose failure has a remedy that no further step can bring about. -/
def terminal (remedy : Remedy) (record : Record) (failure : Failure) : Execution α :=
  match remedy with
  | .skip => skipped record failure
  | .abort => aborted record failure
  | _ => escalated record failure

end Execution

structure Handler where
  config : Config
  /-- The failures that still count, oldest first, each with its instant. -/
  window : List (Nat × Record) := []
  /-- The breakers that were ever asked or charged, at most one for a category. -/
  breakers : List Breaker := []
  /-- How many records were made. -/
  made : Nat := 0
deriving DecidableEq, Inhabited

/-- The failures that count, and the breakers in the order of their categories. -/
structure Stats where
  total : Nat
  byCategory : List (Category × Nat)
  unresolved : Nat
  breakers : List BreakerSnapshot
deriving DecidableEq, Repr, Inhabited

/-- The document of the statistics, with a value for the time since a breaker was opened. -/
def Stats.toJson (openedAgo : Option Nat → Json.Value) (s : Stats) : Json.Value :=
  .object [("total", .nat s.total), ("unresolved", .nat s.unresolved),
    ("byCategory", .object (s.byCategory.map fun (c, n) => (c.name, .nat n))),
    ("breakers", .array (s.breakers.map (BreakerSnapshot.toJson openedAgo)))]

namespace Handler

def backoff (h : Handler) : Backoff := ⟨h.config.baseDelay, h.config.maxDelay⟩

/-- The length of the window, in nanoseconds. -/
def windowLength (h : Handler) : Nat := Disk.nanoseconds h.config.monitoringWindow

/-- The breaker of a category, if it was ever used. -/
def breaker? (h : Handler) (category : Category) : Option Breaker :=
  h.breakers.find? (·.category == category)

/-- The breaker of a category. -/
def breaker (h : Handler) (category : Category) : Breaker :=
  (h.breaker? category).getD
    (.fresh category h.config.failureThreshold (Disk.nanoseconds h.config.recoveryTimeout)
      h.windowLength)

def setBreaker (h : Handler) (b : Breaker) : Handler :=
  { h with breakers := b :: h.breakers.filter (·.category != b.category) }

/-- The state of the breaker of a category. -/
def breakerState (h : Handler) (category : Category) : BreakerState :=
  match h.breaker? category with
  | some b => b.state
  | none => .closed

/-- Forgets the oldest failures as long as they lie before the window. -/
def prune (h : Handler) (now : Nat) : Handler :=
  { h with window := h.window.dropWhile fun (t, _) => h.windowLength < now - t }

/-- Asks the breaker of a category for a run. -/
def acquire (h : Handler) (category : Category) (now : Nat) : Bool × Handler :=
  let (admitted, b) := (h.breaker category).tryAcquire now
  (admitted, h.setBreaker b)

def recordSuccess (h : Handler) (category : Category) (now : Nat) : Handler :=
  h.setBreaker ((h.breaker category).recordSuccess now)

/-- Charges a failure to the breaker of a category. -/
def charge (h : Handler) (category : Category) (now : Nat) : Handler :=
  h.setBreaker ((h.breaker category).recordFailure now)

/-- Adds a record of a failure to the window. -/
def enter (h : Handler) (failure : Failure) (context : Context) (category : Category)
    (remedy : Remedy) (now : Nat) : Record × Handler :=
  let record : Record := ⟨h.made, category, failure.message, context, remedy, false⟩
  (record, { h with window := h.window ++ [(now, record)], made := h.made + 1 }.prune now)

/-- Marks a record as resolved. -/
def resolve (h : Handler) (number : Nat) : Handler :=
  { h with
    window := h.window.map fun (t, r) => (t, if r.number = number then { r with resolved := true } else r) }

/-- The remedy of a category after some retries. A retry is only honoured on a healthy machine. -/
def remedyFor (h : Handler) (category : Category) (retryCount : Nat) : Program Remedy :=
  match category.plan.primary with
  | .retry limit =>
    if retryCount < limit then do
      let snapshot ← Program.sample
      return if snapshot.isHealthy h.config.limits then .retry limit
        else .fallback (Detour.underPressure category)
    else return category.plan.secondary
  | remedy => return remedy

/-- Classifies a failure, charges it to its breaker and records it with its remedy. -/
def handle (h : Handler) (failure : Failure) (context : Context) : Program (Record × Handler) := do
  let category := categoryOf failure
  let remedy ← h.remedyFor category context.retryCount
  let now ← Program.now
  return (h.charge (context.categoryHint.getD category) now).enter failure context category remedy now

/-- What is shown of the window and the breakers. -/
def stats (h : Handler) : Program (Stats × Handler) := do
  let now ← Program.now
  let h := h.prune now
  let records := h.window.map (·.2)
  return ({
    total := records.length
    byCategory := Category.all.filterMap fun c =>
      match (records.filter (·.category == c)).length with
      | 0 => none
      | n => some (c, n)
    unresolved := (records.filter (!·.resolved)).length
    breakers := Category.all.filterMap fun c => (h.breaker? c).map (·.snapshot now) }, h)

/-! ### Running an operation -/

variable {α σ : Type}

/-- Work that keeps a state of its own and may fail. The number of the attempt, or the record of the
failure to recover from, is given to it. -/
abbrev Work (σ α : Type) := StateT σ Program (Except Failure α)

/-- What follows a failed attempt: `again` runs the next one after the record of this one. -/
def afterFailure (h : Handler) (category : Category) (context : Context)
    (fallback : Option (Record → Work σ α)) (failure : Failure)
    (again : Record → Handler → StateT σ Program (Execution α × Handler)) :
    StateT σ Program (Execution α × Handler) := do
  let (record, h) ← h.handle failure context
  let secondary := record.category.plan.secondary
  match record.remedy with
  | .retry _ =>
    if h.breakerState category = .opened then return (.aborted record failure, h)
    let jitter ← Program.random (h.backoff.spread context.retryCount)
    Program.pause (h.backoff.delay context.retryCount jitter)
    again record h
  | .fallback _ =>
    match fallback with
    | none => return (.terminal secondary { record with remedy := secondary } failure, h)
    | some run =>
      match ← run record with
      | .ok value =>
        return (.recovered value { record with resolved := true }, h.resolve record.number)
      | .error failure =>
        let (record, h) ← h.handle failure context
        return (.terminal secondary { record with remedy := secondary } failure, h)
  | remedy => return (.terminal remedy record failure, h)

/-- Runs attempts from number `attempt` on, with at most `left` retries. -/
def attempts (category : Category) (context : Context) (operation : Nat → Work σ α)
    (fallback : Option (Record → Work σ α)) :
    (left attempt : Nat) → Handler → StateT σ Program (Execution α × Handler)
  | left, attempt, h => do
    match ← operation attempt with
    | .ok value =>
      let now ← Program.now
      return (.retried value (attempt + 1), h.recordSuccess category now)
    | .error failure =>
      let context := { context with retryCount := attempt }
      h.afterFailure category context fallback failure fun record h =>
        match left with
        | 0 => return (.escalated record failure, h)
        | left + 1 => attempts category context operation fallback left (attempt + 1) h

/-- Runs an operation under the plan of its failures, unless the breaker of its category refuses. -/
def execute (h : Handler) (category : Category) (context : Context) (operation : Nat → Work σ α)
    (fallback : Option (Record → Work σ α)) : StateT σ Program (Execution α × Handler) := do
  let context := { context with categoryHint := some category }
  let (admitted, h) := h.acquire category (← Program.now)
  if admitted then attempts category context operation fallback retryLimit 0 h
  else
    let failure := Failure.circuitOpen category
    let (record, h) := h.enter failure context category .abort (← Program.now)
    return (.aborted record failure, h)

end Handler

end SourceRepair.Recovery
