import SourceRepair.Proofs.Recovery.Breaker
import SourceRepair.Proofs.Recovery.Handle

/-!
# The course of a run under a plan

What a run does, step by step: attempts, each but the last followed by a retry, and at the end perhaps
the fallback. Laws of whole runs are proved by induction on the course. `execute_follows_plan` says what
is tried, in which order and with which end.
-/

namespace SourceRepair.Recovery.Handler

open Disk (Machine Program)

variable {α σ : Type}

/-- A step of a run. -/
inductive Step (α : Type) where
  /-- An attempt, with the handler that it was run under and the machine that it left. -/
  | attempt (number : Nat) (handler : Handler) (result : Except Failure α) (after : Machine)
  /-- The fallback, with the record of the failure that it is to recover from. -/
  | fallback (record : Record) (result : Except Failure α)

def Step.result : Step α → Except Failure α
  | attempt _ _ r _ | fallback _ r => r

/-- The number of an attempt. -/
def Step.number? : Step α → Option Nat
  | attempt k _ _ _ => some k
  | fallback _ _ => none

/-- Lets some time pass before a retry. -/
def wait (h : Handler) (attempt : Nat) : Program Unit := do
  let jitter ← Program.random (h.backoff.spread attempt)
  Program.pause (h.backoff.delay attempt jitter)

/-- How a run ends after a failed attempt and its record, with the steps that are still taken. -/
inductive Ending (category : Category) (context : Context) (fallback : Option (Record → Work σ α))
    (failure : Failure) (record : Record) (h : Handler) (t : σ) (m : Machine) :
    List (Step α) → Execution α → Handler → σ → Machine → Prop
  | opened {limit : Nat} (remedy : record.remedy = .retry limit)
      (opened : h.breakerState category = .opened) :
      Ending category context fallback failure record h t m [] (.aborted record failure) h t m
  | final (unrepeated : ∀ limit, record.remedy ≠ .retry limit)
      (direct : ∀ detour, record.remedy ≠ .fallback detour) :
      Ending category context fallback failure record h t m []
        (.terminal record.remedy record failure) h t m
  | helpless {detour : Detour} (remedy : record.remedy = .fallback detour) (none : fallback = none) :
      Ending category context fallback failure record h t m []
        (.terminal record.category.plan.secondary
          { record with remedy := record.category.plan.secondary } failure) h t m
  | recovered {detour : Detour} {run : Record → Work σ α} {v : α} {u : σ} {n : Machine}
      (remedy : record.remedy = .fallback detour) (given : fallback = some run)
      (ran : ((run record).run t).run m = ((.ok v, u), n)) :
      Ending category context fallback failure record h t m [.fallback record (.ok v)]
        (.recovered v { record with resolved := true }) (h.resolve record.number) u n
  | lost {detour : Detour} {run : Record → Work σ α} {second : Failure} {record' : Record} {h' : Handler}
      {u : σ} {n n' : Machine} (remedy : record.remedy = .fallback detour) (given : fallback = some run)
      (ran : ((run record).run t).run m = ((.error second, u), n))
      (handled : (h.handle second context).run n = ((record', h'), n')) :
      Ending category context fallback failure record h t m [.fallback record (.error second)]
        (.terminal record.category.plan.secondary
          { record' with remedy := record.category.plan.secondary } second) h' u n'

/-- The course of a run from an attempt on. -/
inductive Course (category : Category) (context : Context) (operation : Nat → Work σ α)
    (fallback : Option (Record → Work σ α)) :
    Nat → Handler → σ → Machine → List (Step α) → Execution α → Handler → σ → Machine → Prop
  | success {k : Nat} {h : Handler} {t u : σ} {m n : Machine} {v : α}
      (ran : ((operation k).run t).run m = ((.ok v, u), n)) :
      Course category context operation fallback k h t m [.attempt k h (.ok v) n] (.retried v (k + 1))
        (h.recordSuccess category n.clock) u (n.perform .now).2
  | ended {k : Nat} {h h' h'' : Handler} {t u u' : σ} {m n n' n'' : Machine} {failure : Failure}
      {record : Record} {steps : List (Step α)} {e : Execution α}
      (failed : ((operation k).run t).run m = ((.error failure, u), n))
      (handled : (h.handle failure { context with retryCount := k }).run n = ((record, h'), n'))
      (ending : Ending category { context with retryCount := k } fallback failure record h' u n' steps e
        h'' u' n'') :
      Course category context operation fallback k h t m (.attempt k h (.error failure) n :: steps) e
        h'' u' n''
  | again {k limit : Nat} {h h' h'' : Handler} {t u u' : σ} {m n n' l n'' : Machine} {failure : Failure}
      {record : Record} {steps : List (Step α)} {e : Execution α}
      (failed : ((operation k).run t).run m = ((.error failure, u), n))
      (handled : (h.handle failure { context with retryCount := k }).run n = ((record, h'), n'))
      (remedy : record.remedy = .retry limit) (unopened : h'.breakerState category ≠ .opened)
      (waited : (h'.wait k).run n' = ((), l))
      (later : Course category context operation fallback (k + 1) h' u l steps e h'' u' n'') :
      Course category context operation fallback k h t m (.attempt k h (.error failure) n :: steps) e
        h'' u' n''

/-- What a run does: it is refused, with nothing run, or it takes its course from the first attempt on. -/
inductive Executed (h : Handler) (category : Category) (context : Context) (operation : Nat → Work σ α)
    (fallback : Option (Record → Work σ α)) (t : σ) (m : Machine) :
    List (Step α) → Execution α → Handler → σ → Machine → Prop
  | refused {record : Record} {h' : Handler} (refused : (h.acquire category m.clock).1 = false)
      (entered : (h.acquire category m.clock).2.enter (.circuitOpen category)
        { context with categoryHint := some category } category .abort (m.perform .now).2.clock =
          (record, h')) :
      Executed h category context operation fallback t m [] (.aborted record (.circuitOpen category)) h' t
        ((m.perform .now).2.perform .now).2
  | admitted {steps : List (Step α)} {e : Execution α} {h' : Handler} {u : σ} {n : Machine}
      (admitted : (h.acquire category m.clock).1 = true)
      (course : Course category { context with categoryHint := some category } operation fallback 0
        (h.acquire category m.clock).2 t (m.perform .now).2 steps e h' u n) :
      Executed h category context operation fallback t m steps e h' u n

section

variable {h h' : Handler} {category : Category} {context : Context} {operation : Nat → Work σ α}
  {fallback : Option (Record → Work σ α)} {t u : σ} {m n : Machine} {e : Execution α}

theorem run_lift {β : Type} (p : Program β) (t : σ) (m : Machine) :
    ((liftM p : StateT σ Program β).run t).run m = (((p.run m).1, t), (p.run m).2) := by
  show ((StateT.lift p : StateT σ Program β).run t).run m = _
  rw [StateT.run_lift, Program.run_bind]
  rfl

/-- A failed attempt is handled; then the run ends, or the next attempt is run after some time. -/
theorem afterFailure_run {failure : Failure}
    {again : Record → Handler → StateT σ Program (Execution α × Handler)}
    (ran : ((h.afterFailure category context fallback failure again).run t).run m = (((e, h'), u), n)) :
    ∃ record between k, (h.handle failure context).run m = ((record, between), k) ∧
      ((∃ steps, Ending category context fallback failure record between t k steps e h' u n) ∨
        ∃ limit l, record.remedy = .retry limit ∧ between.breakerState category ≠ .opened ∧
          (between.wait context.retryCount).run k = ((), l) ∧
          ((again record between).run t).run l = (((e, h'), u), n)) := by
  rw [afterFailure, StateT.run_bind, Program.run_bind, run_lift] at ran
  refine ⟨_, _, _, rfl, ?_⟩
  generalize (h.handle failure context).run m = handled at ran ⊢
  obtain ⟨⟨record, between⟩, k⟩ := handled
  dsimp only at ran ⊢
  split at ran
  · rename_i limit remedy
    split at ran
    · rename_i opened
      cases ran
      exact .inl ⟨[], .opened remedy opened⟩
    · rename_i unopened
      refine .inr ⟨limit, _, remedy, unopened, rfl, ?_⟩
      rw [StateT.run_bind, Program.run_bind, run_lift, StateT.run_bind, Program.run_bind, run_lift] at ran
      exact ran
  · rename_i detour remedy
    split at ran
    · cases ran
      exact .inl ⟨[], .helpless remedy rfl⟩
    · rename_i run
      rw [StateT.run_bind, Program.run_bind] at ran
      generalize recovered : ((run record).run t).run k = r at ran
      obtain ⟨⟨result, t'⟩, k'⟩ := r
      cases result with
      | ok value =>
        cases ran
        exact .inl ⟨_, .recovered remedy rfl recovered⟩
      | error second =>
        dsimp only at ran
        rw [StateT.run_bind, Program.run_bind, run_lift] at ran
        cases ran
        exact .inl ⟨_, .lost remedy rfl recovered rfl⟩
  · rename_i unrepeated direct
    cases ran
    exact .inl ⟨[], .final unrepeated direct⟩

/-- The retry of a failure, if any is left. -/
def retry (category : Category) (context : Context) (operation : Nat → Work σ α)
    (fallback : Option (Record → Work σ α)) (failure : Failure) (attempt left : Nat) (record : Record)
    (h : Handler) : StateT σ Program (Execution α × Handler) :=
  match left with
  | 0 => return (.escalated record failure, h)
  | left + 1 => attempts category context operation fallback left (attempt + 1) h

/-- One attempt, and what follows. -/
theorem attempts_eq (left attempt : Nat) :
    attempts category context operation fallback left attempt h = (do
      match ← operation attempt with
      | .ok value =>
        let now ← Program.now
        return (.retried value (attempt + 1), h.recordSuccess category now)
      | .error failure =>
        h.afterFailure category { context with retryCount := attempt } fallback failure
          (retry category { context with retryCount := attempt } operation fallback failure attempt left)) := by
  cases left <;> rw [attempts] <;> rfl

/-- An attempt ends the run, or fails in such a way that the next one is run after some time. -/
theorem attempts_run {left attempt : Nat}
    (ran : ((attempts category context operation fallback left attempt h).run t).run m = (((e, h'), u), n)) :
    (∃ steps, Course category context operation fallback attempt h t m steps e h' u n) ∨
    ∃ failure t' i record between j limit l,
      ((operation attempt).run t).run m = ((.error failure, t'), i) ∧
      (h.handle failure { context with retryCount := attempt }).run i = ((record, between), j) ∧
      record.remedy = .retry limit ∧ between.breakerState category ≠ .opened ∧
      (between.wait attempt).run j = ((), l) ∧
      ((retry category { context with retryCount := attempt } operation fallback failure attempt left record
        between).run t').run l = (((e, h'), u), n) := by
  rw [attempts_eq, StateT.run_bind, Program.run_bind] at ran
  rcases tried : ((operation attempt).run t).run m with ⟨⟨result, t'⟩, i⟩
  rw [tried] at ran
  cases result with
  | ok value =>
    dsimp only at ran
    rw [StateT.run_bind, Program.run_bind, run_lift] at ran
    cases ran
    exact .inl ⟨_, .success tried⟩
  | error failure =>
    obtain ⟨record, between, j, handled, ⟨steps, ending⟩ | ⟨limit, l, remedy, unopened, waited, next⟩⟩ :=
      afterFailure_run ran
    · exact .inl ⟨_, .ended tried handled ending⟩
    · exact .inr ⟨failure, t', i, record, between, j, limit, l, rfl, handled, remedy, unopened, waited, next⟩

/-- The count of retries in the context is overwritten by every attempt. -/
theorem Course.of_retryCount {k count : Nat} {steps : List (Step α)}
    (course : Course category { context with retryCount := count } operation fallback k h t m steps e h' u n) :
    Course category context operation fallback k h t m steps e h' u n := by
  induction course with
  | success ran => exact .success ran
  | ended failed handled ending => exact .ended failed handled ending
  | again failed handled remedy unopened waited _ ih => exact .again failed handled remedy unopened waited ih

/-- Attempts take their course: the last attempt that is left is never one to be repeated. -/
theorem course_of_attempts {left attempt : Nat} (budget : left + attempt = retryLimit)
    (ran : ((attempts category context operation fallback left attempt h).run t).run m = (((e, h'), u), n)) :
    ∃ steps, Course category context operation fallback attempt h t m steps e h' u n := by
  induction left generalizing context attempt h t m with
  | zero =>
    obtain done | ⟨failure, t', i, record, between, j, limit, l, _, handled, remedy, _⟩ := attempts_run ran
    · exact done
    · obtain ⟨_, _, _, _, retryable⟩ := handle_spec handled
      obtain ⟨primary, left, _⟩ := (retryable limit).mp remedy
      have most := plan_limit primary
      dsimp only at left
      omega
  | succ left ih =>
    obtain done | ⟨failure, t', i, record, between, j, limit, l, tried, handled, remedy, unopened, waited,
      next⟩ := attempts_run ran
    · exact done
    · obtain ⟨steps, later⟩ := ih (by omega) next
      exact ⟨_, .again tried handled remedy unopened waited later.of_retryCount⟩

theorem executed_of_run
    (ran : ((h.execute category context operation fallback).run t).run m = (((e, h'), u), n)) :
    ∃ steps, Executed h category context operation fallback t m steps e h' u n := by
  rw [execute, StateT.run_bind, Program.run_bind, run_lift] at ran
  have now : (Program.now.run m).1 = m.clock := rfl
  rw [now] at ran
  generalize acquired : h.acquire category m.clock = r at ran
  obtain ⟨admitted, between⟩ := r
  cases admitted with
  | true =>
    obtain ⟨steps, course⟩ := course_of_attempts (rfl : retryLimit + 0 = retryLimit) ran
    refine ⟨steps, .admitted (by rw [acquired]) ?_⟩
    rw [acquired]
    exact course
  | false =>
    dsimp only at ran
    rw [if_neg (by decide), StateT.run_bind, Program.run_bind, run_lift] at ran
    cases ran
    exact ⟨[], .refused (by rw [acquired]) (by rw [acquired]; rfl)⟩

end

end SourceRepair.Recovery.Handler
