import SourceRepair.Disk.Machine
import SourceRepair.Recovery.Handler

/-!
# What one failure does

Handling a failure charges one breaker and enters one record, both at one instant. A retry is only
chosen by a plan that asks for it, while it is not used up, and on a healthy machine.
-/

namespace SourceRepair

/-- The clock never goes back. -/
def Disk.Environment.Monotone (environment : Disk.Environment) : Prop :=
  ∀ i j, i ≤ j → environment.now i ≤ environment.now j

namespace Disk.Machine

/-- What the clock shows next, in nanoseconds. -/
def clock (m : Machine) : Nat := m.environment.now m.steps + m.paused

/-- Some actions may have been taken between two machines. -/
structure Leads (m n : Machine) : Prop where
  environment : n.environment = m.environment
  steps : m.steps ≤ n.steps
  paused : m.paused ≤ n.paused

variable {m n k : Machine}

theorem Leads.refl (m : Machine) : m.Leads m := ⟨rfl, Nat.le_refl _, Nat.le_refl _⟩

theorem Leads.trans (first : m.Leads n) (next : n.Leads k) : m.Leads k :=
  ⟨next.environment.trans first.environment, Nat.le_trans first.steps next.steps,
    Nat.le_trans first.paused next.paused⟩

theorem Leads.clock (leads : m.Leads n) (monotone : m.environment.Monotone) : m.clock ≤ n.clock := by
  have shown := monotone m.steps n.steps leads.steps
  have paused := leads.paused
  rw [Machine.clock, Machine.clock, leads.environment]
  omega

theorem Leads.monotone (leads : m.Leads n) (monotone : m.environment.Monotone) : n.environment.Monotone := by
  rwa [leads.environment]

theorem attempt_files (m : Machine) (operation : Except Fault Files) :
    ∃ files, (m.attempt operation).2 = { m with files := files } := by
  unfold attempt
  split
  · exact ⟨m.files, rfl⟩
  · cases operation with
    | error fault => exact ⟨m.files, rfl⟩
    | ok files => exact ⟨files, rfl⟩

theorem ask_files {α : Type} (m : Machine) (answer : Except Fault α) :
    ∃ files, (m.ask answer).2 = { m with files := files } := by
  rw [ask]
  split <;> exact ⟨m.files, rfl⟩

theorem store_files (m : Machine) (p : Path) (bytes : ByteArray) :
    ∃ files, (m.store p bytes).2 = { m with files := files } := by
  rw [store]
  split
  · exact ⟨m.files, rfl⟩
  · rename_i files _
    dsimp only
    split <;> exact ⟨files, rfl⟩

/-- Only the disk, the count of actions and the length of the pauses ever change. -/
theorem leads_perform (m : Machine) (action : Action) : m.Leads (m.perform action).2 := by
  have counted : ∀ r : Machine, (∃ files, r = { m with files := files }) →
      m.Leads { r with steps := m.steps + 1 } := by
    rintro _ ⟨files, rfl⟩
    exact ⟨rfl, Nat.le_succ _, Nat.le_refl _⟩
  cases action with
  | pause milliseconds => exact ⟨rfl, Nat.le_succ _, Nat.le_add_right _ _⟩
  | read => exact counted _ (m.ask_files _)
  | list => exact counted _ (m.ask_files _)
  | makeDirectory => exact counted _ (m.attempt_files _)
  | create => exact counted _ (m.attempt_files _)
  | write path bytes => exact counted _ (m.store_files path bytes)
  | sync => exact counted _ (m.attempt_files (.ok m.files))
  | rename => exact counted _ (m.attempt_files _)
  | remove => exact counted _ (m.attempt_files _)
  | _ => exact ⟨rfl, Nat.le_succ _, Nat.le_refl _⟩

end Disk.Machine

/-- A run leads from one machine to another. -/
theorem Disk.Program.leads_run {α : Type} (p : Program α) (m : Machine) : m.Leads (p.run m).2 := by
  induction p generalizing m with
  | done a => exact .refl m
  | step action next ih => exact (m.leads_perform action).trans (ih _ _)

namespace Recovery

theorem plan_limit {category : Category} {limit : Nat} (primary : category.plan.primary = .retry limit) :
    limit ≤ retryLimit := by
  cases category <;> simp_all [Category.plan, retryLimit] <;> omega

/-- A retry that is used up is not replaced by another one. -/
theorem plan_secondary (category : Category) (limit : Nat) : category.plan.secondary ≠ .retry limit := by
  cases category <;> nofun

namespace Handler

open Disk (Machine Program)

variable {h h' : Handler} {category other : Category} {failure : Failure} {context : Context}
  {record : Record} {remedy : Remedy} {now : Nat} {m n : Machine}

/-! ### Breakers -/

theorem category_breaker : (h.breaker category).category = category := by
  rw [breaker, breaker?]
  cases found : h.breakers.find? (·.category == category) with
  | none => rfl
  | some b => simpa using List.find?_some found

theorem breaker?_setBreaker (b : Breaker) :
    (h.setBreaker b).breaker? other = if other = b.category then some b else h.breaker? other := by
  simp only [breaker?, setBreaker, List.find?_cons, List.find?_filter]
  by_cases same : other = b.category
  · simp [same]
  · have unequal : (b.category == other) = false := by simpa using Ne.symm same
    rw [unequal, if_neg same]
    dsimp only
    congr 1
    funext a
    by_cases found : a.category = other <;> simp [found, same]

theorem breaker_of_breaker? {b : Breaker} (found : h.breaker? category = some b) :
    h.breaker category = b := by
  rw [breaker, found]
  rfl

@[simp] theorem breaker?_acquire : (h.acquire category now).2.breaker? other =
    if other = category then some ((h.breaker category).tryAcquire now).2 else h.breaker? other := by
  have same : ((h.breaker category).tryAcquire now).2.category = category := by
    rw [Breaker.tryAcquire]
    repeat' split
    all_goals exact category_breaker
  rw [acquire, breaker?_setBreaker, same]

@[simp] theorem breaker?_recordSuccess : (h.recordSuccess category now).breaker? other =
    if other = category then some ((h.breaker category).recordSuccess now) else h.breaker? other := by
  have same : ((h.breaker category).recordSuccess now).category = category := by
    rw [Breaker.recordSuccess]
    split <;> exact category_breaker
  rw [recordSuccess, breaker?_setBreaker, same]

@[simp] theorem breaker?_charge : (h.charge category now).breaker? other =
    if other = category then some ((h.breaker category).recordFailure now) else h.breaker? other := by
  have same : ((h.breaker category).recordFailure now).category = category := by
    rw [Breaker.recordFailure]
    repeat' split
    all_goals exact category_breaker
  rw [charge, breaker?_setBreaker, same]

@[simp] theorem breaker?_enter :
    (h.enter failure context category remedy now).2.breaker? other = h.breaker? other := rfl

@[simp] theorem breaker?_resolve (number : Nat) : (h.resolve number).breaker? other = h.breaker? other := rfl

theorem breakerState_eq : h.breakerState category = (h.breaker category).state := by
  rw [breakerState, breaker]
  cases h.breaker? category <;> rfl

/-! ### Handling a failure -/

/-- A failure whose plan asks for a retry that is not used up, on a healthy machine. -/
structure Retryable (h : Handler) (retryCount : Nat) (failure : Failure) (limit : Nat) (m : Machine) :
    Prop where
  primary : (categoryOf failure).plan.primary = .retry limit
  left : retryCount < limit
  healthy : (m.environment.sample m.steps).isHealthy h.config.limits = true

theorem remedyFor_eq_retry_iff {retryCount limit : Nat} :
    ((h.remedyFor (categoryOf failure) retryCount).run m).1 = .retry limit ↔
      h.Retryable retryCount failure limit m := by
  rw [remedyFor]
  split
  · rename_i most primary
    split
    · rename_i left
      rw [Program.run_bind]
      show (if (m.environment.sample m.steps).isHealthy h.config.limits then Remedy.retry most else _) = _ ↔ _
      split
      · rename_i healthy
        refine ⟨fun same => ?_, fun retryable => primary.symm.trans retryable.primary⟩
        cases same
        exact ⟨primary, left, healthy⟩
      · rename_i strained
        exact ⟨nofun, fun retryable => absurd retryable.healthy strained⟩
    · rename_i used
      refine ⟨fun same => absurd same (plan_secondary _ limit), fun retryable => ?_⟩
      cases primary.symm.trans retryable.primary
      exact absurd retryable.left used
  · rename_i other
    exact ⟨fun same => absurd same (other limit), fun retryable => absurd retryable.primary (other limit)⟩

/-- Handling a failure charges it and enters it, at an instant of the handling. -/
theorem handle_spec (handled : (h.handle failure context).run m = ((record, h'), n)) :
    ∃ k, m.Leads k ∧ k.Leads n ∧
      (record, h') = (h.charge (context.categoryHint.getD (categoryOf failure)) k.clock).enter failure
        context (categoryOf failure) record.remedy k.clock ∧
      (∀ limit, record.remedy = .retry limit ↔ h.Retryable context.retryCount failure limit m) := by
  have chosen : ∀ limit, ((h.remedyFor (categoryOf failure) context.retryCount).run m).1 = .retry limit ↔
      h.Retryable context.retryCount failure limit m := fun _ => remedyFor_eq_retry_iff
  have before := Program.leads_run (h.remedyFor (categoryOf failure) context.retryCount) m
  rw [handle, Program.run_bind, Program.run_bind] at handled
  cases handled
  exact ⟨_, before, Machine.leads_perform _ .now, rfl, chosen⟩

end Handler

end Recovery

end SourceRepair
