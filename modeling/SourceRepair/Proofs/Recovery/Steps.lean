import SourceRepair.Proofs.Recovery.Course
import SourceRepair.Proofs.Recovery.Execute

/-!
# The steps of a run under a plan

What is tried, in which order and with which end, for every operation and every handler that calls can
lead to: `execute_follows_plan`.
-/

namespace SourceRepair.Recovery

open Disk (Machine Program)

namespace Breaker

/-- No outcome leaves a breaker half-open. -/
theorem recordFailure_settled (b : Breaker) (now : Nat) : (b.recordFailure now).state ≠ .halfOpen := by
  rw [recordFailure]
  split
  · intro same
    cases same
  · rename_i closed
    split
    · intro same
      cases same
    · simp [prune, closed]
  · rename_i opened
    simp [prune, opened]

theorem recordSuccess_settled (b : Breaker) (now : Nat) : (b.recordSuccess now).state ≠ .halfOpen := by
  rw [recordSuccess]
  split
  · intro same
    cases same
  · rename_i other
    exact other

end Breaker

namespace Handler

variable {α σ : Type} {h h' h'' : Handler} {category : Category} {context : Context}
  {operation : Nat → Work σ α} {fallback : Option (Record → Work σ α)} {t u : σ} {m n : Machine}
  {steps : List (Step α)} {e : Execution α} {failure : Failure} {record : Record} {k now : Nat}

/-! ### Breakers -/

/-- Of all breakers only one may have changed, and it is not left half-open. -/
structure Confined (category : Category) (h h' : Handler) : Prop where
  config : h'.config = h.config
  others : ∀ other ≠ category, h'.breaker? other = h.breaker? other
  settled : h'.breakerState category ≠ .halfOpen

namespace Confined

theorem trans (first : Confined category h h') (next : Confined category h' h'') :
    Confined category h h'' :=
  ⟨next.config.trans first.config,
    fun other unequal => (next.others other unequal).trans (first.others other unequal), next.settled⟩

theorem recordSuccess : Confined category h (h.recordSuccess category now) where
  config := rfl
  others other unequal := by rw [breaker?_recordSuccess, if_neg unequal]
  settled := by
    rw [breakerState, breaker?_recordSuccess, if_pos rfl]
    exact Breaker.recordSuccess_settled _ _

theorem handle (handled : (h.handle failure context).run m = ((record, h'), n)) :
    Confined (context.categoryHint.getD (categoryOf failure)) h h' := by
  obtain ⟨k, _, _, same, _⟩ := handle_spec handled
  have after := congrArg Prod.snd same
  dsimp only at after
  subst after
  refine ⟨rfl, fun other unequal => ?_, ?_⟩
  · rw [breaker?_enter, breaker?_charge, if_neg unequal]
  · rw [breakerState, breaker?_enter, breaker?_charge, if_pos rfl]
    exact Breaker.recordFailure_settled _ _

/-- A handler none of whose breakers is half-open stays one. -/
theorem all_settled (confined : Confined category h h') (settled : ∀ c, h.breakerState c ≠ .halfOpen)
    (c : Category) : h'.breakerState c ≠ .halfOpen := by
  by_cases same : c = category
  · subst same
    exact confined.settled
  · rw [breakerState, confined.others c same]
    exact settled c

end Confined

/-! ### The end of a run -/

/-- How the end of a run relates to the steps after its last attempt. -/
structure Ending.Law (failure : Failure) (steps : List (Step α)) (e : Execution α) : Prop where
  unretried : ∀ v attempts, e ≠ .retried v attempts
  fallback : ∀ step ∈ steps, ∃ record r, step = .fallback record r
  single : steps.length ≤ 1
  recovered : ∀ v, (∃ record, e = .recovered v record) ↔ ∃ record, .fallback record (.ok v) ∈ steps
  last : (steps = [] → e.result = .error failure) ∧ ∀ step ∈ steps.getLast?, e.result = step.result

theorem Ending.Law.numbers (law : Law failure steps e) : steps.filterMap Step.number? = [] := by
  refine List.filterMap_eq_nil_iff.mpr fun step member => ?_
  obtain ⟨record, r, rfl⟩ := law.fallback step member
  rfl

/-- An end without a value is neither a success nor a recovery. -/
theorem terminal_valueless {remedy : Remedy} :
    (∀ (v : α) attempts, Execution.terminal remedy record failure ≠ .retried v attempts) ∧
      ∀ (v : α) shown, Execution.terminal remedy record failure ≠ .recovered v shown := by
  cases remedy <;> simp [Execution.terminal]

theorem Ending.law (ending : Ending category context fallback failure record h t m steps e h' u n) :
    Ending.Law failure steps e := by
  have stopped : ∀ remedy record, Law (α := α) failure [] (.terminal remedy record failure) :=
    fun remedy record => ⟨terminal_valueless.1, by simp, by simp, by simp [terminal_valueless.2], by simp⟩
  cases ending with
  | opened => exact stopped .abort record
  | final => exact stopped _ _
  | helpless => exact stopped _ _
  | recovered => exact ⟨by simp, by simp, by simp, by simp [eq_comm], by simp [Execution.result, Step.result]⟩
  | lost =>
    exact ⟨terminal_valueless.1, by simp, by simp, by simp [terminal_valueless.2], by simp [Step.result]⟩

theorem Ending.confined (ending : Ending category context fallback failure record h t m steps e h' u n)
    (hint : context.categoryHint = some category) (before : Confined category h'' h) :
    Confined category h'' h' := by
  cases ending with
  | opened | final | helpless => exact before
  | recovered => exact ⟨before.config, before.others, before.settled⟩
  | lost _ _ _ handled =>
    have later := Confined.handle handled
    rw [hint] at later
    exact before.trans later

/-! ### The order of the steps -/

namespace Course

/-- Attempts are numbered on and on. -/
theorem consecutive (course : Course category context operation fallback k h t m steps e h' u n) :
    ∃ count, steps.filterMap Step.number? = List.range' k count := by
  induction course with
  | success => exact ⟨1, rfl⟩
  | ended _ _ ending =>
    refine ⟨1, ?_⟩
    rw [List.filterMap_cons, ending.law.numbers]
    rfl
  | again _ _ _ _ _ _ ih =>
    obtain ⟨count, same⟩ := ih
    exact ⟨count + 1, by rw [List.filterMap_cons, same]; rfl⟩

/-- No attempt is run under an open breaker. -/
theorem unopened (course : Course category context operation fallback k h t m steps e h' u n)
    (start : h.breakerState category ≠ .opened) {i : Nat} {between : Handler} {r : Except Failure α}
    {l : Machine} (member : .attempt i between r l ∈ steps) : between.breakerState category ≠ .opened := by
  induction course with
  | success => cases List.mem_singleton.mp member; exact start
  | ended _ _ ending =>
    rcases List.mem_cons.mp member with same | later
    · cases same
      exact start
    · obtain ⟨_, _, same⟩ := ending.law.fallback _ later
      cases same
  | again _ _ _ unopened _ _ ih =>
    rcases List.mem_cons.mp member with same | later
    · cases same
      exact start
    · exact ih unopened later

/-- Every attempt but the first one repeats the one before, whose failure its plan repeats. -/
theorem repeated (course : Course category context operation fallback k h t m steps e h' u n)
    {i : Nat} {between : Handler} {r : Except Failure α} {l : Machine}
    (member : .attempt i between r l ∈ steps) : i = k ∨ ∃ j before failure limit after, i = j + 1 ∧
      .attempt j before (.error failure) after ∈ steps ∧ before.Retryable j failure limit after := by
  induction course with
  | success => cases List.mem_singleton.mp member; exact .inl rfl
  | ended _ _ ending =>
    rcases List.mem_cons.mp member with same | later
    · cases same
      exact .inl rfl
    · obtain ⟨_, _, same⟩ := ending.law.fallback _ later
      cases same
  | again failed handled remedy _ _ _ ih =>
    rcases List.mem_cons.mp member with same | later
    · cases same
      exact .inl rfl
    · obtain ⟨_, _, _, _, retryable⟩ := handle_spec handled
      right
      obtain rfl | ⟨j, before, failure, limit, after, next, there, law⟩ := ih later
      · exact ⟨_, _, _, _, _, rfl, List.mem_cons_self, (retryable _).mp remedy⟩
      · exact ⟨j, before, failure, limit, after, next, List.mem_cons_of_mem _ there, law⟩

/-- The fallback is the last step, right after a failed attempt. -/
theorem fallback_last (course : Course category context operation fallback k h t m steps e h' u n)
    {front rest : List (Step α)} {shown : Record} {r : Except Failure α}
    (split : steps = front ++ .fallback shown r :: rest) :
    rest = [] ∧ ∃ earlier i between failure l, front = earlier ++ [.attempt i between (.error failure) l] := by
  induction course generalizing front with
  | success => cases front <;> simp at split
  | ended _ _ ending =>
    cases front with
    | nil => simp at split
    | cons first front =>
      obtain ⟨rfl, rfl⟩ := List.cons.inj split
      have single := ending.law.single
      simp only [List.append_eq, List.length_append, List.length_cons] at single
      have empty : front = [] := List.eq_nil_of_length_eq_zero (by omega)
      subst empty
      exact ⟨List.eq_nil_of_length_eq_zero (by omega), [], _, _, _, _, rfl⟩
  | again _ _ _ _ _ _ ih =>
    cases front with
    | nil => simp at split
    | cons first front =>
      obtain ⟨rfl, later⟩ := List.cons.inj split
      obtain ⟨none, earlier, i, between, failure, l, rfl⟩ := ih later
      exact ⟨none, _ :: earlier, i, between, failure, l, rfl⟩

/-- The end of a run is the result of its last step. -/
theorem last (course : Course category context operation fallback k h t m steps e h' u n) :
    ∃ step, steps.getLast? = some step ∧ e.result = step.result := by
  induction course with
  | success => exact ⟨_, rfl, rfl⟩
  | @ended _ _ _ _ _ _ _ _ _ _ _ _ _ steps _ _ _ ending =>
    obtain ⟨none, some⟩ := ending.law.last
    cases last : steps.getLast? with
    | none =>
      cases List.getLast?_eq_none_iff.mp last
      exact ⟨_, rfl, none rfl⟩
    | some step => exact ⟨step, by simp [List.getLast?_cons, last], some step last⟩
  | again _ _ _ _ _ _ ih =>
    obtain ⟨step, last, same⟩ := ih
    exact ⟨step, by simp [List.getLast?_cons, last], same⟩

/-- A failure that its plan repeats is repeated, unless it opened the breaker and so ends the run. -/
theorem persistent (course : Course category context operation fallback k h t m steps e h' u n)
    {i limit : Nat} {before : Handler} {failure : Failure} {after : Machine}
    (member : .attempt i before (.error failure) after ∈ steps)
    (retryable : before.Retryable i failure limit after) :
    (∃ between r l, .attempt (i + 1) between r l ∈ steps) ∨
      steps.getLast? = some (.attempt i before (.error failure) after) ∧
        h'.breakerState category = .opened := by
  induction course with
  | success => cases List.mem_singleton.mp member
  | ended _ handled ending =>
    rcases List.mem_cons.mp member with same | later
    · cases same
      obtain ⟨_, _, _, _, chosen⟩ := handle_spec handled
      have remedy := (chosen limit).mpr retryable
      right
      cases ending with
      | opened _ opened => exact ⟨rfl, opened⟩
      | final unrepeated => exact absurd remedy (unrepeated limit)
      | helpless other | recovered other | lost other => cases remedy.symm.trans other
    · obtain ⟨_, _, same⟩ := ending.law.fallback _ later
      cases same
  | again _ _ _ _ _ later ih =>
    rcases List.mem_cons.mp member with same | further
    · cases same
      left
      cases later with
      | success => exact ⟨_, _, _, List.mem_cons_of_mem _ List.mem_cons_self⟩
      | ended => exact ⟨_, _, _, List.mem_cons_of_mem _ List.mem_cons_self⟩
      | again => exact ⟨_, _, _, List.mem_cons_of_mem _ List.mem_cons_self⟩
    · rcases ih further with ⟨between, r, l, there⟩ | ⟨last, opened⟩
      · exact .inl ⟨between, r, l, List.mem_cons_of_mem _ there⟩
      · exact .inr ⟨by simp [List.getLast?_cons, last], opened⟩

theorem length_le (course : Course category context operation fallback k h t m steps e h' u n)
    (few : k ≤ retryLimit) : k + steps.length ≤ retryLimit + 2 := by
  induction course with
  | success =>
    rw [List.length_singleton]
    omega
  | ended _ _ ending =>
    have single := ending.law.single
    rw [List.length_cons]
    omega
  | again _ handled remedy _ _ _ ih =>
    obtain ⟨_, _, _, _, retryable⟩ := handle_spec handled
    obtain ⟨primary, left, _⟩ := (retryable _).mp remedy
    have most := plan_limit primary
    dsimp only at left
    have later := ih (by omega)
    rw [List.length_cons]
    omega

/-- A run succeeds with the attempt that does, after those that failed. -/
theorem retried (course : Course category context operation fallback k h t m steps e h' u n) (v : α)
    (attempts : Nat) : e = .retried v attempts ↔ ∃ i, attempts = i + 1 ∧
      (∀ j, k ≤ j → j < i → ∃ before failure after, .attempt j before (.error failure) after ∈ steps) ∧
      ∃ before after, .attempt i before (.ok v) after ∈ steps := by
  induction course with
  | @success k h =>
    constructor
    · intro same
      cases same
      exact ⟨k, rfl, fun j least less => absurd less (Nat.not_lt.mpr least), h, _, List.mem_cons_self⟩
    · rintro ⟨i, rfl, _, before, after, member⟩
      cases List.mem_singleton.mp member
      rfl
  | ended _ _ ending =>
    refine ⟨fun same => absurd same (ending.law.unretried v attempts), ?_⟩
    rintro ⟨i, rfl, _, before, after, member⟩
    rcases List.mem_cons.mp member with same | later
    · cases same
    · obtain ⟨_, _, same⟩ := ending.law.fallback _ later
      cases same
  | @again k limit h _ _ _ _ _ _ n _ _ _ failure _ _ _ _ _ _ _ _ later ih =>
    rw [ih]
    constructor
    · rintro ⟨i, rfl, failed, before, after, member⟩
      refine ⟨i, rfl, fun j least less => ?_, before, after, List.mem_cons_of_mem _ member⟩
      rcases Nat.eq_or_lt_of_le least with rfl | more
      · exact ⟨h, failure, n, List.mem_cons_self⟩
      · obtain ⟨between, failure, after, member⟩ := failed j more less
        exact ⟨between, failure, after, List.mem_cons_of_mem _ member⟩
    · rintro ⟨i, rfl, failed, before, after, member⟩
      refine ⟨i, rfl, fun j more less => ?_, before, after, ?_⟩
      · obtain ⟨between, failure, after, member⟩ := failed j (Nat.le_of_lt more) less
        rcases List.mem_cons.mp member with same | later
        · cases same
          exact absurd more (Nat.lt_irrefl _)
        · exact ⟨between, failure, after, later⟩
      · rcases List.mem_cons.mp member with same | later
        · cases same
        · exact later

/-- A run recovers by its fallback alone. -/
theorem recovered (course : Course category context operation fallback k h t m steps e h' u n) (v : α) :
    (∃ shown, e = .recovered v shown) ↔ ∃ shown, .fallback shown (.ok v) ∈ steps := by
  induction course with
  | success => simp
  | ended _ _ ending => simpa using ending.law.recovered v
  | again _ _ _ _ _ _ ih => simpa using ih

theorem confined (course : Course category context operation fallback k h t m steps e h' u n)
    (hint : context.categoryHint = some category) : Confined category h h' := by
  have charged : ∀ {h h' record n l failure} k,
      (h.handle failure { context with retryCount := k }).run n = ((record, h'), l) →
        Confined category h h' := by
    intro h h' record n l failure k handled
    have confined := Confined.handle handled
    rwa [hint] at confined
  induction course with
  | success => exact .recordSuccess
  | ended _ handled ending => exact ending.confined hint (charged _ handled)
  | again _ handled _ _ _ _ ih => exact (charged _ handled).trans ih

end Course

/-! ### The law -/

/-- The handlers that calls can lead to, one after the other and on any machines. -/
inductive Reached (config : Config) : Handler → Prop
  | new : Reached config { config := config }
  | handled {h h' : Handler} {failure : Failure} {context : Context} {m n : Machine} {record : Record}
      (reached : Reached config h) (ran : (h.handle failure context).run m = ((record, h'), n)) :
      Reached config h'
  | shown {h h' : Handler} {m n : Machine} {stats : Stats} (reached : Reached config h)
      (ran : h.stats.run m = ((stats, h'), n)) : Reached config h'
  | executed {h h' : Handler} {α σ : Type} {category : Category} {context : Context}
      {operation : Nat → Work σ α} {fallback : Option (Record → Work σ α)} {t u : σ} {m n : Machine}
      {e : Execution α} (reached : Reached config h)
      (ran : ((h.execute category context operation fallback).run t).run m = (((e, h'), u), n)) :
      Reached config h'

/-- What a run tries. -/
structure FollowsPlan (category : Category) (steps : List (Step α)) : Prop where
  /-- Attempts are numbered from zero on and without a gap. -/
  consecutive : ∃ count, steps.filterMap Step.number? = List.range count
  unopened : ∀ k h r n, .attempt k h r n ∈ steps → h.breakerState category ≠ .opened
  /-- Every attempt but the first one repeats the one before, whose failure its plan repeats. -/
  repeated : ∀ k h r n, .attempt (k + 1) h r n ∈ steps → ∃ before failure limit after,
    .attempt k before (.error failure) after ∈ steps ∧ before.Retryable k failure limit after
  /-- The fallback is the last step, right after a failed attempt. -/
  fallback_last : ∀ front record r rest, steps = front ++ .fallback record r :: rest →
    rest = [] ∧ ∃ earlier k h failure n, front = earlier ++ [.attempt k h (.error failure) n]
  few : steps.length ≤ retryLimit + 2

/-- How a run ends after its steps. -/
structure EndsAsTried (category : Category) (steps : List (Step α)) (e : Execution α) (h : Handler) :
    Prop where
  retried : ∀ v attempts, e = .retried v attempts ↔ ∃ k, attempts = k + 1 ∧
    (∀ i < k, ∃ before failure after, .attempt i before (.error failure) after ∈ steps) ∧
    ∃ before after, .attempt k before (.ok v) after ∈ steps
  recovered : ∀ v, (∃ record, e = .recovered v record) ↔ ∃ record, .fallback record (.ok v) ∈ steps
  /-- The result is that of the last step. -/
  last : ∀ step ∈ steps.getLast?, e.result = step.result
  /-- With nothing run the breaker refused. -/
  refused : steps = [] → e.result = .error (.circuitOpen category)
  /-- A failure that its plan repeats is only left alone when it opened the breaker. -/
  persistent : ∀ k before failure limit after, .attempt k before (.error failure) after ∈ steps →
    before.Retryable k failure limit after → (∃ between r l, .attempt (k + 1) between r l ∈ steps) ∨
      steps.getLast? = some (.attempt k before (.error failure) after) ∧ h.breakerState category = .opened
  settled : h.breakerState category ≠ .halfOpen

theorem acquire_unopened (admitted : (h.acquire category now).1 = true) :
    (h.acquire category now).2.breakerState category ≠ .opened := by
  rw [breakerState, breaker?_acquire, if_pos rfl]
  rw [acquire] at admitted
  dsimp only at admitted ⊢
  rw [Breaker.tryAcquire] at admitted ⊢
  split at admitted <;> rename_i state
  · simp [state]
  · split at admitted
    · simp_all
    · cases admitted
  · split at admitted
    · cases admitted
    · simp_all

/-- A breaker that refuses without a trial under way is open, and stays so. -/
theorem acquire_refused (refused : (h.acquire category now).1 = false)
    (settled : h.breakerState category ≠ .halfOpen) :
    (h.breaker category).state = .opened ∧
      ((h.breaker category).tryAcquire now).2 = h.breaker category := by
  rw [breakerState_eq] at settled
  rw [acquire] at refused
  dsimp only at refused
  rw [Breaker.tryAcquire] at refused ⊢
  split at refused <;> rename_i state
  · cases refused
  · split at refused
    · cases refused
    · rename_i warm
      rw [if_neg warm]
      exact ⟨state, rfl⟩
  · exact absurd state settled

/-- A run changes the breaker of its category alone. -/
theorem Executed.confined
    (executed : Executed h category context operation fallback t m steps e h' u n)
    (settled : h.breakerState category ≠ .halfOpen) : Confined category h h' := by
  have others : ∀ now, ∀ other ≠ category, (h.acquire category now).2.breaker? other = h.breaker? other :=
    fun now other unequal => by rw [breaker?_acquire, if_neg unequal]
  cases executed with
  | refused refused entered =>
    obtain ⟨opened, same⟩ := acquire_refused refused settled
    have after := congrArg Prod.snd entered
    dsimp only at after
    rw [← after]
    refine ⟨rfl, others _, ?_⟩
    rw [breakerState, breaker?_enter, breaker?_acquire, if_pos rfl, same]
    simp [opened]
  | admitted _ course =>
    have later := course.confined rfl
    exact ⟨later.config, fun other unequal => (later.others other unequal).trans (others _ other unequal),
      later.settled⟩

/-- No breaker is half-open between calls. -/
theorem Reached.settled {config : Config} (reached : Reached config h) (c : Category) :
    h.breakerState c ≠ .halfOpen := by
  induction reached generalizing c with
  | new => nofun
  | handled _ ran ih => exact (Confined.handle ran).all_settled ih c
  | shown _ ran ih =>
    cases ran
    exact ih c
  | executed _ ran ih =>
    obtain ⟨steps, executed⟩ := executed_of_run ran
    exact (executed.confined (ih _)).all_settled ih c

theorem Executed.followsPlan
    (executed : Executed h category context operation fallback t m steps e h' u n) :
    FollowsPlan category steps := by
  cases executed with
  | refused => exact ⟨⟨0, rfl⟩, by simp, by simp, by simp, Nat.zero_le _⟩
  | admitted admitted course =>
    obtain ⟨count, numbers⟩ := course.consecutive
    refine ⟨⟨count, numbers.trans List.range_eq_range'.symm⟩, ?_, ?_, ?_, ?_⟩
    · exact fun k h r n member => course.unopened (acquire_unopened admitted) member
    · intro k h r n member
      obtain first | ⟨i, before, failure, limit, after, next, there, retryable⟩ := course.repeated member
      · cases first
      · cases next
        exact ⟨before, failure, limit, after, there, retryable⟩
    · exact fun front record r rest split => course.fallback_last split
    · simpa using course.length_le (Nat.zero_le _)

theorem Executed.endsAsTried
    (executed : Executed h category context operation fallback t m steps e h' u n)
    (settled : h.breakerState category ≠ .halfOpen) : EndsAsTried category steps e h' := by
  have confined := executed.confined settled
  cases executed with
  | refused =>
    exact ⟨by simp, by simp, by simp, fun _ => rfl, by simp, confined.settled⟩
  | admitted _ course =>
    obtain ⟨step, last, result⟩ := course.last
    refine ⟨fun v attempts => ?_, course.recovered, ?_, ?_, ?_, confined.settled⟩
    · simpa using course.retried v attempts
    · intro other same
      cases last.symm.trans same
      exact result
    · rintro rfl
      cases last
    · exact fun k before failure limit after member retryable => course.persistent member retryable

/-- Whatever an operation and its fallback do, and whatever came before, a run comes to an end. It tries
what the plans of its failures say, in this order, and ends as its last step did. -/
theorem execute_follows_plan {config : Config} (reached : Reached config h) (category : Category)
    (context : Context) (operation : Nat → Work σ α) (fallback : Option (Record → Work σ α)) (t : σ)
    (m : Machine) :
    ∃ steps e h' u n, ((h.execute category context operation fallback).run t).run m = (((e, h'), u), n) ∧
      Executed h category context operation fallback t m steps e h' u n ∧
      (steps = [] ↔ (h.acquire category m.clock).1 = false) ∧
      FollowsPlan category steps ∧ EndsAsTried category steps e h' := by
  rcases ran : ((h.execute category context operation fallback).run t).run m with ⟨⟨⟨e, h'⟩, u⟩, n⟩
  obtain ⟨steps, executed⟩ := executed_of_run ran
  refine ⟨steps, e, h', u, n, rfl, executed, ?_, executed.followsPlan,
    executed.endsAsTried (reached.settled category)⟩
  cases executed with
  | refused refused => exact ⟨fun _ => refused, fun _ => rfl⟩
  | admitted admitted course =>
    obtain ⟨step, last, _⟩ := course.last
    refine ⟨?_, fun refused => absurd (admitted.symm.trans refused) (by decide)⟩
    rintro rfl
    cases last

/-- A machine without files, on which no time passes but in pauses. -/
def idleMachine : Machine where
  files := {}
  environment := ⟨fun _ => 0, fun _ => 0, fun _ => {}, fun _ => 0, fun _ => "", fun _ => none, fun _ b => b⟩

/-- Fails in its first attempt, in the way of a network. -/
def flaky (attempt : Nat) : Work Unit Nat :=
  let r : Except Failure Nat := if attempt = 0 then .error (.circuitOpen .network) else .ok attempt
  (pure r : StateT Unit Program (Except Failure Nat))

/-- A handler that has one failure on record. -/
def chargedHandler : Handler :=
  ((Handler.handle { config := {} } (.circuitOpen .io) { operation := "write" }).run idleMachine).1.2

theorem execute_follows_plan_flaky :
    Reached {} chargedHandler ∧
    ∃ steps e h' u n, ((chargedHandler.execute .io { operation := "read" } flaky none).run ()).run
        idleMachine = (((e, h'), u), n) ∧
      Executed chargedHandler .io { operation := "read" } flaky none () idleMachine steps e h' u n ∧
      (steps = [] ↔ (chargedHandler.acquire .io idleMachine.clock).1 = false) ∧
      FollowsPlan .io steps ∧ EndsAsTried .io steps e h' :=
  have reached : Reached {} chargedHandler := .handled .new rfl
  ⟨reached, execute_follows_plan reached .io { operation := "read" } flaky none () idleMachine⟩

-- The failure of the network is one to be repeated, although the breaker is that of the disk.
example : (((chargedHandler.execute .io { operation := "read" } flaky none).run ()).run
    idleMachine).1.1.1.outcome = "retried" := by
  decide +kernel

end Handler

end SourceRepair.Recovery
