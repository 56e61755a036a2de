import Mathlib.Data.List.Forall2
import Mathlib.Data.List.TakeWhile
import SourceRepair.Proofs.Recovery.Steps

/-!
# The accounts of a run under a plan

A run enters each of its failures into the window, charges them to the breaker of its category, and
leaves every other breaker and every older record as they were: `execute_accounts`.
-/

namespace SourceRepair.Recovery.Handler

open Disk (Machine Program)

variable {α σ : Type} {h h' h'' : Handler} {category : Category} {context : Context}
  {operation : Nat → Work σ α} {fallback : Option (Record → Work σ α)} {t u : σ} {m n origin : Machine}
  {steps : List (Step α)} {e : Execution α} {failure : Failure} {record : Record} {k : Nat}

/-! ### The window -/

/-- The window after some entries were added, none of them from before an instant. All that it lost is
from before. -/
def Extends (instant : Nat) (h h' : Handler) (added : List (Nat × Record)) : Prop :=
  ∃ dropped kept, h.window = dropped ++ kept ∧ h'.window = kept ++ added ∧
    (∀ entry ∈ dropped, entry.1 < instant) ∧ ∀ entry ∈ added, instant ≤ entry.1

theorem Extends.trans {instant : Nat} {first next : List (Nat × Record)}
    (before : Extends instant h h' first) (after : Extends instant h' h'' next) :
    Extends instant h h'' (first ++ next) := by
  obtain ⟨gone, left, parted, joined, old, new⟩ := before
  obtain ⟨gone', left', parted', joined', old', new'⟩ := after
  -- What goes later is older than all that was added first.
  obtain ⟨kept, rfl, rfl⟩ : ∃ kept, left = gone' ++ kept ∧ left' = kept ++ first := by
    rcases List.append_eq_append_iff.mp (parted'.symm.trans joined) with
      ⟨kept, same, rest⟩ | ⟨more, same, rest⟩
    · exact ⟨kept, same, rest⟩
    · cases more with
      | nil => exact ⟨[], by simpa using same.symm, by simpa using rest.symm⟩
      | cons entry more =>
        have early := old' entry (by rw [same]; simp)
        have late := new entry (by rw [rest]; simp)
        omega
  refine ⟨gone ++ gone', kept, by rw [parted, List.append_assoc], by rw [joined', List.append_assoc],
    fun entry member => ?_, fun entry member => ?_⟩
  · exact (List.mem_append.mp member).elim (old entry) (old' entry)
  · exact (List.mem_append.mp member).elim (new entry) (new' entry)

theorem dropWhile_concat {β : Type} {p : β → Bool} {x : β} (stays : p x = false) (xs : List β) :
    (xs ++ [x]).dropWhile p = xs.dropWhile p ++ [x] := by
  have single : [x].dropWhile p = [x] := List.dropWhile_cons_of_neg (by simp [stays])
  rw [List.dropWhile_append]
  split
  · rename_i none
    rw [List.isEmpty_iff.mp none, single]
    rfl
  · rfl

/-- Within one window of time an entry makes no room for itself but at the cost of older ones. -/
theorem enter_extends {remedy : Remedy} {instant now : Nat} (late : instant ≤ now)
    (short : now ≤ instant + h.windowLength) :
    Extends instant h (h.enter failure context category remedy now).2
      [(now, (h.enter failure context category remedy now).1)] := by
  refine ⟨h.window.takeWhile fun x => h.windowLength < now - x.1,
    h.window.dropWhile fun x => h.windowLength < now - x.1, List.takeWhile_append_dropWhile.symm, ?_, ?_, ?_⟩
  · exact dropWhile_concat (by simp) h.window
  · intro entry member
    have far := List.mem_takeWhile_imp member
    simp only [decide_eq_true_eq] at far
    omega
  · simpa using late

/-- Records in the window bear numbers that were given out. -/
def Numbered (h : Handler) : Prop := ∀ entry ∈ h.window, entry.2.number < h.made

theorem Numbered.enter {remedy : Remedy} {now : Nat} (numbered : h.Numbered) :
    (h.enter failure context category remedy now).2.Numbered := by
  intro entry member
  have member : entry ∈ h.window ++ [_] := (List.dropWhile_sublist _).subset member
  rcases List.mem_append.mp member with old | new
  · exact Nat.lt_succ_of_lt (numbered entry old)
  · cases List.mem_singleton.mp new
    exact Nat.lt_succ_self _

theorem Numbered.handle (numbered : h.Numbered)
    (handled : (h.handle failure context).run m = ((record, h'), n)) : h'.Numbered := by
  obtain ⟨k, _, _, same, _⟩ := handle_spec handled
  have after := congrArg Prod.snd same
  dsimp only at after
  rw [after]
  exact Numbered.enter numbered

theorem Numbered.resolve (numbered : h.Numbered) (number : Nat) : (h.resolve number).Numbered := by
  intro entry member
  obtain ⟨old, there, rfl⟩ := List.mem_map.mp member
  have less := numbered old there
  dsimp only
  split <;> exact less

/-- The record that was made last is resolved alone. -/
theorem resolve_extends {instant time : Nat} (numbered : h.Numbered) (fresh : record.number = h.made)
    (added : Extends instant h h' [(time, record)]) :
    Extends instant h (h'.resolve record.number) [(time, { record with resolved := true })] := by
  obtain ⟨dropped, kept, parted, joined, old, new⟩ := added
  refine ⟨dropped, kept, parted, ?_, old, by simpa using new⟩
  show h'.window.map _ = _
  rw [joined, List.map_append]
  congr 1
  · conv_rhs => rw [← List.map_id kept]
    refine List.map_congr_left fun other member => ?_
    have less := numbered other (by rw [parted]; exact List.mem_append_right _ member)
    have unequal : other.2.number ≠ record.number := by omega
    simp [unequal]
  · simp

/-! ### The machine -/

theorem leads_of_run {p : Program α} {a : α} (ran : p.run m = (a, n)) : m.Leads n := by
  have leads := p.leads_run m
  rwa [ran] at leads

theorem Ending.leads (ending : Ending category context fallback failure record h t m steps e h' u n) :
    m.Leads n := by
  cases ending with
  | opened | final | helpless => exact .refl m
  | recovered _ _ ran => exact leads_of_run ran
  | lost _ _ ran handled => exact (leads_of_run ran).trans (leads_of_run handled)

theorem Course.leads (course : Course category context operation fallback k h t m steps e h' u n) :
    m.Leads n := by
  induction course with
  | success ran => exact (leads_of_run ran).trans (Machine.leads_perform _ _)
  | ended failed handled ending => exact ((leads_of_run failed).trans (leads_of_run handled)).trans ending.leads
  | again failed handled _ _ waited _ ih =>
    exact (((leads_of_run failed).trans (leads_of_run handled)).trans (leads_of_run waited)).trans ih

/-! ### The books -/

/-- What failed at a step: the attempt that it belongs to, and the failure. -/
def Step.failed? : Step α → Option (Nat × Failure)
  | .attempt k _ (.error failure) _ => some (k, failure)
  | .fallback record (.error failure) => some (record.context.retryCount, failure)
  | _ => none

/-- An entry of the window tells of a failure in some attempt. -/
structure Tells (context : Context) (failed : Nat × Failure) (entry : Nat × Record) : Prop where
  category : entry.2.category = categoryOf failed.2
  message : entry.2.message = failed.2.message
  context : entry.2.context = { context with retryCount := failed.1 }

/-- What a handled failure leaves in the books. -/
structure Entered (instant : Nat) (category : Category) (context : Context) (failure : Failure)
    (record : Record) (time : Nat) (h h' : Handler) : Prop where
  window : Extends instant h h' [(time, record)]
  tells : Tells context (context.retryCount, failure) (time, record)
  unresolved : record.resolved = false
  fresh : record.number = h.made
  config : h'.config = h.config
  charged : h'.breaker category = (h.breaker category).recordFailure time

theorem handle_entered (handled : (h.handle failure context).run m = ((record, h'), n))
    (hint : context.categoryHint = some category) (start : origin.Leads m)
    (monotone : origin.environment.Monotone) (short : n.clock ≤ origin.clock + h.windowLength) :
    ∃ time, Entered origin.clock category context failure record time h h' := by
  obtain ⟨k, before, after, same, _⟩ := handle_spec handled
  have late := (start.trans before).clock monotone
  have early := after.clock ((start.trans before).monotone monotone)
  rw [hint, Option.getD_some] at same
  have made := congrArg Prod.fst same
  have left := congrArg Prod.snd same
  dsimp only at made left
  have added : Extends origin.clock (h.charge category k.clock)
      ((h.charge category k.clock).enter failure context (categoryOf failure) record.remedy k.clock).2
      [(k.clock, ((h.charge category k.clock).enter failure context (categoryOf failure) record.remedy
        k.clock).1)] :=
    enter_extends late (by exact Nat.le_trans early short)
  rw [← made, ← left] at added
  refine ⟨k.clock, added, ?_, ?_, ?_, ?_, ?_⟩
  · rw [made]
    exact ⟨rfl, rfl, rfl⟩
  · rw [made]
    rfl
  · rw [made]
    rfl
  · rw [left]
    rfl
  · rw [left]
    exact breaker_of_breaker? (by rw [breaker?_enter, breaker?_charge, if_pos rfl])

/-- The calls of a breaker for the failures in some entries. -/
def charges (entries : List (Nat × Record)) : List Breaker.Event := entries.map fun x => ⟨.failure, x.1⟩

/-- The fallback succeeded. -/
def Recovers (steps : List (Step α)) : Prop := ∃ record v, .fallback record (.ok v) ∈ steps

/-- What the steps of a run leave in the books. -/
structure Booked (instant : Nat) (category : Category) (context : Context) (steps : List (Step α))
    (e : Execution α) (added : List (Nat × Record)) (h h' : Handler) : Prop where
  window : Extends instant h h' added
  tells : List.Forall₂ (Tells context) (steps.filterMap Step.failed?) added
  recovered : Recovers steps → ∃ front last, added = front ++ [last] ∧ last.2.resolved = true ∧
    ∀ entry ∈ front, entry.2.resolved = false
  unrecovered : ¬Recovers steps → ∀ entry ∈ added, entry.2.resolved = false
  charged : ∃ rest, h'.breaker category = (charges added ++ rest).foldl Breaker.step (h.breaker category) ∧
    ((∃ v attempts, e = .retried v attempts) → ∃ time, rest = [⟨.success, time⟩]) ∧
    ((∀ v attempts, e ≠ .retried v attempts) → rest = [])

/-- A failed attempt that comes first. -/
theorem Booked.cons {instant time : Nat} {added : List (Nat × Record)} {before : Handler}
    (entered : Entered instant category { context with retryCount := k } failure record time h h')
    (booked : Booked instant category context steps e added h' h'') :
    Booked instant category context (.attempt k before (.error failure) n :: steps) e ((time, record) :: added)
      h h'' := by
  have recovers : Recovers (.attempt k before (.error failure) n :: steps) ↔ Recovers steps := by
    simp [Recovers]
  refine ⟨entered.window.trans booked.window, ?_, fun yes => ?_, fun no => ?_, ?_⟩
  · exact .cons ⟨entered.tells.category, entered.tells.message, entered.tells.context⟩ booked.tells
  · obtain ⟨front, last, rfl, resolved, others⟩ := booked.recovered (recovers.mp yes)
    refine ⟨(time, record) :: front, last, rfl, resolved, fun entry member => ?_⟩
    rcases List.mem_cons.mp member with rfl | later
    · exact entered.unresolved
    · exact others entry later
  · intro entry member
    rcases List.mem_cons.mp member with rfl | later
    · exact entered.unresolved
    · exact booked.unrecovered (fun yes => no (recovers.mpr yes)) entry later
  · obtain ⟨rest, same, retried, unretried⟩ := booked.charged
    refine ⟨rest, ?_, retried, unretried⟩
    rw [same, entered.charged]
    rfl

/-- Nothing more is done. -/
theorem Booked.stop {instant : Nat} (unretried : ∀ v attempts, e ≠ .retried v attempts) :
    Booked instant category context [] e [] h h where
  window := ⟨[], h.window, rfl, (List.append_nil _).symm, by simp, by simp⟩
  tells := .nil
  recovered yes := by simp [Recovers] at yes
  unrecovered := by simp
  charged := ⟨[], rfl, fun ⟨v, attempts, same⟩ => absurd same (unretried v attempts), fun _ => rfl⟩

/-- The fallback fails. -/
theorem Booked.lost {instant time : Nat} {origin : Record}
    (entered : Entered instant category { context with retryCount := k } failure record time h h')
    (attempt : origin.context.retryCount = k) (unretried : ∀ v attempts, e ≠ .retried v attempts) :
    Booked instant category context [.fallback origin (.error failure)] e [(time, record)] h h' where
  window := entered.window
  tells := by
    subst attempt
    exact .cons ⟨entered.tells.category, entered.tells.message, entered.tells.context⟩ .nil
  recovered yes := by simp [Recovers] at yes
  unrecovered _ := by simpa using entered.unresolved
  charged := ⟨[], entered.charged, fun ⟨v, attempts, same⟩ => absurd same (unretried v attempts), fun _ => rfl⟩

/-- The fallback succeeds after a failed attempt. -/
theorem Booked.recovered_of {instant time : Nat} {before : Handler} {v : α} (numbered : h.Numbered)
    (entered : Entered instant category { context with retryCount := k } failure record time h h') :
    Booked instant category context [.attempt k before (.error failure) n, .fallback record (.ok v)]
      (.recovered v { record with resolved := true }) [(time, { record with resolved := true })] h
      (h'.resolve record.number) where
  window := resolve_extends numbered entered.fresh entered.window
  tells := .cons ⟨entered.tells.category, entered.tells.message, entered.tells.context⟩ .nil
  recovered _ := ⟨[], _, rfl, rfl, by simp⟩
  unrecovered no := absurd ⟨record, v, by simp⟩ no
  charged := ⟨[], entered.charged, by simp, fun _ => rfl⟩

/-- The last attempt, which fails, and what is done after it. -/
theorem Ending.booked {between : Handler} {time : Nat} {l : Machine}
    (entered : Entered origin.clock category { context with retryCount := k } failure record time h between)
    (ending : Ending category { context with retryCount := k } fallback failure record between t m steps e h'
      u n) (numbered : h.Numbered) (hint : context.categoryHint = some category) (start : origin.Leads m)
    (monotone : origin.environment.Monotone) (short : n.clock ≤ origin.clock + h.windowLength) :
    ∃ added, Booked origin.clock category context (.attempt k h (.error failure) l :: steps) e added h h' := by
  have unretried := ending.law.unretried
  cases ending with
  | opened | final | helpless => exact ⟨_, .cons entered (.stop unretried)⟩
  | recovered => exact ⟨_, .recovered_of numbered entered⟩
  | lost _ _ ran handled =>
    have short : n.clock ≤ origin.clock + between.windowLength := by
      rwa [windowLength, entered.config]
    obtain ⟨time', entered'⟩ := handle_entered handled hint (start.trans (leads_of_run ran)) monotone short
    exact ⟨_, .cons entered (.lost entered' (congrArg Context.retryCount entered.tells.context) unretried)⟩

/-- A run leaves in the books what its steps do. -/
theorem Course.booked (course : Course category context operation fallback k h t m steps e h' u n)
    (numbered : h.Numbered) (hint : context.categoryHint = some category) (start : origin.Leads m)
    (monotone : origin.environment.Monotone) (short : n.clock ≤ origin.clock + h.windowLength) :
    ∃ added, Booked origin.clock category context steps e added h h' := by
  induction course with
  | @success k h _ _ m n v ran =>
    refine ⟨[], ⟨[], h.window, rfl, (List.append_nil _).symm, by simp, by simp⟩, .nil, ?_, by simp, ?_⟩
    · rintro ⟨record, v, member⟩
      cases List.mem_singleton.mp member
    · refine ⟨[⟨.success, n.clock⟩], ?_, fun _ => ⟨_, rfl⟩, fun other => absurd rfl (other v (k + 1))⟩
      exact breaker_of_breaker? (by rw [breaker?_recordSuccess, if_pos rfl]; rfl)
  | ended failed handled ending =>
    have before := start.trans (leads_of_run failed)
    have handling := before.trans (leads_of_run handled)
    have early := ending.leads.clock (handling.monotone monotone)
    obtain ⟨time, entered⟩ := handle_entered handled hint before monotone (Nat.le_trans early short)
    exact ending.booked entered numbered hint handling monotone short
  | again failed handled _ _ waited later ih =>
    have before := start.trans (leads_of_run failed)
    have handling := before.trans (leads_of_run handled)
    have waiting := handling.trans (leads_of_run waited)
    have early := ((leads_of_run waited).trans later.leads).clock (handling.monotone monotone)
    obtain ⟨time, entered⟩ := handle_entered handled hint before monotone (Nat.le_trans early short)
    obtain ⟨added, booked⟩ := ih (numbered.handle handled) waiting (by rwa [windowLength, entered.config])
    exact ⟨_, .cons entered booked⟩

/-! ### Numbers of records -/

theorem Ending.numbered (ending : Ending category context fallback failure record h t m steps e h' u n)
    (numbered : h.Numbered) : h'.Numbered := by
  cases ending with
  | opened | final | helpless => exact numbered
  | recovered => exact numbered.resolve _
  | lost _ _ _ handled => exact numbered.handle handled

theorem Course.numbered (course : Course category context operation fallback k h t m steps e h' u n)
    (numbered : h.Numbered) : h'.Numbered := by
  induction course with
  | success => exact numbered
  | ended _ handled ending => exact ending.numbered (numbered.handle handled)
  | again _ handled _ _ _ _ ih => exact ih (numbered.handle handled)

theorem Numbered.acquire {now : Nat} (numbered : h.Numbered) : (h.acquire category now).2.Numbered := by
  intro entry member
  rw [made_acquire]
  exact numbered entry member

theorem Reached.numbered {config : Config} (reached : Reached config h) : h.Numbered := by
  induction reached with
  | new =>
    intro entry member
    cases member
  | handled _ ran ih => exact ih.handle ran
  | @shown h _ m _ _ _ ran ih =>
    have left : h.prune m.clock = _ := congrArg (fun r => r.1.2) ran
    dsimp only at left
    rw [← left]
    exact fun entry member => ih entry ((List.dropWhile_sublist _).subset member)
  | executed _ ran ih =>
    obtain ⟨steps, executed⟩ := executed_of_run ran
    cases executed with
    | refused _ entered =>
      have after := congrArg Prod.snd entered
      dsimp only at after
      rw [← after]
      exact ih.acquire.enter
    | admitted _ course => exact course.numbered ih.acquire

/-! ### The law -/

/-- What a run within one window of time leaves in the books. -/
structure Accounts (category : Category) (context : Context) (steps : List (Step α)) (e : Execution α)
    (added : List (Nat × Record)) (start : Nat) (h h' : Handler) : Prop where
  /-- The window only grew by the entries of the run, and may have lost its oldest ones. -/
  window : ∃ kept, kept <:+ h.window ∧ h'.window = kept ++ added
  /-- There is one entry for every failed step. -/
  tells : steps ≠ [] → List.Forall₂ (Tells { context with categoryHint := some category })
    (steps.filterMap Step.failed?) added
  /-- There is one entry for a refusal. -/
  refused : steps = [] → ∃ entry, added = [entry] ∧
    Tells { context with categoryHint := some category } (context.retryCount, .circuitOpen category) entry
  /-- The breaker of the category is asked once and charged for every failed step. -/
  charged : steps ≠ [] → ∃ rest, h'.breaker category =
      (⟨.acquire, start⟩ :: charges added ++ rest).foldl Breaker.step (h.breaker category) ∧
    ((∃ v attempts, e = .retried v attempts) → ∃ time, rest = [⟨.success, time⟩]) ∧
    ((∀ v attempts, e ≠ .retried v attempts) → rest = [])
  /-- A refusal is not charged. -/
  uncharged : steps = [] → h'.breaker category = h.breaker category
  others : ∀ other ≠ category, h'.breaker? other = h.breaker? other
  /-- The record of the last failed attempt is resolved by a fallback that succeeds, and no other is. -/
  recovered : Recovers steps → ∃ front last, added = front ++ [last] ∧ last.2.resolved = true ∧
    ∀ entry ∈ front, entry.2.resolved = false
  unrecovered : ¬Recovers steps → ∀ entry ∈ added, entry.2.resolved = false

/-- A run within one window of time keeps its accounts, whatever its failures are. -/
theorem execute_accounts {config : Config} (reached : Reached config h) (category : Category)
    (context : Context) (operation : Nat → Work σ α) (fallback : Option (Record → Work σ α)) (t : σ)
    (m : Machine) (monotone : m.environment.Monotone) :
    ∃ steps e h' u n, ((h.execute category context operation fallback).run t).run m = (((e, h'), u), n) ∧
      Executed h category context operation fallback t m steps e h' u n ∧
      (n.clock ≤ m.clock + h.windowLength →
        ∃ added, Accounts category context steps e added m.clock h h') := by
  rcases ran : ((h.execute category context operation fallback).run t).run m with ⟨⟨⟨e, h'⟩, u⟩, n⟩
  obtain ⟨steps, executed⟩ := executed_of_run ran
  refine ⟨steps, e, h', u, n, rfl, executed, fun short => ?_⟩
  have confined := executed.confined (reached.settled category)
  cases executed with
  | refused refused entered =>
    have asked := Machine.leads_perform m .now
    have late := asked.clock monotone
    have early := (Machine.leads_perform (m.perform .now).2 .now).clock (asked.monotone monotone)
    have window := @enter_extends (h.acquire category m.clock).2 category
      { context with categoryHint := some category } (.circuitOpen category) .abort m.clock
      (m.perform .now).2.clock late (by exact Nat.le_trans early short)
    obtain ⟨_, same⟩ := acquire_refused refused (reached.settled category)
    have made := congrArg Prod.fst entered
    have after := congrArg Prod.snd entered
    dsimp only at made after
    rw [after] at window
    obtain ⟨dropped, kept, parted, joined, _, _⟩ := window
    refine ⟨_, ⟨kept, ⟨dropped, parted.symm⟩, joined⟩, fun some => absurd rfl some,
      fun _ => ⟨_, rfl, rfl, rfl, rfl⟩, fun some => absurd rfl some, fun _ => ?_, confined.others, ?_, ?_⟩
    · rw [← after]
      refine breaker_of_breaker? ?_
      rw [breaker?_enter, breaker?_acquire, if_pos rfl, same]
    · rintro ⟨record, v, member⟩
      cases member
    · rintro _ entry member
      cases List.mem_singleton.mp member
      rfl
  | admitted admitted course =>
    have asked := Machine.leads_perform m .now
    obtain ⟨added, booked⟩ := course.booked reached.numbered rfl asked monotone short
    obtain ⟨dropped, kept, parted, joined, _, _⟩ := booked.window
    obtain ⟨rest, same, retried, unretried⟩ := booked.charged
    obtain ⟨step, last, _⟩ := course.last
    have some : steps ≠ [] := by
      rintro rfl
      cases last
    refine ⟨added, ⟨kept, ⟨dropped, parted.symm⟩, joined⟩, fun _ => booked.tells, fun none => absurd none some,
      fun _ => ⟨rest, ?_, retried, unretried⟩, fun none => absurd none some, confined.others,
      booked.recovered, booked.unrecovered⟩
    rw [same, breaker_of_breaker? (h := (h.acquire category m.clock).2)
      (by rw [breaker?_acquire, if_pos rfl])]
    rfl

/-- Fails first in the way of a network, and then for want of space. -/
def failing (attempt : Nat) : Work Unit Nat :=
  let r : Except Failure Nat := .error (.circuitOpen (if attempt = 0 then .network else .capacity))
  (pure r : StateT Unit Program (Except Failure Nat))

def rescue (_ : Record) : Work Unit Nat :=
  let r : Except Failure Nat := .ok 7
  (pure r : StateT Unit Program (Except Failure Nat))

theorem execute_accounts_rescued :
    Reached {} chargedHandler ∧ idleMachine.environment.Monotone ∧
    ∃ steps e h' u n, ((chargedHandler.execute .io { operation := "read" } failing (some rescue)).run ()).run
        idleMachine = (((e, h'), u), n) ∧
      Executed chargedHandler .io { operation := "read" } failing (some rescue) () idleMachine steps e h' u n ∧
      n.clock ≤ idleMachine.clock + chargedHandler.windowLength ∧
      ∃ added, Accounts .io { operation := "read" } steps e added idleMachine.clock chargedHandler h' := by
  have reached : Reached {} chargedHandler := .handled .new rfl
  have monotone : idleMachine.environment.Monotone := fun _ _ _ => Nat.le_refl 0
  obtain ⟨steps, e, h', u, n, ran, executed, books⟩ :=
    execute_accounts reached .io { operation := "read" } failing (some rescue) () idleMachine monotone
  have short : (((chargedHandler.execute .io { operation := "read" } failing (some rescue)).run ()).run
      idleMachine).2.clock ≤ idleMachine.clock + chargedHandler.windowLength := by
    decide +kernel
  rw [ran] at short
  exact ⟨reached, monotone, steps, e, h', u, n, ran, executed, short, books short⟩

-- The window then holds the record from before and two of the run, the last one resolved.
example : (((chargedHandler.execute .io { operation := "read" } failing (some rescue)).run ()).run
    idleMachine).1.1.2.window.map (fun x => (x.2.category, x.2.context.retryCount, x.2.resolved)) =
      [(.io, 0, false), (.network, 0, false), (.capacity, 1, true)] := by
  decide +kernel

end SourceRepair.Recovery.Handler
