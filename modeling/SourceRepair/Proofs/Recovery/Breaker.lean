import SourceRepair.Recovery.Breaker

/-!
# The law of a breaker

What a breaker does with a call depends on all calls before it: on the failures since it last closed
and on the instant of its last opening. `Watched` keeps both beside the breaker, and
`Breaker.law_of_calls` says what each call does in terms of them.
-/

namespace SourceRepair.Recovery.Breaker

inductive Action where
  | acquire | success | failure
deriving DecidableEq, Repr

/-- A call of a breaker at an instant. -/
structure Event where
  action : Action
  time : Nat
deriving DecidableEq, Repr

def step (b : Breaker) (e : Event) : Breaker :=
  match e.action with
  | .acquire => (b.tryAcquire e.time).2
  | .success => b.recordSuccess e.time
  | .failure => b.recordFailure e.time

/-- A breaker with its history, as far as the law speaks of it. -/
structure Watched where
  breaker : Breaker
  /-- The instants of all failures since the breaker was made or last closed, oldest first. -/
  recorded : List Nat := []
  /-- The instant of the last opening. -/
  opening : Option Nat := none

/-- The history after a call that left the breaker `next`. -/
def Watched.after (w : Watched) (e : Event) (next : Breaker) : Watched where
  breaker := next
  recorded :=
    if w.breaker.state ≠ .closed ∧ next.state = .closed then []
    else if e.action = .failure then w.recorded ++ [e.time] else w.recorded
  opening := if w.breaker.state ≠ .opened ∧ next.state = .opened then some e.time else w.opening

def Watched.step (w : Watched) (e : Event) : Watched := w.after e (w.breaker.step e)

theorem Watched.after_eq {w : Watched} {e : Event} {next : Breaker}
    (unclosed : next.state = .closed → w.breaker.state = .closed)
    (unopened : next.state = .opened → w.breaker.state = .opened) :
    w.after e next =
      ⟨next, if e.action = .failure then w.recorded ++ [e.time] else w.recorded, w.opening⟩ := by
  have no : ¬(w.breaker.state ≠ .closed ∧ next.state = .closed) := fun h => h.1 (unclosed h.2)
  have no' : ¬(w.breaker.state ≠ .opened ∧ next.state = .opened) := fun h => h.1 (unopened h.2)
  simp only [Watched.after, if_neg no, if_neg no']

/-- The state after some calls of a new breaker. -/
def watch (b : Breaker) (calls : List Event) : Watched := calls.foldl Watched.step ⟨b, [], none⟩

/-- The instants that lie in the window that ends now. -/
def inWindow (window now : Nat) (times : List Nat) : List Nat := times.filter (now ≤ · + window)

/-! ### The window -/

/-- In order of time, the failures before the window are the first ones. -/
theorem dropWhile_eq_inWindow {window now : Nat} {times : List Nat} (sorted : times.Pairwise (· ≤ ·)) :
    times.dropWhile (fun t => window < now - t) = inWindow window now times := by
  induction times with
  | nil => rfl
  | cons t rest ih =>
    obtain ⟨first, sorted⟩ := List.pairwise_cons.mp sorted
    by_cases old : window < now - t
    · have outside : ¬now ≤ t + window := by omega
      rw [List.dropWhile_cons_of_pos (by simpa using old), ih sorted, inWindow, inWindow,
        List.filter_cons_of_neg (by simpa using outside)]
    · have inside : ∀ x ∈ t :: rest, now ≤ x + window := by
        intro x member
        rcases List.mem_cons.mp member with rfl | later
        · omega
        · have := first x later
          omega
      rw [List.dropWhile_cons_of_neg (by simpa using old), inWindow,
        List.filter_eq_self.mpr (by simpa using inside)]

theorem inWindow_inWindow {window p now : Nat} (le : p ≤ now) (times : List Nat) :
    inWindow window now (inWindow window p times) = inWindow window now times := by
  rw [inWindow, inWindow, List.filter_filter]
  apply List.filter_congr
  intro t _
  simp only [← Bool.decide_and, decide_eq_decide]
  omega

theorem inWindow_concat (window now : Nat) (times : List Nat) :
    inWindow window now (times ++ [now]) = inWindow window now times ++ [now] := by
  simp [inWindow]

theorem sorted_inWindow {window now : Nat} {times : List Nat} (sorted : times.Pairwise (· ≤ ·)) :
    (inWindow window now times).Pairwise (· ≤ ·) := sorted.filter _

/-! ### What a call can do -/

/-- A breaker with one more failure. -/
def charge (b : Breaker) (now : Nat) : Breaker :=
  { b with failures := b.failures ++ [now] }.prune now

/-- What a call makes of a breaker that is half-open only while a trial runs. -/
inductive Turn (b : Breaker) (now : Nat) : Action → Breaker → Prop
  | stay (still : b.state = .opened → b.cooled now = false) : Turn b now .acquire b
  | trial (opened : b.state = .opened) (cooled : b.cooled now = true) :
      Turn b now .acquire { b with state := .halfOpen, trialInFlight := true }
  | close (trial : b.state = .halfOpen) :
      Turn b now .success
        { b.prune now with state := .closed, openedAt := none, failures := [], trialInFlight := false }
  | forget (other : b.state ≠ .halfOpen) :
      Turn b now .success { b.prune now with trialInFlight := false }
  | trip (due : b.state = .closed → b.threshold ≤ (b.charge now).failures.length)
      (unopened : b.state ≠ .opened) : Turn b now .failure ((b.charge now).trip now)
  | charge (spared : b.state = .closed → (b.charge now).failures.length < b.threshold)
      (other : b.state ≠ .halfOpen) : Turn b now .failure (b.charge now)

theorem turn_of_step {b : Breaker} (trial : b.state = .halfOpen → b.trialInFlight = true)
    (action : Action) (now : Nat) : Turn b now action (b.step ⟨action, now⟩) := by
  cases action with
  | acquire =>
    simp only [Breaker.step, tryAcquire]
    split
    · rename_i closed
      exact .stay fun opened => absurd (closed.symm.trans opened) (by decide)
    · rename_i opened
      split
      · exact .trial opened ‹_›
      · rename_i warm
        exact .stay fun _ => by simpa using warm
    · rename_i half
      rw [if_pos (trial half)]
      exact .stay fun opened => absurd (half.symm.trans opened) (by decide)
  | success =>
    simp only [Breaker.step, recordSuccess]
    split
    · exact .close ‹_›
    · exact .forget ‹_›
  | failure =>
    simp only [Breaker.step, recordFailure]
    split
    · rename_i half
      exact .trip (fun closed => absurd (half.symm.trans closed) (by decide)) (by simp [half])
    · rename_i closed
      split
      · exact .trip (fun _ => ‹_›) (by simp [closed])
      · exact .charge (fun _ => Nat.not_le.mp ‹_›) (by simp [closed])
    · rename_i opened
      exact .charge (fun closed => absurd (opened.symm.trans closed) (by decide)) (by simp [opened])

/-! ### Reachable states -/

/-- What holds of every breaker that calls can lead to. -/
structure Sound (b : Breaker) : Prop where
  trial : b.state = .halfOpen ↔ b.trialInFlight = true
  opened : b.openedAt.isSome ↔ b.state ≠ .closed
  few : b.state = .closed → b.failures.length < b.threshold
  positive : 0 < b.threshold

theorem length_prune_le (b : Breaker) (now : Nat) : (b.prune now).failures.length ≤ b.failures.length :=
  (List.dropWhile_sublist _).length_le

theorem Sound.turn {b next : Breaker} {now : Nat} {action : Action} (sound : Sound b)
    (turn : Turn b now action next) : Sound next := by
  have less := length_prune_le b now
  obtain ⟨trial, opened, few, positive⟩ := sound
  cases turn with
  | stay => exact ⟨trial, opened, few, positive⟩
  | trial was _ => exact ⟨by simp, by simpa [was] using opened, by simp, positive⟩
  | close => exact ⟨by simp, by simp, fun _ => positive, positive⟩
  | forget other =>
    exact ⟨by simpa [prune] using other, opened, fun closed => Nat.lt_of_le_of_lt less (few closed), positive⟩
  | trip => exact ⟨by simp [Breaker.trip], by simp [Breaker.trip], by simp [Breaker.trip], positive⟩
  | charge spared _ => exact ⟨trial, opened, spared, positive⟩

/-- How a breaker hangs together with its history at an instant. It has forgotten only failures that
had left the window at some instant before. -/
structure Consistent (threshold recoveryTimeout window : Nat) (w : Watched) (now : Nat) : Prop where
  sound : Sound w.breaker
  threshold_eq : w.breaker.threshold = max threshold 1
  timeout_eq : w.breaker.recoveryTimeout = recoveryTimeout
  window_eq : w.breaker.window = window
  sorted : w.recorded.Pairwise (· ≤ ·)
  past : ∀ t ∈ w.recorded, t ≤ now
  kept : ∃ pruned ≤ now, w.breaker.failures = inWindow window pruned w.recorded
  opening : w.breaker.state ≠ .closed → w.breaker.openedAt = w.opening
  opening_past : ∀ t ∈ w.opening, t ≤ now

variable {threshold recoveryTimeout window now time : Nat} {w : Watched} {action : Action} {next : Breaker}

theorem consistent_fresh (category : Category) (threshold recoveryTimeout window : Nat) :
    Consistent threshold recoveryTimeout window
      ⟨fresh category threshold recoveryTimeout window, [], none⟩ 0 where
  sound := ⟨by simp [fresh], by simp [fresh], by simp [fresh] <;> omega, by simp [fresh] <;> omega⟩
  threshold_eq := rfl
  timeout_eq := rfl
  window_eq := rfl
  sorted := .nil
  past := by simp
  kept := ⟨0, Nat.le_refl 0, rfl⟩
  opening := by simp [fresh]
  opening_past := by simp

namespace Consistent

variable (c : Consistent threshold recoveryTimeout window w now) (later : now ≤ time)

include c later

/-- The failures that a breaker keeps when it forgets those before the window. -/
theorem pruned : (w.breaker.prune time).failures = inWindow window time w.recorded := by
  obtain ⟨p, before, kept⟩ := c.kept
  rw [prune, c.window_eq, kept, dropWhile_eq_inWindow (sorted_inWindow c.sorted),
    inWindow_inWindow (Nat.le_trans before later)]

theorem sorted_concat : (w.recorded ++ [time]).Pairwise (· ≤ ·) := by
  refine List.pairwise_append.mpr ⟨c.sorted, List.pairwise_singleton _ _, ?_⟩
  intro t member x single
  have := c.past t member
  rw [List.mem_singleton.mp single]
  omega

/-- The same after one more failure. -/
theorem charged : (w.breaker.charge time).failures = inWindow window time (w.recorded ++ [time]) := by
  obtain ⟨p, before, kept⟩ := c.kept
  have sorted : (w.breaker.failures ++ [time]).Pairwise (· ≤ ·) := by
    rw [kept]
    exact (c.sorted_concat later).sublist (List.filter_sublist.append (.refl _))
  rw [charge, prune, c.window_eq, dropWhile_eq_inWindow sorted, inWindow_concat, inWindow_concat, kept,
    inWindow_inWindow (Nat.le_trans before later)]

/-- A call keeps the breaker and its history together. -/
theorem turn (turn : Turn w.breaker time action next) :
    Consistent threshold recoveryTimeout window (w.after ⟨action, time⟩ next) time := by
  have sound := c.sound.turn turn
  have pruned := c.pruned later
  have charged := c.charged later
  have sorted := c.sorted_concat later
  obtain ⟨_, threshold_eq, timeout_eq, window_eq, sorted', past, ⟨p, before, kept⟩, opening, opening_past⟩ := c
  have past' : ∀ t ∈ w.recorded, t ≤ time := fun t member => Nat.le_trans (past t member) later
  have opening_past' : ∀ t ∈ w.opening, t ≤ time := fun t member =>
    Nat.le_trans (opening_past t member) later
  have past'' : ∀ t ∈ w.recorded ++ [time], t ≤ time := by
    intro t member
    rcases List.mem_append.mp member with old | new
    · exact past' t old
    · exact Nat.le_of_eq (List.mem_singleton.mp new)
  cases turn with
  | stay =>
    rw [Watched.after_eq id id]
    exact ⟨sound, threshold_eq, timeout_eq, window_eq, sorted', past', ⟨p, by omega, kept⟩, opening,
      opening_past'⟩
  | trial was _ =>
    rw [Watched.after_eq (by simp) (by simp)]
    exact ⟨sound, threshold_eq, timeout_eq, window_eq, sorted', past', ⟨p, by omega, kept⟩,
      fun _ => opening (by simp [was]), opening_past'⟩
  | close half =>
    have after : w.after ⟨.success, time⟩ { w.breaker.prune time with
        state := .closed, openedAt := none, failures := [], trialInFlight := false } =
          ⟨{ w.breaker.prune time with
            state := .closed, openedAt := none, failures := [], trialInFlight := false }, [], w.opening⟩ := by
      simp [Watched.after, half]
    rw [after]
    exact ⟨sound, threshold_eq, timeout_eq, window_eq, .nil, by simp, ⟨p, by omega, rfl⟩, by simp,
      opening_past'⟩
  | forget =>
    rw [Watched.after_eq (by exact id) (by exact id)]
    exact ⟨sound, threshold_eq, timeout_eq, window_eq, sorted', past', ⟨time, Nat.le_refl _, pruned⟩,
      opening, opening_past'⟩
  | trip _ unopened =>
    have after : w.after ⟨.failure, time⟩ ((w.breaker.charge time).trip time) =
        ⟨(w.breaker.charge time).trip time, w.recorded ++ [time], some time⟩ := by
      simp [Watched.after, Breaker.trip, unopened]
    rw [after]
    exact ⟨sound, threshold_eq, timeout_eq, window_eq, sorted, past'', ⟨time, Nat.le_refl _, charged⟩,
      fun _ => rfl, by simp⟩
  | charge =>
    rw [Watched.after_eq (by exact id) (by exact id)]
    exact ⟨sound, threshold_eq, timeout_eq, window_eq, sorted, past'', ⟨time, Nat.le_refl _, charged⟩,
      opening, opening_past'⟩

omit later in
/-- So do all calls, in order of time. -/
theorem foldl {calls : List Event} (ordered : calls.Pairwise (·.time ≤ ·.time))
    (after : ∀ e ∈ calls, now ≤ e.time) (before : ∀ e ∈ calls, e.time ≤ time) (le : now ≤ time) :
    ∃ last ≤ time, Consistent threshold recoveryTimeout window (calls.foldl Watched.step w) last := by
  induction calls generalizing w now with
  | nil => exact ⟨now, le, c⟩
  | cons e rest ih =>
    obtain ⟨first, ordered⟩ := List.pairwise_cons.mp ordered
    have turn := turn_of_step c.sound.trial.mp e.action e.time
    exact ih (c.turn (after e (by simp)) turn) ordered first
      (fun x member => before x (List.mem_cons_of_mem _ member)) (before e (by simp))

end Consistent

/-! ### The law -/

/-- What a call does to a breaker with its history. -/
structure Lawful (threshold recoveryTimeout window : Nat) (w : Watched) (e : Event) : Prop where
  /-- A closed breaker admits every call, and opens exactly at a failure that is one too many. -/
  closed : w.breaker.state = .closed →
    (w.breaker.tryAcquire e.time).1 = true ∧
    ((w.breaker.step e).state = .opened ↔ e.action = .failure ∧
      max threshold 1 ≤ (inWindow window e.time (w.recorded ++ [e.time])).length) ∧
    ((w.breaker.step e).state = .opened ∨ (w.breaker.step e).state = .closed)
  /-- An open breaker refuses calls until its time is over, and takes the next call for a trial. -/
  opened : w.breaker.state = .opened → ∃ opening, w.opening = some opening ∧
    ((w.breaker.tryAcquire e.time).1 = true ↔ opening + recoveryTimeout ≤ e.time) ∧
    ((w.breaker.step e).state = .halfOpen ↔ e.action = .acquire ∧ opening + recoveryTimeout ≤ e.time) ∧
    ((w.breaker.step e).state = .halfOpen ∨ (w.breaker.step e).state = .opened)
  /-- A half-open breaker refuses calls until an outcome closes or opens it. -/
  halfOpen : w.breaker.state = .halfOpen →
    (w.breaker.tryAcquire e.time).1 = false ∧
    (e.action = .acquire → (w.breaker.step e).state = .halfOpen) ∧
    (e.action = .success → (w.breaker.step e).state = .closed ∧ (w.breaker.step e).failures = []) ∧
    (e.action = .failure → (w.breaker.step e).state = .opened ∧
      (w.breaker.step e).openedAt = some e.time ∧ (w.step e).opening = some e.time)

theorem step_opened (opened : w.breaker.state = .opened) (turn : Turn w.breaker time action next) :
    (next.state = .halfOpen ↔ action = .acquire ∧ w.breaker.cooled time = true) ∧
    (next.state = .halfOpen ∨ next.state = .opened) := by
  cases turn with
  | stay still => simp [opened, still opened]
  | trial _ cooled => simp [cooled]
  | close half => simp [opened] at half
  | forget => simp [prune, opened]
  | trip _ unopened => exact absurd opened unopened
  | charge => simp [charge, prune, opened]

theorem step_halfOpen (half : w.breaker.state = .halfOpen) (turn : Turn w.breaker time action next) :
    (action = .acquire → next.state = .halfOpen) ∧
    (action = .success → next.state = .closed ∧ next.failures = []) ∧
    (action = .failure → next.state = .opened ∧ next.openedAt = some time ∧
      (w.after ⟨action, time⟩ next).opening = some time) := by
  cases turn with
  | stay => simp [half]
  | trial opened => simp [half] at opened
  | close => simp
  | forget other => exact absurd half other
  | trip => simp [Breaker.trip, Watched.after, half]
  | charge _ other => exact absurd half other

namespace Consistent

variable (c : Consistent threshold recoveryTimeout window w now)

include c

theorem step_closed (later : now ≤ time) (closed : w.breaker.state = .closed)
    (turn : Turn w.breaker time action next) :
    (next.state = .opened ↔ action = .failure ∧
      max threshold 1 ≤ (inWindow window time (w.recorded ++ [time])).length) ∧
    (next.state = .opened ∨ next.state = .closed) := by
  have charged := c.charged later
  cases turn with
  | stay => simp [closed]
  | trial opened => simp [closed] at opened
  | close half => simp [closed] at half
  | forget => simp [prune, closed]
  | trip due =>
    have due := due closed
    rw [charged, c.threshold_eq] at due
    simp only [Breaker.trip, true_and, true_iff, true_or, and_true]
    exact due
  | charge spared =>
    have spared := spared closed
    rw [charged, c.threshold_eq] at spared
    simp only [charge, prune, closed, true_and, reduceCtorEq, false_iff, false_or, and_true]
    omega

/-- When an open breaker has cooled down. -/
theorem cooled_iff (later : now ≤ time) (opened : w.breaker.state = .opened) :
    ∃ opening, w.opening = some opening ∧
      (w.breaker.cooled time = true ↔ opening + recoveryTimeout ≤ time) := by
  have unclosed : w.breaker.state ≠ .closed := by simp [opened]
  obtain ⟨opening, since⟩ := Option.isSome_iff_exists.mp (c.sound.opened.mpr unclosed)
  have same := (c.opening unclosed).symm.trans since
  refine ⟨opening, same, ?_⟩
  have past := c.opening_past opening same
  rw [cooled, since, c.timeout_eq]
  simp only [Option.all_some, decide_eq_true_eq]
  omega

theorem lawful (later : now ≤ time) : Lawful threshold recoveryTimeout window w ⟨action, time⟩ where
  closed closed := by
    refine ⟨by simp [tryAcquire, closed], ?_⟩
    exact c.step_closed later closed (turn_of_step c.sound.trial.mp action time)
  opened opened := by
    obtain ⟨opening, since, cooled⟩ := c.cooled_iff later opened
    obtain ⟨trial, either⟩ := step_opened opened (turn_of_step c.sound.trial.mp action time)
    refine ⟨opening, since, ?_, ?_, either⟩
    · rw [← cooled, tryAcquire, opened]
      cases w.breaker.cooled time <;> simp
    · rw [trial, cooled]
  halfOpen half := by
    refine ⟨by simp [tryAcquire, half, c.sound.trial.mp half], ?_⟩
    exact step_halfOpen half (turn_of_step c.sound.trial.mp action time)

end Consistent

/-- Calls in order of time do to a new breaker what the law says, each in its turn, and leave it
sound. -/
theorem law_of_calls (category : Category) (threshold recoveryTimeout window : Nat) (calls : List Event)
    (e : Event) (ordered : (calls ++ [e]).Pairwise (·.time ≤ ·.time)) :
    let w := watch (fresh category threshold recoveryTimeout window) calls
    Lawful threshold recoveryTimeout window w e ∧
    ((w.breaker.state = .halfOpen ↔ w.breaker.trialInFlight = true) ∧
      (w.breaker.openedAt.isSome ↔ w.breaker.state ≠ .closed) ∧
      (w.breaker.state = .closed → w.breaker.failures.length < max threshold 1)) := by
  intro w
  obtain ⟨ordered, _, before⟩ := List.pairwise_append.mp ordered
  obtain ⟨last, le, c⟩ := (consistent_fresh category threshold recoveryTimeout window).foldl ordered
    (fun _ _ => Nat.zero_le _) (fun x member => before x member e (by simp)) (Nat.zero_le _)
  refine ⟨c.lawful le, c.sound.trial, c.sound.opened, fun closed => ?_⟩
  rw [← c.threshold_eq]
  exact c.sound.few closed

theorem law_of_calls_trial :
    let w := watch (fresh .io 2 10 5) [⟨.failure, 0⟩, ⟨.failure, 3⟩, ⟨.acquire, 13⟩]
    w.breaker.state = .halfOpen ∧ Lawful 2 10 5 w ⟨.success, 14⟩ :=
  ⟨by decide, (law_of_calls .io 2 10 5 _ _ (by decide)).1⟩

end SourceRepair.Recovery.Breaker

/-!
## Callers of one breaker

Callers ask a breaker for a call and later report its outcome, in any order. The breaker does not know
whose outcome it is told, so it takes the outcome of an older call for that of a trial,
`Callers.older_call_ends_trial`. A trial is the only one, and decides alone, if no call is left over when
it is admitted, `Callers.sole_trial`.
-/

namespace SourceRepair.Recovery

/-- A call that was admitted and has not reported yet. -/
structure Running where
  caller : Nat
  isTrial : Bool
deriving DecidableEq, Repr

structure Callers where
  breaker : Breaker
  running : List Running := []
deriving DecidableEq, Repr

namespace Callers

inductive Act where
  | ask (caller : Nat)
  | report (caller : Nat) (succeeded : Bool)
deriving DecidableEq, Repr

/-- A caller acts at an instant. It asks only while no call of it runs, and reports only if one does. -/
def next? (s : Callers) (now : Nat) : Act → Option Callers
  | .ask caller =>
    if s.running.any (·.caller == caller) then none
    else
      let next := (s.breaker.tryAcquire now).2
      if (s.breaker.tryAcquire now).1 then some ⟨next, ⟨caller, next.state == .halfOpen⟩ :: s.running⟩
      else some ⟨next, s.running⟩
  | .report caller succeeded =>
    (s.running.find? (·.caller == caller)).map fun call =>
      ⟨if succeeded then s.breaker.recordSuccess now else s.breaker.recordFailure now,
        s.running.erase call⟩

def trials (s : Callers) : List Running := s.running.filter (·.isTrial)

/-- Callers of a breaker act one after another, each at its instant. -/
def run (b : Breaker) (acts : List (Act × Nat)) : Option Callers :=
  acts.foldlM (fun s (act, now) => s.next? now act) ⟨b, []⟩

/-- Two trials run at once after the outcome of an older call has closed the breaker under the first. -/
theorem older_call_ends_trial :
    let first := [(Act.ask 0, 0), (.ask 1, 0), (.ask 2, 0), (.report 1 false, 1), (.ask 3, 20)]
    let second := [(Act.report 2 false, 22), (.ask 4, 40)]
    (run (.fresh .io 1 10 1000) first).any (fun s =>
      s.breaker.state = .halfOpen ∧ s.trials = [⟨3, true⟩]) ∧
    (run (.fresh .io 1 10 1000) (first ++ [(.report 0 true, 21)])).any (fun s =>
      s.breaker.state = .closed ∧ s.trials = [⟨3, true⟩]) ∧
    (run (.fresh .io 1 10 1000) (first ++ (.report 0 true, 21) :: second)).any (fun s =>
      s.trials = [⟨4, true⟩, ⟨3, true⟩]) := by
  decide

/-! ### Trials without calls left over -/

/-- Where callers of a breaker can get if no call runs when a trial is admitted. -/
inductive Reached (b : Breaker) : Callers → Prop
  | start : Reached b ⟨b, []⟩
  | next {s s' : Callers} {act : Act} {now : Nat} (reached : Reached b s) (next : s.next? now act = some s')
      (alone : s.breaker.state = .opened → s'.breaker.state = .halfOpen → s.running = []) : Reached b s'

/-- A half-open breaker has its trial as the only call, and no other breaker has any. -/
structure Orderly (s : Callers) : Prop where
  sound : s.breaker.Sound
  trial : s.breaker.state = .halfOpen → ∃ caller, s.running = [⟨caller, true⟩]
  none : s.breaker.state ≠ .halfOpen → s.trials = []

variable {b : Breaker} {s s' : Callers} {now caller : Nat} {succeeded : Bool}

theorem turn_of_ask (sound : s.breaker.Sound) (next : s.next? now (.ask caller) = some s') :
    s.breaker.Turn now .acquire s'.breaker ∧ s'.running =
      if (s.breaker.tryAcquire now).1 then ⟨caller, s'.breaker.state == .halfOpen⟩ :: s.running
      else s.running := by
  have turn := Breaker.turn_of_step sound.trial.mp .acquire now
  simp only [next?] at next
  split at next
  · cases next
  · split at next
    · rename_i admitted
      cases next
      exact ⟨turn, by rw [if_pos admitted]⟩
    · rename_i refused
      cases next
      exact ⟨turn, by rw [if_neg refused]⟩

theorem turn_of_report (sound : s.breaker.Sound) (next : s.next? now (.report caller succeeded) = some s') :
    s.breaker.Turn now (if succeeded then .success else .failure) s'.breaker ∧
      ∃ call ∈ s.running, call.caller = caller ∧ s'.running = s.running.erase call := by
  obtain ⟨call, found, rfl⟩ := Option.map_eq_some_iff.mp next
  refine ⟨?_, call, List.mem_of_find?_eq_some found, by simpa using List.find?_some found, rfl⟩
  cases succeeded with
  | true => exact Breaker.turn_of_step sound.trial.mp .success now
  | false => exact Breaker.turn_of_step sound.trial.mp .failure now

theorem Orderly.asked (orderly : Orderly s) (next : s.next? now (.ask caller) = some s')
    (alone : s.breaker.state = .opened → s'.breaker.state = .halfOpen → s.running = []) : Orderly s' := by
  obtain ⟨turn, running⟩ := turn_of_ask orderly.sound next
  refine ⟨orderly.sound.turn turn, fun half => ?_, fun other => ?_⟩
  · generalize s'.breaker = breaker at turn running alone half
    cases turn with
    | stay =>
      have refused : (s.breaker.tryAcquire now).1 = false := by
        simp [Breaker.tryAcquire, half, orderly.sound.trial.mp half]
      rw [running, refused]
      exact orderly.trial half
    | trial opened cooled =>
      have admitted : (s.breaker.tryAcquire now).1 = true := by simp [Breaker.tryAcquire, opened, cooled]
      rw [running, if_pos admitted, alone opened rfl]
      exact ⟨caller, rfl⟩
  · generalize s'.breaker = breaker at turn running other
    cases turn with
    | stay =>
      have none : (s.running.filter (·.isTrial)) = [] := orderly.none other
      rw [trials, running]
      split
      · rw [List.filter_cons_of_neg (by simp [other]), none]
      · exact none
    | trial => exact absurd rfl other

theorem Orderly.reported (orderly : Orderly s) (next : s.next? now (.report caller succeeded) = some s') :
    s'.breaker.state ≠ .halfOpen ∧ Orderly s' := by
  obtain ⟨turn, call, member, _, less⟩ := turn_of_report orderly.sound next
  have ended : s'.breaker.state ≠ .halfOpen := by
    generalize s'.breaker = breaker at turn
    cases succeeded with
    | true =>
      cases turn with
      | close => simp
      | forget other => exact other
    | false =>
      cases turn with
      | trip => simp [Breaker.trip]
      | charge _ other => exact other
  refine ⟨ended, orderly.sound.turn turn, fun half => absurd half ended, fun _ => ?_⟩
  by_cases half : s.breaker.state = .halfOpen
  · obtain ⟨trial, only⟩ := orderly.trial half
    rw [only, List.mem_singleton] at member
    rw [trials, less, only, member, List.erase_cons_head]
    rfl
  · have none := orderly.none half
    rw [trials, less]
    exact List.sublist_nil.mp (none ▸ (List.erase_sublist.filter _))

theorem Reached.orderly (sound : b.Sound) (closed : b.state = .closed) (reached : Reached b s) : Orderly s := by
  induction reached with
  | start => exact ⟨sound, fun half => absurd (closed.symm.trans half) (by decide), fun _ => rfl⟩
  | @next s s' act now _ next alone orderly =>
    cases act with
    | ask caller => exact orderly.asked next alone
    | report caller succeeded => exact (orderly.reported next).2

/-- If no call runs when a trial is admitted, at most one trial runs at a time, and only its own outcome
ends the half-open state. -/
theorem sole_trial (category : Category) (threshold recoveryTimeout window : Nat) (s : Callers)
    (reached : Reached (.fresh category threshold recoveryTimeout window) s) :
    s.trials.length ≤ 1 ∧
    ∀ act now s', s.next? now act = some s' → s.breaker.state = .halfOpen →
      s'.breaker.state ≠ .halfOpen →
      ∃ caller succeeded, act = .report caller succeeded ∧ s.running = [⟨caller, true⟩] := by
  have orderly := reached.orderly (Breaker.consistent_fresh category threshold recoveryTimeout window).sound rfl
  constructor
  · by_cases half : s.breaker.state = .halfOpen
    · obtain ⟨caller, only⟩ := orderly.trial half
      simp [trials, only]
    · simp [orderly.none half]
  · intro act now s' next half ended
    cases act with
    | ask caller =>
      obtain ⟨turn, _⟩ := turn_of_ask orderly.sound next
      generalize s'.breaker = breaker at turn ended
      cases turn with
      | stay => exact absurd half ended
      | trial => exact absurd rfl ended
    | report caller succeeded =>
      obtain ⟨_, call, member, same, _⟩ := turn_of_report orderly.sound next
      obtain ⟨trial, only⟩ := orderly.trial half
      rw [only, List.mem_singleton] at member
      subst member same
      exact ⟨_, succeeded, rfl, only⟩

/-- The trial after a single call, and its outcome. -/
theorem sole_trial_single :
    let s : Callers := ⟨{ Breaker.fresh .io 1 10 1000 with
      state := .halfOpen, openedAt := some 1, failures := [1], trialInFlight := true }, [⟨3, true⟩]⟩
    s.trials.length ≤ 1 ∧ ∀ act now s', s.next? now act = some s' → s'.breaker.state ≠ .halfOpen →
      ∃ caller succeeded, act = .report caller succeeded ∧ s.running = [⟨caller, true⟩] := by
  let b := Breaker.fresh .io 1 10 1000
  have asked : Reached b _ := @Reached.next b _ _ (.ask 1) 0 .start rfl (by decide)
  have failed : Reached b _ := @Reached.next b _ _ (.report 1 false) 1 asked rfl (by decide)
  have reached : Reached b _ := @Reached.next b _ _ (.ask 3) 20 failed rfl (by decide)
  obtain ⟨one, leaves⟩ := sole_trial .io 1 10 1000 _ reached
  exact ⟨one, fun act now s' next ended => leaves act now s' next rfl ended⟩

end Callers

end SourceRepair.Recovery
