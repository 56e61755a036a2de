import SourceRepair.Proofs.Disk.Moves
import SourceRepair.Recovery.Handler

/-!
# Running an operation under its plan

What holds of every attempt and of the fallback holds of the whole run, `Handler.execute_holds`. A run
after which no record was made is a run of the first attempt alone, `Handler.execute_of_made`.
-/

namespace SourceRepair.Recovery.Handler

open Disk (Program Machine Move Steady)
open Disk.Program (HoldsFrom holdsFrom_bind holdsFrom_lift holdsFrom_mono holdsFrom_pure)

/-! ### Records are only ever added -/

variable {h : Handler} {category : Category} {now : Nat}

@[simp] theorem made_setBreaker (b : Breaker) : (h.setBreaker b).made = h.made := rfl

@[simp] theorem made_acquire : (h.acquire category now).2.made = h.made := rfl

@[simp] theorem made_recordSuccess : (h.recordSuccess category now).made = h.made := rfl

@[simp] theorem made_charge : (h.charge category now).made = h.made := rfl

@[simp] theorem made_resolve (number : Nat) : (h.resolve number).made = h.made := rfl

@[simp] theorem made_enter {failure : Failure} {context : Context} {remedy : Remedy} :
    (h.enter failure context category remedy now).2.made = h.made + 1 := rfl

section

variable {I : Machine → Prop} {m n : Machine} {failure : Failure} {context : Context}

theorem remedyFor_holds (steady : Steady I) (inv : I n) {retryCount : Nat} :
    (h.remedyFor category retryCount).Holds I (fun _ k => n.Same k) n := by
  unfold remedyFor
  split
  · split
    · refine (Program.holds_quiet .sample steady trivial inv
        (Q := fun _ k => n.Same k) fun k files environment => ⟨files, environment⟩).bind ?_
      exact fun _ k inv same => .pure inv same
    · exact .pure inv (.refl n)
  · exact .pure inv (.refl n)

/-- Handling a failure makes one record and leaves the disk alone. -/
theorem handle_holds (steady : Steady I) (inv : I n) :
    (h.handle failure context).Holds I (fun r k => n.Same k ∧ r.2.made = h.made + 1) n := by
  refine (remedyFor_holds steady inv).bind fun remedy k inv same => ?_
  refine (Program.holds_quiet .now steady trivial inv (Q := fun _ j => k.Same j)
    fun j files environment => ⟨files, environment⟩).bind fun time j inv same' => ?_
  exact .pure inv ⟨same.trans same', rfl⟩

end

@[simp] theorem result_terminal {α : Type} {remedy : Remedy} {record : Record} {failure : Failure} :
    (Execution.terminal (α := α) remedy record failure).result = .error failure := by
  cases remedy <;> rfl

section

variable {α σ : Type} {I : Machine → Prop} {J : σ → Machine → Prop} {K : α → σ → Machine → Prop}
  {m n : Machine} {t : σ} {context : Context} {failure : Failure} {fallback : Option (Record → Work σ α)}

/-- Some work keeps `J`, and `K` holds of what it gives. -/
def Keeps (I : Machine → Prop) (J : σ → Machine → Prop) (K : α → σ → Machine → Prop) (x : Work σ α) :
    Prop :=
  ∀ t n, I n → J t n → HoldsFrom I (fun r u k => J u k ∧ ∀ v, r = .ok v → K v u k) x t n

/-- The same of a whole run, which also leaves at least so many records made. -/
def Ends (J : σ → Machine → Prop) (K : α → σ → Machine → Prop) (least : Nat)
    (r : Execution α × Handler) (u : σ) (k : Machine) : Prop :=
  J u k ∧ (∀ v, r.1.result = .ok v → K v u k) ∧ least ≤ r.2.made

theorem afterFailure_holds {h : Handler} (steady : Steady I) (steady' : ∀ t, Steady (J t))
    (detour : ∀ f ∈ fallback, ∀ record, Keeps I J K (f record))
    {again : Record → Handler → StateT σ Program (Execution α × Handler)}
    (later : ∀ record h t n, I n → J t n → HoldsFrom I (Ends J K h.made) (again record h) t n)
    (inv : I n) (kept : J t n) :
    HoldsFrom I (Ends J K (h.made + 1)) (h.afterFailure category context fallback failure again) t n := by
  have handled : ∀ (h : Handler) failure t n, I n → J t n →
      HoldsFrom I (fun r u k => J u k ∧ r.2.made = h.made + 1) (liftM (h.handle failure context)) t n :=
    fun h failure t n inv kept => holdsFrom_lift ((handle_holds steady inv).mono (fun _ i => i)
      fun r k _ post => ⟨steady' t n k post.1.1 post.1.2 kept, post.2⟩)
  refine holdsFrom_bind (handled h failure t n inv kept) ?_
  rintro ⟨record, h'⟩ t n inv ⟨kept, made⟩
  rw [← made]
  dsimp only
  split
  · split
    · exact holdsFrom_pure.mpr ⟨inv, kept, nofun, Nat.le_refl _⟩
    · refine holdsFrom_bind (Q := fun _ u k => J u k) (holdsFrom_lift (Program.holds_quiet (.random _)
        steady trivial inv fun k files environment => steady' t n k files environment kept)) ?_
      intro jitter t n inv kept
      refine holdsFrom_bind (Q := fun _ u k => J u k) (holdsFrom_lift (Program.holds_quiet (.pause _)
        steady trivial inv fun k files environment => steady' t n k files environment kept)) ?_
      exact fun _ t n inv kept => later record h' t n inv kept
  · split
    · exact holdsFrom_pure.mpr ⟨inv, kept, by simp, Nat.le_refl _⟩
    · rename_i run
      refine holdsFrom_bind (detour run rfl record t n inv kept) ?_
      rintro r t n inv ⟨kept, given⟩
      cases r with
      | ok value =>
        refine holdsFrom_pure.mpr ⟨inv, kept, fun v same => ?_, Nat.le_refl _⟩
        cases same
        exact given value rfl
      | error failure =>
        refine holdsFrom_bind (handled h' failure t n inv kept) ?_
        rintro ⟨record', h''⟩ t n inv ⟨kept, made'⟩
        exact holdsFrom_pure.mpr ⟨inv, kept, by simp, by dsimp only at made' ⊢; omega⟩
  · exact holdsFrom_pure.mpr ⟨inv, kept, by simp, Nat.le_refl _⟩

theorem Ends.le {least fewer : Nat} {r : Execution α × Handler} {k : Machine} (ends : Ends J K least r t k)
    (le : fewer ≤ least) : Ends J K fewer r t k := ⟨ends.1, ends.2.1, Nat.le_trans le ends.2.2⟩

theorem success_holds {h : Handler} {value : α} {attempt : Nat} (steady : Steady I)
    (steady' : ∀ t, Steady (J t)) (steady'' : ∀ v t, Steady (K v t)) (inv : I n) (kept : J t n)
    (given : K value t n) :
    HoldsFrom I (Ends J K h.made) (do
      let now ← Program.now
      return (.retried value attempt, h.recordSuccess category now)) t n := by
  refine holdsFrom_bind (Q := fun _ u k => J u k ∧ K value u k) (holdsFrom_lift
    (Program.holds_quiet .now steady trivial inv fun k files environment =>
      ⟨steady' t n k files environment kept, steady'' value t n k files environment given⟩)) ?_
  rintro now t n inv ⟨kept, given⟩
  refine holdsFrom_pure.mpr ⟨inv, kept, fun v same => ?_, Nat.le_refl _⟩
  cases same
  exact given

theorem attempts_holds {operation : Nat → Work σ α} (steady : Steady I) (steady' : ∀ t, Steady (J t))
    (steady'' : ∀ v t, Steady (K v t)) (each : ∀ i, Keeps I J K (operation i))
    (detour : ∀ f ∈ fallback, ∀ record, Keeps I J K (f record)) (left attempt : Nat)
    (context : Context) (h : Handler) (t : σ) (n : Machine) (inv : I n) (kept : J t n) :
    HoldsFrom I (Ends J K h.made)
      (attempts category context operation fallback left attempt h) t n := by
  induction left generalizing attempt context h t n with
  | zero =>
    rw [attempts]
    refine holdsFrom_bind (each attempt t n inv kept) ?_
    rintro r t n inv ⟨kept, given⟩
    cases r with
    | ok value => exact success_holds steady steady' steady'' inv kept (given value rfl)
    | error failure =>
      refine holdsFrom_mono (afterFailure_holds steady steady' detour ?_ inv kept) (fun _ i => i)
        fun _ _ _ _ ends => ends.le (Nat.le_succ _)
      exact fun record h t n inv kept => holdsFrom_pure.mpr ⟨inv, kept, nofun, Nat.le_refl _⟩
  | succ left ih =>
    rw [attempts]
    refine holdsFrom_bind (each attempt t n inv kept) ?_
    rintro r t n inv ⟨kept, given⟩
    cases r with
    | ok value => exact success_holds steady steady' steady'' inv kept (given value rfl)
    | error failure =>
      refine holdsFrom_mono (afterFailure_holds steady steady' detour ?_ inv kept) (fun _ i => i)
        fun _ _ _ _ ends => ends.le (Nat.le_succ _)
      exact fun record h t n inv kept => ih (attempt + 1) _ h t n inv kept

/-- A run keeps what every attempt and the fallback keep, and gives what one of them gave. -/
theorem execute_holds {h : Handler} {operation : Nat → Work σ α} (steady : Steady I)
    (steady' : ∀ t, Steady (J t)) (steady'' : ∀ v t, Steady (K v t))
    (each : ∀ i, Keeps I J K (operation i))
    (detour : ∀ f ∈ fallback, ∀ record, Keeps I J K (f record)) (inv : I n) (kept : J t n) :
    HoldsFrom I (Ends J K h.made) (h.execute category context operation fallback) t n := by
  refine holdsFrom_bind (Q := fun _ u k => J u k) (holdsFrom_lift (Program.holds_quiet .now steady trivial
    inv fun k files environment => steady' t n k files environment kept)) ?_
  intro time t n inv kept
  dsimp only
  split
  · exact attempts_holds steady steady' steady'' each detour retryLimit 0 _
      (h.acquire category time).2 t n inv kept
  · refine holdsFrom_bind (Q := fun _ u k => J u k) (holdsFrom_lift (Program.holds_quiet .now steady
      trivial inv fun k files environment => steady' t n k files environment kept)) ?_
    intro later t n inv kept
    refine holdsFrom_pure.mpr ⟨inv, kept, nofun, ?_⟩
    rw [made_enter, made_acquire]
    exact Nat.le_succ _

theorem steady_true : Steady fun _ => True := fun _ _ _ _ _ => trivial

/-- Any work keeps what always holds. -/
theorem keeps_true (x : Work σ α) : Keeps (fun _ => True) (fun _ _ => True) (fun _ _ _ => True) x :=
  fun _ n _ _ => Program.holds_true _ n fun _ _ => ⟨trivial, fun _ _ => trivial⟩

/-- Every run leaves at least as many records as there were. -/
theorem made_of_execute {h h' : Handler} {operation : Nat → Work σ α} {e : Execution α} {u : σ}
    {ms : List Move} (ran : ((h.execute category context operation fallback).run t).Gives m
      ((e, h'), u) n ms) : h.made ≤ h'.made := by
  have ends := ran.holds (execute_holds (K := fun _ _ _ => True) steady_true (fun _ => steady_true)
    (fun _ _ => steady_true) (fun i => keeps_true (operation i)) (fun f _ record => keeps_true (f record))
    trivial trivial)
  exact ends.2.2.2

/-- There is one more record after a failed attempt. -/
theorem made_of_afterFailure {h : Handler} {operation : Nat → Work σ α} {left attempt : Nat}
    {later : Context} {e : Execution α} {h' : Handler} {u : σ} {ms : List Move}
    (ran : ((h.afterFailure category context fallback failure fun record h =>
      match left with
      | 0 => return (.escalated record failure, h)
      | left + 1 => attempts category later operation fallback left attempt h).run t).Gives m
        ((e, h'), u) n ms) : h.made < h'.made := by
  have ends := ran.holds (afterFailure_holds (K := fun _ _ _ => True) steady_true (fun _ => steady_true)
    (fun f _ record => keeps_true (f record)) (fun record h t n _ _ => ?_) trivial trivial)
  · exact ends.2.2.2
  · cases left with
    | zero => exact holdsFrom_pure.mpr ⟨trivial, trivial, nofun, Nat.le_refl _⟩
    | succ left =>
      exact attempts_holds steady_true (fun _ => steady_true) (fun _ _ => steady_true)
        (fun i => keeps_true (operation i)) (fun f _ record => keeps_true (f record)) left attempt later
        h t n trivial trivial

/-- A run that made no record succeeded in its first attempt, which did all that was done. -/
theorem execute_of_made {h h' : Handler} {operation : Nat → Work σ α} {e : Execution α} {u : σ}
    {ms : List Move} (ran : ((h.execute category context operation fallback).run t).Gives m
      ((e, h'), u) n ms) (same : h'.made = h.made) :
    ∃ v k j, e.result = .ok v ∧ m.Same k ∧ ((operation 0).run t).Gives k (.ok v, u) j ms ∧ j.Same n := by
  rw [execute, StateT.run_bind] at ran
  obtain ⟨⟨time, t'⟩, k, first, rest, asked, admitted, rfl⟩ := Program.bind_gives ran
  obtain ⟨rfl, before, rfl⟩ := Program.now_gives asked
  dsimp only at admitted
  split at admitted
  · generalize retryLimit = left at admitted
    rw [attempts, StateT.run_bind] at admitted
    obtain ⟨⟨r, u'⟩, j, second, third, tried, ended, rfl⟩ := Program.bind_gives admitted
    cases r with
    | ok v =>
      dsimp only at ended
      rw [StateT.run_bind] at ended
      obtain ⟨⟨later, u''⟩, i, fourth, fifth, asked', ⟨last, moved⟩, rfl⟩ := Program.bind_gives ended
      obtain ⟨rfl, after, rfl⟩ := Program.now_gives asked'
      cases last
      refine ⟨v, k, j, rfl, before, ?_, after⟩
      rw [← moved]
      simpa using tried
    | error failure =>
      have more := made_of_afterFailure (m := j) ended
      rw [made_acquire] at more
      omega
  · rw [StateT.run_bind] at admitted
    obtain ⟨⟨later, u'⟩, i, second, third, asked', ⟨last, _⟩, rfl⟩ := Program.bind_gives admitted
    cases last
    rw [made_enter, made_acquire] at same
    omega

/-- An operation that is admitted and succeeds at once makes no record. -/
theorem execute_succeeds {h : Handler} {operation : Nat → Work σ α}
    (admitted : ∀ now, (h.acquire category now).1 = true)
    (works : ∀ k, m.Same k → HoldsFrom (fun _ => True) (fun r _ _ => ∃ v, r = .ok v) (operation 0) t k) :
    HoldsFrom (fun _ => True) (fun r _ _ => (∃ v, r.1.result = .ok v) ∧ r.2.made = h.made)
      (h.execute category context operation fallback) t m := by
  refine holdsFrom_bind (Q := fun _ u k => u = t ∧ m.Same k) (holdsFrom_lift (Program.holds_quiet .now
    steady_true trivial trivial fun k files environment => ⟨rfl, files, environment⟩)) ?_
  rintro now u k _ ⟨rfl, same⟩
  dsimp only
  rw [if_pos (admitted now)]
  generalize retryLimit = left
  rw [attempts]
  refine holdsFrom_bind (works k same) ?_
  rintro r u k _ ⟨v, rfl⟩
  refine holdsFrom_bind (Q := fun _ _ _ => True) (holdsFrom_lift (Program.holds_quiet .now
    steady_true trivial trivial fun _ _ _ => trivial)) ?_
  exact fun later u k _ _ => holdsFrom_pure.mpr ⟨trivial, ⟨v, rfl⟩, rfl⟩

/-- A run that the breaker refuses leaves the disk alone. -/
theorem execute_refused {h : Handler} {operation : Nat → Work σ α}
    (refused : (h.acquire category (m.perform .now).1).1 = false) :
    HoldsFrom (fun _ => True) (fun r _ k => m.Same k ∧ ∃ failure, r.1.result = .error failure)
      (h.execute category context operation fallback) t m := by
  refine holdsFrom_bind (Q := fun now _ k => now = (m.perform .now).1 ∧ m.Same k) (holdsFrom_lift
    (Program.holds_quiet .now steady_true trivial trivial fun k files environment =>
      ⟨rfl, files, environment⟩)) ?_
  rintro now u k _ ⟨rfl, same⟩
  dsimp only
  rw [if_neg (by rw [refused]; decide)]
  refine holdsFrom_bind (Q := fun _ _ j => k.Same j) (holdsFrom_lift (Program.holds_quiet .now
    steady_true trivial trivial fun j files environment => ⟨files, environment⟩)) ?_
  exact fun later u j _ same' => holdsFrom_pure.mpr ⟨trivial, same.trans same', _, rfl⟩

end

end SourceRepair.Recovery.Handler
