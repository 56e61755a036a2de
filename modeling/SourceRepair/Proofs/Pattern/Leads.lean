import SourceRepair.Pattern.Match

/-!
# Where patterns lead

A pattern leads from a place in a text to others, with what its groups take on the way. That says what a pattern
matches, whatever is tried first. The matcher goes where the pattern leads, and if every repetition takes
something in each round, it finds a way to the end whenever there is one. So where a pattern leads to one place
only, the matcher goes there.
-/

namespace SourceRepair.Pattern

variable {p q r : Progress} {e : Expr} {next : Next} {n m : Nat}

/-! ### Places -/

/-- The place behind the next characters. -/
def Place.past (p : Place) (w : List Char) : Place :=
  ⟨p.index + w.length, w.getLast?.or p.before, p.rest.drop w.length⟩

@[simp] theorem Place.past_nil (p : Place) : p.past [] = p := rfl

@[simp] theorem Place.past_index (p : Place) (w : List Char) : (p.past w).index = p.index + w.length := rfl

theorem Place.past_past (p : Place) (v w : List Char) : (p.past v).past w = p.past (v ++ w) := by
  simp [Place.past, List.getLast?_append, Option.or_assoc, Nat.add_assoc]

theorem Place.past_rest {p : Place} {w rest : List Char} (starts : p.rest = w ++ rest) : (p.past w).rest = rest := by
  rw [Place.past, starts, List.drop_left]

theorem Place.until_past {p : Place} {w rest : List Char} (starts : p.rest = w ++ rest) : p.until (p.past w) = w := by
  rw [Place.until, starts, Place.past_index, Nat.add_sub_cancel_left, List.take_left]

/-! ### What leads where -/

/-- Rounds of a step, each from where the one before it leads. -/
inductive Rounds (step : Progress → Progress → Prop) : Nat → Progress → Progress → Prop
  | none {p : Progress} : Rounds step 0 p p
  | more {n : Nat} {p q r : Progress} (round : step p q) (rest : Rounds step n q r) : Rounds step (n + 1) p r

theorem Rounds.append {step : Progress → Progress → Prop} (first : Rounds step n p q) (second : Rounds step m q r) :
    Rounds step (n + m) p r := by
  induction first with
  | none => rwa [Nat.zero_add]
  | more round _ ih =>
    rw [Nat.add_right_comm]
    exact .more round (ih second)

theorem Rounds.split {step : Progress → Progress → Prop} (rounds : Rounds step (n + m) p r) :
    ∃ q, Rounds step n p q ∧ Rounds step m q r := by
  induction n generalizing p with
  | zero => exact ⟨p, .none, by rwa [Nat.zero_add] at rounds⟩
  | succ n ih =>
    rw [Nat.add_right_comm] at rounds
    cases rounds with
    | more round rest =>
      obtain ⟨q, first, second⟩ := ih rest
      exact ⟨q, .more round first, second⟩

namespace Expr

/-- The pattern leads from one place to another. -/
def Leads : Expr → Progress → Progress → Prop
  | nothing, p, q => q = p
  | char set, p, q => ∃ c rest, p.place.rest = c :: rest ∧ set.has c ∧
    q = ⟨⟨p.place.index + 1, some c, rest⟩, p.captures⟩
  | look l, p, q => l.holds p.place ∧ q = p
  | seq a b, p, r => ∃ q, a.Leads p q ∧ b.Leads q r
  | alt a b, p, q => a.Leads p q ∨ b.Leads p q
  | group i a, p, r => ∃ q, a.Leads p q ∧ r = ⟨q.place, (i, p.place.until q.place) :: q.captures⟩
  | .repeat a least most _, p, q =>
    ∃ n, least ≤ n ∧ (∀ m ∈ most, n ≤ m) ∧ Rounds (fun p q => a.Leads p q) n p q

/-- Every way through the pattern takes a character. -/
def takesSome : Expr → Bool
  | nothing | look _ => false
  | char _ => true
  | seq a b => a.takesSome || b.takesSome
  | alt a b => a.takesSome && b.takesSome
  | group _ a => a.takesSome
  | .repeat a least _ _ => 0 < least && a.takesSome

/-- What is repeated without a bound takes a character in each round. -/
def brisk : Expr → Bool
  | nothing | look _ | char _ => true
  | seq a b | alt a b => a.brisk && b.brisk
  | group _ a => a.brisk
  | .repeat a _ most _ => a.brisk && (most.isSome || a.takesSome)

/-! ### What is taken on the way -/

/-- What stands between two places. -/
def Took (p q : Progress) (w : List Char) : Prop := p.place.rest = w ++ q.place.rest ∧ q.place = p.place.past w

theorem Took.trans {v w : List Char} (first : Took p q v) (second : Took q r w) : Took p r (v ++ w) := by
  obtain ⟨starts, place⟩ := first
  refine ⟨?_, ?_⟩
  · rw [starts, second.1, List.append_assoc]
  · rw [second.2, place, Place.past_past]

theorem took_rounds {step : Progress → Progress → Prop} (took : ∀ {p q}, step p q → ∃ w, Took p q w)
    (rounds : Rounds step n p q) : ∃ w, Took p q w := by
  induction rounds with
  | none => exact ⟨[], rfl, rfl⟩
  | more round _ ih =>
    obtain ⟨v, first⟩ := took round
    obtain ⟨w, second⟩ := ih
    exact ⟨v ++ w, first.trans second⟩

/-- A pattern leads on in the text. -/
theorem Leads.took (leads : e.Leads p q) : ∃ w, Took p q w := by
  induction e generalizing p q with
  | nothing =>
    cases leads
    exact ⟨[], rfl, rfl⟩
  | char set =>
    obtain ⟨c, rest, starts, -, rfl⟩ := leads
    exact ⟨[c], starts, by simp [Place.past, starts]⟩
  | look l =>
    obtain ⟨-, rfl⟩ := leads
    exact ⟨[], rfl, rfl⟩
  | seq a b first second =>
    obtain ⟨m, left, right⟩ := leads
    obtain ⟨v, tookLeft⟩ := first left
    obtain ⟨w, tookRight⟩ := second right
    exact ⟨v ++ w, tookLeft.trans tookRight⟩
  | alt a b first second => exact leads.elim first second
  | group i a ih =>
    obtain ⟨m, inner, rfl⟩ := leads
    exact (ih inner).imp fun _ took => took
  | «repeat» a least most greedy ih =>
    obtain ⟨n, -, -, rounds⟩ := leads
    exact took_rounds ih rounds

/-- The second place stands behind the first. -/
def Advances (p q : Progress) : Prop :=
  p.place.index < q.place.index ∧ q.place.rest.length < p.place.rest.length

theorem Took.advances {w : List Char} (took : Took p q w) (some : w ≠ []) : Advances p q := by
  have long := List.length_pos_iff.mpr some
  rw [Advances, took.1, took.2, Place.past_index, List.length_append]
  omega

theorem Took.advances_or (took : ∃ w, Took p q w) : Advances p q ∨
    p.place.index = q.place.index ∧ p.place.rest.length = q.place.rest.length := by
  obtain ⟨w, took⟩ := took
  cases w with
  | nil => exact .inr ⟨(congrArg Place.index took.2).symm, congrArg List.length took.1⟩
  | cons c w => exact .inl (took.advances (List.cons_ne_nil c w))

theorem Leads.advances (leads : e.Leads p q) (some : e.takesSome) : Advances p q := by
  induction e generalizing p q with
  | nothing => cases some
  | char set =>
    obtain ⟨c, rest, starts, -, rfl⟩ := leads
    exact Took.advances (w := [c]) ⟨starts, by simp [Place.past, starts]⟩ (List.cons_ne_nil c [])
  | look l => cases some
  | seq a b first second =>
    obtain ⟨m, left, right⟩ := leads
    rw [takesSome, Bool.or_eq_true] at some
    rcases some with some | some
    · have := first left some
      rcases Took.advances_or right.took with more | same <;> unfold Advances at * <;> omega
    · have := second right some
      rcases Took.advances_or left.took with more | same <;> unfold Advances at * <;> omega
  | alt a b first second =>
    rw [takesSome, Bool.and_eq_true] at some
    exact leads.elim (first · some.1) (second · some.2)
  | group i a ih =>
    obtain ⟨m, inner, rfl⟩ := leads
    have := ih inner some
    exact this
  | «repeat» a least most greedy ih =>
    obtain ⟨n, few, -, rounds⟩ := leads
    rw [takesSome, Bool.and_eq_true, decide_eq_true_eq] at some
    cases rounds with
    | none => omega
    | more round rest =>
      have := ih round some.2
      rcases Took.advances_or (took_rounds Leads.took rest) with more | same <;> unfold Advances at * <;> omega

end Expr

/-! ### The matcher goes where patterns lead -/

theorem either_some {first second : Unit → Option Progress} (found : either first second = some r) :
    first () = some r ∨ second () = some r := by
  unfold either at found
  split at found
  · rename_i s same
    exact .inl (same.trans found)
  · exact .inr found

theorem ite_either_some {greedy : Bool} {first second : Unit → Option Progress}
    (found : (if greedy then either first second else either second first) = some r) :
    first () = some r ∨ second () = some r := by
  split at found
  · exact either_some found
  · exact (either_some found).symm

theorem isSome_either {first second : Unit → Option Progress} (some : (first ()).isSome ∨ (second ()).isSome) :
    (either first second).isSome := by
  unfold either
  split
  · rfl
  · rename_i none
    simpa [none] using some

theorem isSome_ite_either {greedy : Bool} {first second : Unit → Option Progress}
    (some : (first ()).isSome ∨ (second ()).isSome) :
    (if greedy then either first second else either second first).isSome := by
  split
  · exact isSome_either some
  · exact isSome_either some.symm

section Sound

variable {step : Progress → Next → Option Progress} {ways : Progress → Progress → Prop}
  (sound : ∀ p next r, step p next = some r → ∃ q, ways p q ∧ next q = some r)

include sound

theorem times_some (found : times step n p next = some r) : ∃ q, Rounds ways n p q ∧ next q = some r := by
  induction n generalizing p with
  | zero => exact ⟨p, .none, found⟩
  | succ n ih =>
    obtain ⟨m, round, found⟩ := sound _ _ _ found
    obtain ⟨q, rest, found⟩ := ih found
    exact ⟨q, .more round rest, found⟩

theorem atMost_some {greedy : Bool} (found : atMost step greedy n p next = some r) :
    ∃ k q, k ≤ n ∧ Rounds ways k p q ∧ next q = some r := by
  induction n generalizing p with
  | zero => exact ⟨0, p, Nat.le.refl, .none, found⟩
  | succ n ih =>
    rcases ite_either_some found with more | stop
    · obtain ⟨m, round, found⟩ := sound _ _ _ more
      obtain ⟨k, q, few, rest, found⟩ := ih found
      exact ⟨k + 1, q, Nat.succ_le_succ few, .more round rest, found⟩
    · exact ⟨0, p, Nat.zero_le _, .none, stop⟩

theorem again_some {greedy first : Bool} {fuel : Nat} (found : again step greedy next fuel first p = some r) :
    ∃ k q, Rounds ways (k + 1) p q ∧ next q = some r := by
  induction fuel generalizing p first with
  | zero => cases found
  | succ fuel ih =>
    obtain ⟨m, round, found⟩ := sound _ _ _ found
    by_cases same : m.place.index = p.place.index
    · simp only [same, beq_self_eq_true, if_true] at found
      split at found
      · exact ⟨0, m, .more round .none, found⟩
      · cases found
    · simp only [beq_false_of_ne same, Bool.false_eq_true, if_false] at found
      rcases ite_either_some found with more | stop
      · obtain ⟨k, q, rest, found⟩ := ih more
        exact ⟨k + 1, q, .more round rest, found⟩
      · exact ⟨0, m, .more round .none, stop⟩

theorem repeated_some {least : Nat} {most : Option Nat} {greedy : Bool}
    (bounded : ∀ m ∈ most, least ≤ m) (found : repeated step least most greedy p next = some r) :
    ∃ n q, least ≤ n ∧ (∀ m ∈ most, n ≤ m) ∧ Rounds ways n p q ∧ next q = some r := by
  cases most with
  | some most =>
    obtain ⟨m, first, found⟩ := times_some sound found
    obtain ⟨k, q, few, second, found⟩ := atMost_some sound found
    have := bounded most rfl
    refine ⟨least + k, q, Nat.le_add_right .., fun m same => ?_, first.append second, found⟩
    cases same
    omega
  | none =>
    cases least with
    | zero =>
      rcases ite_either_some found with more | stop
      · obtain ⟨k, q, rounds, found⟩ := again_some sound more
        exact ⟨k + 1, q, Nat.zero_le _, nofun, rounds, found⟩
      · exact ⟨0, p, Nat.le.refl, nofun, .none, stop⟩
    | succ n =>
      obtain ⟨m, first, found⟩ := times_some sound found
      obtain ⟨k, q, second, found⟩ := again_some sound found
      exact ⟨n + (k + 1), q, by omega, nofun, first.append second, found⟩

end Sound

section Complete

variable {step : Progress → Next → Option Progress} {ways : Progress → Progress → Prop}
  (goes : ∀ p q next, ways p q → (next q).isSome → (step p next).isSome)

include goes

theorem isSome_times (rounds : Rounds ways n p q) (ends : (next q).isSome) : (times step n p next).isSome := by
  induction rounds with
  | none => exact ends
  | more round _ ih => exact goes _ _ _ round (ih ends)

theorem isSome_atMost {greedy : Bool} {k : Nat} (rounds : Rounds ways k p q) (few : k ≤ n) (ends : (next q).isSome) :
    (atMost step greedy n p next).isSome := by
  induction rounds generalizing n with
  | none =>
    cases n with
    | zero => exact ends
    | succ n => exact isSome_ite_either (.inr ends)
  | more round _ ih =>
    obtain ⟨n, rfl⟩ : ∃ l, n = l + 1 := ⟨n - 1, by omega⟩
    exact isSome_ite_either (.inl (goes _ _ _ round (ih (by omega) ends)))

/-- With enough fuel all rounds are made. -/
theorem isSome_again {greedy first : Bool} {fuel : Nat} (advances : ∀ p q, ways p q → Expr.Advances p q)
    (rounds : Rounds ways (n + 1) p q) (enough : p.place.rest.length < fuel) (ends : (next q).isSome) :
    (again step greedy next fuel first p).isSome := by
  induction n generalizing p first fuel with
  | zero =>
    obtain ⟨fuel, rfl⟩ : ∃ k, fuel = k + 1 := ⟨fuel - 1, by omega⟩
    cases rounds with
    | more round rest =>
      cases rest
      have moved := advances _ _ round
      refine goes _ _ _ round ?_
      rw [if_neg (by simpa using (Nat.ne_of_lt moved.1).symm)]
      exact isSome_ite_either (.inr ends)
  | succ n ih =>
    obtain ⟨fuel, rfl⟩ : ∃ k, fuel = k + 1 := ⟨fuel - 1, by omega⟩
    cases rounds with
    | more round rest =>
      have moved := advances _ _ round
      refine goes _ _ _ round ?_
      rw [if_neg (by simpa using (Nat.ne_of_lt moved.1).symm)]
      exact isSome_ite_either (.inl (ih rest (by have := moved.2; omega)))

theorem isSome_repeated {least : Nat} {most : Option Nat} {greedy : Bool}
    (advances : most = none → ∀ p q, ways p q → Expr.Advances p q) (many : least ≤ n) (few : ∀ m ∈ most, n ≤ m)
    (rounds : Rounds ways n p q) (ends : (next q).isSome) : (repeated step least most greedy p next).isSome := by
  cases most with
  | some most =>
    have := few most rfl
    obtain ⟨k, rfl⟩ : ∃ k, n = least + k := ⟨n - least, by omega⟩
    obtain ⟨m, first, second⟩ := rounds.split
    exact isSome_times goes first (isSome_atMost goes second (by omega) ends)
  | none =>
    have advances := advances rfl
    cases least with
    | zero =>
      cases n with
      | zero =>
        cases rounds
        exact isSome_ite_either (.inr ends)
      | succ n => exact isSome_ite_either (.inl (isSome_again goes advances rounds (Nat.lt_succ_self _) ends))
    | succ least =>
      obtain ⟨k, rfl⟩ : ∃ k, n = least + (k + 1) := ⟨n - (least + 1), by omega⟩
      obtain ⟨m, first, second⟩ := rounds.split
      exact isSome_times goes first (isSome_again goes advances second (Nat.lt_succ_self _) ends)

end Complete

namespace Expr

/-- Bounds of repetitions are in order. -/
def bounded : Expr → Bool
  | nothing | look _ | char _ => true
  | seq a b | alt a b => a.bounded && b.bounded
  | group _ a => a.bounded
  | .repeat a least most _ => a.bounded && most.all (least ≤ ·)

/-- The matcher goes where the pattern leads. -/
theorem run_some (bounded : e.bounded) (found : e.run p next = some r) : ∃ q, e.Leads p q ∧ next q = some r := by
  induction e generalizing p next r with
  | nothing => exact ⟨p, rfl, found⟩
  | char set =>
    unfold run at found
    split at found
    · cases found
    · rename_i c rest starts
      split at found
      · rename_i has
        exact ⟨_, ⟨c, rest, starts, has, rfl⟩, found⟩
      · cases found
  | look l =>
    unfold run at found
    split at found
    · rename_i holds
      exact ⟨p, ⟨holds, rfl⟩, found⟩
    · cases found
  | seq a b first second =>
    rw [Expr.bounded, Bool.and_eq_true] at bounded
    obtain ⟨m, left, found⟩ := first bounded.1 found
    obtain ⟨q, right, found⟩ := second bounded.2 found
    exact ⟨q, ⟨m, left, right⟩, found⟩
  | alt a b first second =>
    rw [Expr.bounded, Bool.and_eq_true] at bounded
    rcases either_some found with left | right
    · exact (first bounded.1 left).imp fun q found => found.imp .inl id
    · exact (second bounded.2 right).imp fun q found => found.imp .inr id
  | group i a ih =>
    obtain ⟨m, inner, found⟩ := ih bounded found
    exact ⟨_, ⟨m, inner, rfl⟩, found⟩
  | «repeat» a least most greedy ih =>
    simp only [Expr.bounded, Bool.and_eq_true, Option.all_eq_true, decide_eq_true_eq] at bounded
    have sound : ∀ p next r, a.run p next = some r → ∃ q, a.Leads p q ∧ next q = some r :=
      fun _ _ _ found => ih bounded.1 found
    obtain ⟨n, q, many, few, rounds, found⟩ := repeated_some sound bounded.2 found
    exact ⟨q, ⟨n, many, few, rounds⟩, found⟩

/-- Where the pattern leads to an end the matcher finds one. -/
theorem isSome_run (brisk : e.brisk) (leads : e.Leads p q) (ends : (next q).isSome) : (e.run p next).isSome := by
  induction e generalizing p q next with
  | nothing =>
    cases leads
    exact ends
  | char set =>
    obtain ⟨c, rest, starts, has, rfl⟩ := leads
    rw [run, starts]
    dsimp only
    rwa [if_pos has]
  | look l =>
    obtain ⟨holds, rfl⟩ := leads
    rwa [run, if_pos holds]
  | seq a b first second =>
    rw [Expr.brisk, Bool.and_eq_true] at brisk
    obtain ⟨m, left, right⟩ := leads
    exact first brisk.1 left (second brisk.2 right ends)
  | alt a b first second =>
    rw [Expr.brisk, Bool.and_eq_true] at brisk
    have some := leads.imp (first brisk.1 · ends) (second brisk.2 · ends)
    exact isSome_either some
  | group i a ih =>
    obtain ⟨m, inner, rfl⟩ := leads
    exact ih brisk inner ends
  | «repeat» a least most greedy ih =>
    rw [Expr.brisk, Bool.and_eq_true, Bool.or_eq_true] at brisk
    obtain ⟨n, many, few, rounds⟩ := leads
    have goes : ∀ p q next, a.Leads p q → (next q).isSome → (a.run p next).isSome :=
      fun _ _ _ leads ends => ih brisk.1 leads ends
    refine isSome_repeated goes ?_ many few rounds ends
    rintro rfl p q leads
    exact leads.advances (brisk.2.resolve_left nofun)

/-- A pattern that leads to one end only goes there. -/
theorem run_eq (brisk : e.brisk) (bounded : e.bounded) (leads : e.Leads p q)
    (only : ∀ q', e.Leads p q' → (next q').isSome → q' = q) : e.run p next = next q := by
  cases found : e.run p next with
  | some r =>
    obtain ⟨q', other, ends⟩ := run_some bounded found
    rw [← only q' other (by rw [ends]; rfl), ends]
  | none =>
    cases ends : next q with
    | none => rfl
    | some r =>
      have goes : (e.run p next).isSome := isSome_run brisk leads (by rw [ends]; rfl)
      rw [found] at goes
      cases goes

theorem run_eq_none (bounded : e.bounded) (nowhere : ∀ q, e.Leads p q → next q = none) : e.run p next = none := by
  refine Option.eq_none_iff_forall_ne_some.mpr fun r found => ?_
  obtain ⟨q, leads, ends⟩ := run_some bounded found
  rw [nowhere q leads] at ends
  cases ends

/-- With enough fuel a greedy repetition at the end of a pattern stops only where no further round can be made. -/
theorem again_maximal {step : Progress → Next → Option Progress} {ways : Progress → Progress → Prop}
    (sound : ∀ p next r, step p next = some r → ∃ q, ways p q ∧ next q = some r)
    (goes : ∀ p q next, ways p q → (next q).isSome → (step p next).isSome)
    (advances : ∀ p q, ways p q → Advances p q) {first : Bool} {fuel : Nat} (enough : p.place.rest.length < fuel)
    (found : again step true some fuel first p = some r) : ∀ q, ¬ways r q := by
  induction fuel generalizing p first with
  | zero => cases found
  | succ fuel ih =>
    obtain ⟨middle, round, found⟩ := sound _ _ _ found
    have moved := advances _ _ round
    have few : middle.place.rest.length < fuel := by have := moved.2; omega
    rw [if_neg (by simpa using (Nat.ne_of_lt moved.1).symm), if_pos rfl, either] at found
    cases more : again step true some fuel false middle with
    | some s =>
      rw [more] at found
      exact ih few (more.trans found)
    | none =>
      rw [more] at found
      obtain rfl : middle = r := Option.some.inj found
      intro q further
      have goes_on : (again step true some fuel false middle).isSome :=
        isSome_again goes advances (.more further .none) few rfl
      rw [more] at goes_on
      cases goes_on

/-- A greedy repetition at the end of a pattern makes as many rounds as there are. -/
theorem run_repeat_maximal (brisk : e.brisk) (bounded : e.bounded) (takesSome : e.takesSome)
    (found : (Expr.repeat e 1 none true).run p some = some r) :
    (∃ n, Rounds (fun p q => e.Leads p q) (n + 1) p r) ∧ ∀ q, ¬e.Leads r q := by
  have sound : ∀ p next r, e.run p next = some r → ∃ q, e.Leads p q ∧ next q = some r :=
    fun _ _ _ found => run_some bounded found
  obtain ⟨n, q, rounds, same⟩ := again_some sound found
  cases same
  exact ⟨⟨n, rounds⟩, again_maximal sound (fun _ _ _ leads ends => isSome_run brisk leads ends)
    (fun _ _ leads => leads.advances takesSome) (Nat.lt_succ_self _) found⟩

end Expr

end SourceRepair.Pattern
