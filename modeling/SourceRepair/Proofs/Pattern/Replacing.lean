import SourceRepair.Pattern.Read
import SourceRepair.Pattern.Replace
import SourceRepair.Proofs.Pattern.Words

/-!
# Replacing from left to right

The matches of a pattern that always takes something are found in one pass over the text: where the pattern
matches, the match is taken as a whole, and anywhere else one character is left behind. So replacing all matches
is a scan over the text. A pattern that is written out reads as a regular expression without decoding its text.
-/

namespace SourceRepair.Pattern

variable {r : Regex} {p q : Place} {m : Match} {ms : List Match} {f : Match → List Char} {cs : List Char}

/-! ### Patterns that are written out -/

section Reading

variable {s t : String} {ds : List Char}

/-- The characters that a text is written with. With `rfl` for the hypothesis they are found by unification. -/
theorem toList_of_chars (same : s = String.ofList cs) : s.toList = cs :=
  same ▸ String.toList_ofList

theorem toList_append_of (left : s.toList = cs) (right : t.toList = ds) : (s ++ t).toList = cs ++ ds := by
  rw [String.toList_append, left, right]

/-- The regular expression of some characters. -/
def Regex.readChars? (cs : List Char) : Option Regex :=
  match readExpr (cs.length + 1) ⟨cs, {}, 0, []⟩ with
  | some (e, s) => if s.rest.isEmpty && e.weight ≤ weightLimit then some ⟨e, s.names⟩ else none
  | none => none

theorem Regex.read?_eq (spelled : s.toList = cs) : Regex.read? s = Regex.readChars? cs :=
  spelled ▸ rfl

theorem Regex.of_eq (spelled : s.toList = cs) (read : Regex.readChars? cs = some r) : Regex.of s = r := by
  rw [Regex.of, Regex.read?_eq spelled, read, Option.getD_some]

end Reading

/-! ### Templates -/

theorem Regex.expand_plain (r : Regex) (m : Match) {word : List Char} (plain : '$' ∉ word) (rest : List Char) :
    r.expand m (word ++ rest) = word ++ r.expand m rest := by
  induction word with
  | nil => rfl
  | cons c word ih =>
    obtain ⟨other, later⟩ := not_or.mp (mt List.mem_cons.mpr plain)
    rw [List.cons_append, Regex.expand.eq_def]
    split
    · rename_i same
      cases same
    · rename_i same
      injection same with first
      exact absurd first.symm other
    · rename_i same
      injection same with first
      exact absurd first.symm other
    · rename_i same
      injection same with first
      exact absurd first.symm other
    · rename_i same
      injection same with first same
      rw [← first, ← same, ih later]
      rfl

/-- A reference to a group by a digit in braces. -/
theorem Regex.expand_group (r : Regex) (m : Match) {digit : Char} (isDigit : digit.isDigit) (rest : List Char) :
    r.expand m ('$' :: '\x7b' :: digit :: '\x7d' :: rest) = m.group (digit.toNat - 48) ++ r.expand m rest := by
  have apart {c : Char} (none : c.isDigit = false) : digit ≠ c := by
    rintro rfl
    rw [none] at isDigit
    cases isDigit
  have closing := apart (c := '\x7d') rfl
  have small : digit.toNat - 48 < UInt64.size := by
    simp only [Char.isDigit, Bool.and_eq_true, decide_eq_true_eq] at isDigit
    have := UInt32.le_iff_toNat_le.mp isDigit.2
    have same : digit.toNat = digit.val.toNat := rfl
    change digit.val.toNat ≤ 57 at this
    rw [same]
    exact Nat.lt_of_le_of_lt (Nat.sub_le _ _) (Nat.lt_of_le_of_lt this (by decide))
  have number : groupNumber? [digit] = some (digit.toNat - 48) := by
    unfold groupNumber?
    split
    · rename_i same
      injection same with same
      exact absurd same (apart rfl)
    · simp [isDigit, small]
  rw [Regex.expand.eq_def]
  simp only [List.takeWhile_cons, bne_iff_ne, ne_eq, closing, not_false_eq_true, if_true, bne_self_eq_false,
    Bool.false_eq_true, if_false, List.length_cons, List.length_nil, List.drop_succ_cons, List.drop_zero]
  rw [if_pos (by omega), Regex.reference, number]

/-! ### Matches from left to right -/

theorem Place.before_past (p : Place) {w : List Char} (some : w ≠ []) : (p.past w).before ≠ none := by
  rcases List.eq_nil_or_concat w with rfl | ⟨front, c, rfl⟩
  · exact absurd rfl some
  · simp [Place.past]

namespace Regex

theorem start_of_matchAt (found : r.matchAt? p = some m) : m.start = p := by
  obtain ⟨q, -, rfl⟩ := Option.map_eq_some_iff.mp found
  rfl

/-- What a match takes is led over by the pattern. -/
theorem leads_of_matchAt (bounded : r.expr.bounded) (found : r.matchAt? p = some m) :
    r.expr.Leads ⟨p, []⟩ ⟨m.stop, m.captures⟩ := by
  obtain ⟨q, ran, rfl⟩ := Option.map_eq_some_iff.mp found
  obtain ⟨s, leads, same⟩ := Expr.run_some bounded ran
  cases same
  exact leads

/-- A pattern that leads to one end only is matched up to there. -/
theorem matchAt?_eq {q : Progress} (brisk : r.expr.brisk) (bounded : r.expr.bounded) (leads : r.expr.Leads ⟨p, []⟩ q)
    (only : ∀ q', r.expr.Leads ⟨p, []⟩ q' → q' = q) : r.matchAt? p = some ⟨p, q.place, q.captures⟩ := by
  rw [matchAt?, Expr.run_eq brisk bounded leads fun q' other _ => only q' other]
  rfl

theorem matchAt?_eq_none (bounded : r.expr.bounded) (nowhere : ∀ q, ¬r.expr.Leads ⟨p, []⟩ q) : r.matchAt? p = none := by
  rw [matchAt?, Expr.run_eq_none bounded fun q leads => absurd leads (nowhere q)]
  rfl

/-- The pattern can be followed, and it takes something. -/
structure Scans (r : Regex) : Prop where
  brisk : r.expr.brisk
  bounded : r.expr.bounded
  takesSome : r.expr.takesSome

theorem Scans.advances (scans : r.Scans) (found : r.matchAt? p = some m) :
    p.index < m.stop.index ∧ m.stop.rest.length < p.rest.length :=
  (leads_of_matchAt scans.bounded found).advances scans.takesSome

/-- A match of such a pattern ends behind some character. -/
theorem Scans.before (scans : r.Scans) (found : r.matchAt? p = some m) : m.stop.before ≠ none := by
  obtain ⟨w, -, place⟩ := (leads_of_matchAt scans.bounded found).took
  have place : m.stop = p.past w := place
  rw [place]
  refine Place.before_past p ?_
  rintro rfl
  have moved := (scans.advances found).1
  rw [place] at moved
  exact Nat.lt_irrefl _ moved

/-- The matches from a place on, one pass from left to right. -/
inductive Swept (r : Regex) : Place → List Match → Prop
  | stop {p : Place} (none : r.matchAt? p = none) (ends : p.rest = []) : Swept r p []
  | skip {p q : Place} {ms : List Match} (none : r.matchAt? p = none) (next : p.next? = some q)
    (rest : Swept r q ms) : Swept r p ms
  | take {p : Place} {m : Match} {ms : List Match} (found : r.matchAt? p = some m) (rest : Swept r m.stop ms) :
    Swept r p (m :: ms)

end Regex

theorem Place.next?_eq (p : Place) : p.next? = p.rest.head?.map fun c => p.past [c] := by
  obtain ⟨index, before, rest⟩ := p
  cases rest <;> rfl

theorem Place.rest_of_next? (next : p.next? = some q) : ∃ c, p.rest = c :: q.rest ∧ q = p.past [c] := by
  obtain ⟨index, before, rest⟩ := p
  cases rest with
  | nil => cases next
  | cons c rest =>
    cases next
    exact ⟨c, rfl, rfl⟩

namespace Regex

theorem find?_of_matchAt (found : r.matchAt? p = some m) : r.find? p = some m := by
  rw [find?, findFrom?, found]

theorem find?_of_next (none : r.matchAt? p = none) (next : p.next? = some q) : r.find? p = r.find? q := by
  obtain ⟨c, starts, -⟩ := Place.rest_of_next? next
  rw [find?, findFrom?, none, next, starts]
  rfl

theorem find?_of_end (none : r.matchAt? p = none) (ends : p.rest = []) : r.find? p = Option.none := by
  have last : p.next? = Option.none := by
    rw [Place.next?_eq, ends]
    rfl
  rw [find?, findFrom?, none, last]
  rfl

theorem matchesFrom_of_matchAt (scans : r.Scans) (found : r.matchAt? p = some m) (fuel : Nat) (last : Option Nat) :
    r.matchesFrom (fuel + 1) last p = m :: r.matchesFrom fuel (some m.stop.index) m.stop := by
  have moved := (scans.advances found).1
  have wide : (m.start.index == m.stop.index) = false := by
    rw [start_of_matchAt found]
    exact beq_false_of_ne (Nat.ne_of_lt moved)
  rw [matchesFrom, find?_of_matchAt found]
  simp [wide]

theorem matchesFrom_of_none (none : r.find? p = Option.none) (fuel : Nat) (last : Option Nat) :
    r.matchesFrom (fuel + 1) last p = [] := by
  rw [matchesFrom, none]

theorem matchesFrom_of_next (scans : r.Scans) (same : r.find? p = r.find? q) (fuel : Nat) (last : Option Nat) :
    r.matchesFrom (fuel + 1) last p = r.matchesFrom (fuel + 1) last q := by
  have wide {p : Place} {m : Match} (found : r.find? p = some m) : (m.start.index == m.stop.index) = false := by
    have starts : ∀ k (p : Place), r.findFrom? k p = some m → r.matchAt? m.start = some m := by
      intro k
      induction k with
      | zero => exact fun _ found => by cases found
      | succ k ih =>
        intro p found
        rw [findFrom?] at found
        split at found
        · rename_i s here
          cases found
          rwa [start_of_matchAt here]
        · obtain ⟨q, -, found⟩ := Option.bind_eq_some_iff.mp found
          exact ih q found
    exact beq_false_of_ne (Nat.ne_of_lt (scans.advances (starts _ _ found)).1)
  rw [matchesFrom, matchesFrom, same]
  cases found : r.find? q with
  | none => rfl
  | some m => simp [wide found]

/-- All matches are found in one pass. -/
theorem swept_matchesFrom (scans : r.Scans) {n fuel : Nat} (last : Option Nat) (short : p.rest.length ≤ n)
    (enough : n < fuel) : r.Swept p (r.matchesFrom fuel last p) := by
  induction n generalizing p fuel last with
  | zero =>
    obtain ⟨fuel, rfl⟩ : ∃ k, fuel = k + 1 := ⟨fuel - 1, by omega⟩
    have ends : p.rest = [] := List.length_eq_zero_iff.mp (by omega)
    have none : r.matchAt? p = Option.none := by
      refine Option.eq_none_iff_forall_ne_some.mpr fun m found => ?_
      have := (scans.advances found).2
      omega
    rw [matchesFrom_of_none (find?_of_end none ends)]
    exact .stop none ends
  | succ n ih =>
    obtain ⟨fuel, rfl⟩ : ∃ k, fuel = k + 1 := ⟨fuel - 1, by omega⟩
    cases found : r.matchAt? p with
    | some m =>
      have := (scans.advances found).2
      rw [matchesFrom_of_matchAt scans found]
      exact .take found (ih _ (by omega) (by omega))
    | none =>
      cases next : p.next? with
      | none =>
        have ends : p.rest = [] := by
          rw [Place.next?_eq] at next
          simpa using next
        rw [matchesFrom_of_none (find?_of_end found ends)]
        exact .stop found ends
      | some q =>
        obtain ⟨c, starts, -⟩ := Place.rest_of_next? next
        have := congrArg List.length starts
        rw [List.length_cons] at this
        rw [matchesFrom_of_next scans (find?_of_next found next)]
        exact .skip found next (ih _ (by omega) (by omega))

theorem swept_allMatches (scans : r.Scans) (text : List Char) : r.Swept (.start text) (r.allMatches text) :=
  swept_matchesFrom scans none (Nat.le_succ text.length) (Nat.lt_succ_self _)

theorem Swept.le_start (swept : r.Swept p (m :: ms)) : p.index ≤ m.start.index := by
  generalize listed : m :: ms = all at swept
  induction swept with
  | stop => cases listed
  | skip _ next _ ih =>
    obtain ⟨c, -, rfl⟩ := Place.rest_of_next? next
    exact Nat.le_trans (Nat.le_add_right ..) (ih listed)
  | take found =>
    cases listed
    exact Nat.le_of_eq (congrArg Place.index (start_of_matchAt found)).symm

theorem replaceMatches_skip (next : p.next? = some q) (swept : r.Swept q ms) :
    ∃ c, p.rest = c :: q.rest ∧ replaceMatches f ms p = c :: replaceMatches f ms q := by
  obtain ⟨c, starts, rfl⟩ := Place.rest_of_next? next
  refine ⟨c, starts, ?_⟩
  cases ms with
  | nil => exact starts
  | cons m ms =>
    have behind := swept.le_start
    rw [Place.past_index] at behind
    obtain ⟨k, same⟩ : ∃ k, m.start.index - p.index = k + 1 := ⟨m.start.index - p.index - 1, by simp at behind; omega⟩
    have same' : m.start.index - (p.past [c]).index = k := by rw [Place.past_index, List.length_singleton]; omega
    rw [replaceMatches, replaceMatches, Place.until, Place.until, same, same', starts]
    rfl

theorem Swept.of_some (found : r.matchAt? p = some m) (swept : r.Swept p ms) :
    ∃ rest, ms = m :: rest ∧ r.Swept m.stop rest := by
  cases swept with
  | stop none => rw [found] at none; cases none
  | skip none => rw [found] at none; cases none
  | take found' rest =>
    obtain rfl := Option.some.inj (found.symm.trans found')
    exact ⟨_, rfl, rest⟩

theorem Swept.at_end (scans : r.Scans) (ends : p.rest = []) (swept : r.Swept p ms) : ms = [] := by
  cases swept with
  | stop => rfl
  | skip _ next =>
    obtain ⟨c, starts, -⟩ := Place.rest_of_next? next
    rw [ends] at starts
    cases starts
  | take found =>
    have := (scans.advances found).2
    rw [ends] at this
    cases this

/-- A word that no match starts in is left behind. -/
theorem Swept.skip_word {w rest : List Char} (swept : r.Swept p ms) (starts : p.rest = w ++ rest)
    (nowhere : ∀ u v, w = u ++ v → v ≠ [] → r.matchAt? (p.past u) = none) :
    r.Swept (p.past w) ms ∧ replaceMatches f ms p = w ++ replaceMatches f ms (p.past w) := by
  induction w generalizing p with
  | nil => exact ⟨swept, rfl⟩
  | cons c w ih =>
    have none := nowhere [] (c :: w) rfl (List.cons_ne_nil c w)
    rw [Place.past_nil] at none
    have next : p.next? = some (p.past [c]) := by rw [Place.next?_eq, starts]; rfl
    have later : r.Swept (p.past [c]) ms := by
      cases swept with
      | stop _ ends => rw [ends] at starts; cases starts
      | skip _ next' rest => rwa [← Option.some.inj (next.symm.trans next')] at rest
      | take found => rw [none] at found; cases found
    obtain ⟨d, first, replaced⟩ := replaceMatches_skip (f := f) next later
    obtain ⟨swept', rest⟩ := ih later (Place.past_rest starts) fun u v split some => by
      rw [Place.past_past]
      exact nowhere (c :: u) v (congrArg (c :: ·) split) some
    rw [Place.past_past] at swept' rest
    obtain rfl : c = d := by rw [starts] at first; exact (List.cons.inj first).1
    exact ⟨swept', replaced.trans (congrArg (c :: ·) rest)⟩

theorem replaceMatches_take (found : r.matchAt? p = some m) (ms : List Match) :
    replaceMatches f (m :: ms) p = f m ++ replaceMatches f ms m.stop := by
  rw [replaceMatches, start_of_matchAt found, Place.until, Nat.sub_self]
  rfl

end Regex

/-! ### Patterns for the start of a text -/

namespace Regex

theorem matchAt?_of_before {es : List Expr} (anchored : r.expr = Expr.sequence (.look .textStart :: es))
    (bounded : r.expr.bounded) (behind : p.before.isSome) : r.matchAt? p = none := by
  have nowhere : r.expr.run ⟨p, []⟩ some = none := by
    refine Expr.run_eq_none bounded fun q leads => ?_
    rw [anchored, Expr.leads_sequence] at leads
    obtain ⟨_, ⟨start, -⟩, -⟩ := leads
    rw [Look.holds] at start
    have none : p.before = none := Option.isNone_iff_eq_none.mp start
    rw [none] at behind
    cases behind
  rw [Regex.matchAt?, nowhere]
  rfl

/-- A pattern for the start of a text matches only there. -/
theorem first?_anchored {es : List Expr} (anchored : r.expr = Expr.sequence (.look .textStart :: es))
    (bounded : r.expr.bounded) (text : List Char) : r.first? text = r.matchAt? (.start text) := by
  have later (fuel : Nat) : ∀ p : Place, p.before.isSome → r.findFrom? fuel p = none := by
    induction fuel with
    | zero => exact fun _ _ => rfl
    | succ fuel ih =>
      intro p behind
      rw [Regex.findFrom?, matchAt?_of_before anchored bounded behind]
      refine Option.bind_eq_none_iff.mpr fun q next => ih q ?_
      obtain ⟨c, -, rfl⟩ := Place.rest_of_next? next
      rfl
  rw [Regex.first?, Regex.find?, Regex.findFrom?]
  cases found : r.matchAt? (.start text) with
  | some m => rfl
  | none =>
    refine Option.bind_eq_none_iff.mpr fun q next => later _ q ?_
    obtain ⟨c, -, rfl⟩ := Place.rest_of_next? next
    rfl

theorem isMatch_anchored {es : List Expr} (anchored : r.expr = Expr.sequence (.look .textStart :: es))
    (brisk : r.expr.brisk) (bounded : r.expr.bounded) (text : List Char) :
    r.isMatch text ↔ ∃ q, Expr.LeadsAll es ⟨.start text, []⟩ q := by
  have leads (q : Progress) : r.expr.Leads ⟨.start text, []⟩ q ↔ Expr.LeadsAll es ⟨.start text, []⟩ q := by
    rw [anchored, Expr.leads_sequence]
    exact ⟨fun ⟨_, ⟨_, same⟩, rest⟩ => same ▸ rest, fun rest => ⟨_, ⟨rfl, rfl⟩, rest⟩⟩
  rw [isMatch, first?_anchored anchored bounded, matchAt?, Option.isSome_map]
  constructor
  · intro found
    obtain ⟨s, ran⟩ := Option.isSome_iff_exists.mp found
    obtain ⟨q, way, -⟩ := Expr.run_some bounded ran
    exact ⟨q, (leads q).mp way⟩
  · rintro ⟨q, way⟩
    exact Expr.isSome_run brisk ((leads q).mpr way) (Option.isSome_some ..)

end Regex

/-! ### Groups -/

theorem Expr.leads_group {a : Expr} {i : Nat} {p q : Progress} (plain : a.plain) :
    (Expr.group i a).Leads p q ↔
      ∃ w, a.Spells w ∧ w <+: p.place.rest ∧ q = ⟨p.place.past w, (i, w) :: p.captures⟩ := by
  constructor
  · rintro ⟨m, leads, rfl⟩
    obtain ⟨w, spelled, ⟨rest, starts⟩, rfl⟩ := (leads_iff_spells plain).mp leads
    refine ⟨w, spelled, ⟨rest, starts⟩, ?_⟩
    rw [Progress.past_place, Progress.past_captures, Place.until_past starts.symm]
  · rintro ⟨w, spelled, ⟨rest, starts⟩, rfl⟩
    refine ⟨p.past w, (leads_iff_spells plain).mpr ⟨w, spelled, ⟨rest, starts⟩, rfl⟩, ?_⟩
    rw [Progress.past_place, Progress.past_captures, Place.until_past starts.symm]

end SourceRepair.Pattern
