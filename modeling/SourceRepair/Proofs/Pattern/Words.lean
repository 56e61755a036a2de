import SourceRepair.Proofs.Pattern.Leads

/-!
# The words of patterns

A pattern without groups and looks leads from a place over the words that it spells. Patterns in a row spell the
words of each, one after the other.
-/

namespace SourceRepair.Pattern

variable {p q r : Progress} {e : Expr} {es : List Expr} {w : List Char} {set : CharClass} {greedy : Bool}

/-- The progress behind the next characters, with nothing taken by groups. -/
def Progress.past (p : Progress) (w : List Char) : Progress := ⟨p.place.past w, p.captures⟩

@[simp] theorem Progress.past_nil (p : Progress) : p.past [] = p := rfl

theorem Progress.past_past (p : Progress) (v w : List Char) : (p.past v).past w = p.past (v ++ w) := by
  simp only [past, Place.past_past]

@[simp] theorem Progress.past_captures (p : Progress) (w : List Char) : (p.past w).captures = p.captures := rfl

@[simp] theorem Progress.past_place (p : Progress) (w : List Char) : (p.past w).place = p.place.past w := rfl

theorem Progress.past_rest {rest : List Char} (starts : p.place.rest = w ++ rest) : (p.past w).place.rest = rest :=
  Place.past_rest starts

namespace Expr

/-- The pattern looks at nothing else and keeps nothing. -/
def plain : Expr → Bool
  | nothing | char _ => true
  | look _ | group _ _ => false
  | seq a b | alt a b => a.plain && b.plain
  | .repeat a _ _ _ => a.plain

/-- The pattern spells a word. -/
def Spells : Expr → List Char → Prop
  | nothing, w => w = []
  | char set, w => ∃ c, set.has c ∧ w = [c]
  | look _, _ => False
  | seq a b, w => ∃ u v, a.Spells u ∧ b.Spells v ∧ w = u ++ v
  | alt a b, w => a.Spells w ∨ b.Spells w
  | group _ a, w => a.Spells w
  | .repeat a least most _, w =>
    ∃ ws : List (List Char), least ≤ ws.length ∧ (∀ m ∈ most, ws.length ≤ m) ∧ (∀ u ∈ ws, a.Spells u) ∧ w = ws.flatten

theorem rounds_iff_words {ways : Progress → Progress → Prop} {words : List Char → Prop}
    (step : ∀ p q, ways p q ↔ ∃ w, words w ∧ w <+: p.place.rest ∧ q = p.past w) {n : Nat} :
    Rounds ways n p q ↔ ∃ ws : List (List Char), ws.length = n ∧ (∀ u ∈ ws, words u) ∧ ws.flatten <+: p.place.rest ∧
      q = p.past ws.flatten := by
  constructor
  · intro rounds
    induction rounds with
    | none => exact ⟨[], rfl, nofun, List.nil_prefix, rfl⟩
    | more round _ ih =>
      obtain ⟨u, word, ⟨rest, starts⟩, rfl⟩ := (step ..).mp round
      obtain ⟨ws, length, words, prefixed, rfl⟩ := ih
      rw [Progress.past_rest starts.symm] at prefixed
      refine ⟨u :: ws, by rw [List.length_cons, length], List.forall_mem_cons.mpr ⟨word, words⟩, ?_,
        by rw [Progress.past_past, List.flatten_cons]⟩
      rw [← starts, List.flatten_cons]
      exact (List.prefix_append_right_inj u).mpr prefixed
  · rintro ⟨ws, rfl, words, prefixed, rfl⟩
    induction ws generalizing p with
    | nil => exact .none
    | cons u ws ih =>
      obtain ⟨word, words⟩ := List.forall_mem_cons.mp words
      obtain ⟨rest, starts⟩ := prefixed
      rw [List.flatten_cons, List.append_assoc] at starts
      refine .more ((step ..).mpr ⟨u, word, ⟨_, starts⟩, rfl⟩) ?_
      rw [List.flatten_cons, ← Progress.past_past]
      refine ih words ⟨rest, ?_⟩
      rw [Progress.past_rest starts.symm]

/-- A plain pattern leads over the words that it spells. -/
theorem leads_iff_spells (plain : e.plain) :
    e.Leads p q ↔ ∃ w, e.Spells w ∧ w <+: p.place.rest ∧ q = p.past w := by
  induction e generalizing p q with
  | nothing => simp [Leads, Spells]
  | char set =>
    constructor
    · rintro ⟨c, rest, starts, has, rfl⟩
      exact ⟨[c], ⟨c, has, rfl⟩, ⟨rest, starts.symm⟩, by simp [Progress.past, Place.past, starts]⟩
    · rintro ⟨_, ⟨c, has, rfl⟩, ⟨rest, starts⟩, rfl⟩
      exact ⟨c, rest, starts.symm, has, by simp [Progress.past, Place.past, ← starts]⟩
  | look => cases plain
  | group => cases plain
  | seq a b first second =>
    rw [Expr.plain, Bool.and_eq_true] at plain
    constructor
    · rintro ⟨m, left, right⟩
      obtain ⟨u, spelled, ⟨rest, starts⟩, rfl⟩ := (first plain.1).mp left
      obtain ⟨v, spelled', prefixed, rfl⟩ := (second plain.2).mp right
      rw [Progress.past_rest starts.symm] at prefixed
      exact ⟨u ++ v, ⟨u, v, spelled, spelled', rfl⟩, starts ▸ (List.prefix_append_right_inj u).mpr prefixed,
        Progress.past_past ..⟩
    · rintro ⟨_, ⟨u, v, spelled, spelled', rfl⟩, ⟨rest, starts⟩, rfl⟩
      rw [List.append_assoc] at starts
      refine ⟨p.past u, (first plain.1).mpr ⟨u, spelled, ⟨_, starts⟩, rfl⟩,
        (second plain.2).mpr ⟨v, spelled', ⟨rest, ?_⟩, (Progress.past_past ..).symm⟩⟩
      rw [Progress.past_rest starts.symm]
  | alt a b first second =>
    rw [Expr.plain, Bool.and_eq_true] at plain
    rw [Leads, first plain.1, second plain.2, ← exists_or]
    exact exists_congr fun w => or_and_right.symm
  | «repeat» a least most greedy ih =>
    have step (p q : Progress) := @ih p q plain
    constructor
    · rintro ⟨n, many, few, rounds⟩
      obtain ⟨ws, rfl, words, prefixed, rfl⟩ := (rounds_iff_words step).mp rounds
      exact ⟨ws.flatten, ⟨ws, many, few, words, rfl⟩, prefixed, rfl⟩
    · rintro ⟨_, ⟨ws, many, few, words, rfl⟩, prefixed, rfl⟩
      exact ⟨ws.length, many, few, (rounds_iff_words step).mpr ⟨ws, rfl, words, prefixed, rfl⟩⟩

/-! ### Repetitions of characters -/

theorem spells_star : (Expr.repeat (.char set) 0 none greedy).Spells w ↔ ∀ c ∈ w, set.has c := by
  constructor
  · rintro ⟨ws, -, -, words, rfl⟩ c member
    obtain ⟨u, listed, member⟩ := List.mem_flatten.mp member
    obtain ⟨d, has, rfl⟩ := words u listed
    exact List.mem_singleton.mp member ▸ has
  · intro has
    refine ⟨w.map ([·]), Nat.zero_le _, nofun, List.forall_mem_map.mpr fun c member => ⟨c, has c member, rfl⟩, ?_⟩
    simp [List.flatten_eq_flatMap, List.flatMap_map]

theorem spells_optional : (Expr.repeat e 0 (some 1) greedy).Spells w ↔ w = [] ∨ e.Spells w := by
  constructor
  · rintro ⟨ws, -, few, words, rfl⟩
    match ws, few 1 rfl with
    | [], _ => exact .inl rfl
    | [u], _ =>
      rw [List.flatten_singleton]
      exact .inr (words u (List.mem_singleton_self u))
    | _ :: _ :: _, few => simp at few
  · rintro (rfl | spelled)
    · exact ⟨[], Nat.le.refl, by simp, nofun, rfl⟩
    · exact ⟨[w], Nat.zero_le _, by simp, List.forall_mem_singleton.mpr spelled, (List.flatten_singleton ..).symm⟩

/-! ### Patterns in a row -/

/-- Patterns one after the other. -/
def sequence (es : List Expr) : Expr := es.foldl seq nothing

/-- Patterns for the characters of a word. -/
def literal (w : List Char) : List Expr := w.map fun c => char (.single c)

def LeadsAll : List Expr → Progress → Progress → Prop
  | [], p, q => q = p
  | e :: es, p, r => ∃ q, e.Leads p q ∧ LeadsAll es q r

def SpellsAll : List Expr → List Char → Prop
  | [], w => w = []
  | e :: es, w => ∃ u v, e.Spells u ∧ SpellsAll es v ∧ w = u ++ v

theorem leads_sequence : (sequence es).Leads p r ↔ LeadsAll es p r := by
  have chained (a : Expr) : (es.foldl seq a).Leads p r ↔ ∃ q, a.Leads p q ∧ LeadsAll es q r := by
    induction es generalizing a with
    | nil => exact ⟨fun leads => ⟨r, leads, rfl⟩, fun ⟨q, leads, same⟩ => same ▸ leads⟩
    | cons e es ih =>
      rw [List.foldl_cons, ih]
      constructor
      · rintro ⟨m, ⟨q, first, second⟩, rest⟩
        exact ⟨q, first, m, second, rest⟩
      · rintro ⟨q, first, m, second, rest⟩
        exact ⟨m, ⟨q, first, second⟩, rest⟩
  rw [sequence, chained]
  exact ⟨fun ⟨q, same, leads⟩ => same ▸ leads, fun leads => ⟨p, rfl, leads⟩⟩

theorem spells_sequence : (sequence es).Spells w ↔ SpellsAll es w := by
  have chained (a : Expr) (w : List Char) :
      (es.foldl seq a).Spells w ↔ ∃ u v, a.Spells u ∧ SpellsAll es v ∧ w = u ++ v := by
    induction es generalizing a w with
    | nil =>
      refine ⟨fun spelled => ⟨w, [], spelled, rfl, (List.append_nil w).symm⟩, ?_⟩
      rintro ⟨u, v, spelled, rfl, rfl⟩
      rwa [List.append_nil]
    | cons e es ih =>
      rw [List.foldl_cons, ih]
      constructor
      · rintro ⟨_, v, ⟨t, u, first, second, rfl⟩, rest, rfl⟩
        exact ⟨t, u ++ v, first, ⟨u, v, second, rest, rfl⟩, List.append_assoc ..⟩
      · rintro ⟨t, _, first, ⟨u, v, second, rest, rfl⟩, rfl⟩
        exact ⟨t ++ u, v, ⟨t, u, first, second, rfl⟩, rest, (List.append_assoc ..).symm⟩
  rw [sequence, chained]
  exact ⟨fun ⟨u, v, empty, spelled, same⟩ => by rw [same, empty]; exact spelled,
    fun spelled => ⟨[], w, rfl, spelled, rfl⟩⟩

@[simp] theorem has_single {c d : Char} : (CharClass.single c).has d = (d == c) := by
  rw [CharClass.single, CharClass.has, Bool.eq_iff_iff]
  simp only [Bool.and_eq_true, decide_eq_true_eq, beq_iff_eq]
  exact ⟨fun ⟨le, ge⟩ => Char.le_antisymm ge le, fun same => same ▸ ⟨Char.le_refl d, Char.le_refl d⟩⟩

@[simp] theorem has_empty (c : Char) : CharClass.empty.has c = false := rfl

theorem spellsAll_literal (v : List Char) :
    SpellsAll (literal v ++ es) w ↔ ∃ rest, SpellsAll es rest ∧ w = v ++ rest := by
  induction v generalizing w with
  | nil => simp [literal]
  | cons c v ih =>
    rw [literal, List.map_cons, List.cons_append, ← literal, SpellsAll]
    simp only [ih, Spells, has_single, beq_iff_eq]
    constructor
    · rintro ⟨_, _, ⟨d, rfl, rfl⟩, ⟨rest, spelled, rfl⟩, rfl⟩
      exact ⟨rest, spelled, rfl⟩
    · rintro ⟨rest, spelled, rfl⟩
      exact ⟨[c], v ++ rest, ⟨c, rfl, rfl⟩, ⟨rest, spelled, rfl⟩, rfl⟩

theorem leadsAll_append {fs : List Expr} :
    LeadsAll (es ++ fs) p r ↔ ∃ q, LeadsAll es p q ∧ LeadsAll fs q r := by
  induction es generalizing p with
  | nil => exact ⟨fun leads => ⟨p, rfl, leads⟩, fun ⟨q, same, leads⟩ => same ▸ leads⟩
  | cons e es ih =>
    simp only [List.cons_append, LeadsAll, ih]
    exact ⟨fun ⟨q, first, m, second, rest⟩ => ⟨m, ⟨q, first, second⟩, rest⟩,
      fun ⟨m, ⟨q, first, second⟩, rest⟩ => ⟨q, first, m, second, rest⟩⟩

/-- Plain patterns in a row lead over the words that they spell. -/
theorem leadsAll_iff_spells (plain : ∀ e ∈ es, e.plain) :
    LeadsAll es p q ↔ ∃ w, SpellsAll es w ∧ w <+: p.place.rest ∧ q = p.past w := by
  have whole (es : List Expr) (a : Expr) (first : a.plain) (plain : ∀ e ∈ es, e.plain) : (es.foldl .seq a).plain := by
    induction es generalizing a with
    | nil => exact first
    | cons e es ih =>
      obtain ⟨head, plain⟩ := List.forall_mem_cons.mp plain
      exact ih _ (Bool.and_eq_true_iff.mpr ⟨first, head⟩) plain
  have plain : (sequence es).plain := whole es .nothing rfl plain
  rw [← leads_sequence, leads_iff_spells plain]
  simp only [spells_sequence]

theorem spellsAll_cons {u v : List Char} (first : e.Spells u) (rest : SpellsAll es v) :
    SpellsAll (e :: es) (u ++ v) := ⟨u, v, first, rest, rfl⟩

theorem spellsAll_char {c : Char} :
    SpellsAll (.char (.single c) :: es) w ↔ ∃ v, SpellsAll es v ∧ w = c :: v :=
  spellsAll_literal [c]

end Expr

end SourceRepair.Pattern
