import SourceRepair.Proofs.Pattern.Replacing

/-!
# What groups take

A pattern whose groups stand outside of repetitions leads from a place over the words that it spells, and what its
groups take are parts of these words. `Expr.Takes` says which, without the places, so what a match is made of can be
read off the pattern part by part.
-/

namespace SourceRepair

def Text.AreSpaces (w : List Char) : Prop := ∀ c ∈ w, Text.isSpace c

namespace Pattern

namespace Expr

variable {a b e : Expr} {es fs : List Expr} {w : List Char} {c d : Captures} {set : CharClass} {greedy : Bool}
  {p q : Progress}

/-! ### Words of patterns in a row -/

theorem spellsAll_append : SpellsAll (es ++ fs) w ↔ ∃ u v, SpellsAll es u ∧ SpellsAll fs v ∧ w = u ++ v := by
  induction es generalizing w with
  | nil => simp [SpellsAll]
  | cons e es ih =>
    simp only [List.cons_append, SpellsAll, ih]
    constructor
    · rintro ⟨s, _, first, ⟨u, v, second, third, rfl⟩, rfl⟩
      exact ⟨s ++ u, v, ⟨s, u, first, second, rfl⟩, third, (List.append_assoc ..).symm⟩
    · rintro ⟨_, v, ⟨s, u, first, second, rfl⟩, third, rfl⟩
      exact ⟨s, u ++ v, first, ⟨u, v, second, third, rfl⟩, List.append_assoc ..⟩

theorem spellsAll_set : SpellsAll (.char set :: es) w ↔ ∃ c v, set.has c ∧ SpellsAll es v ∧ w = c :: v := by
  constructor
  · rintro ⟨_, v, ⟨c, has, rfl⟩, rest, rfl⟩
    exact ⟨c, v, has, rest, rfl⟩
  · rintro ⟨c, v, has, rest, rfl⟩
    exact ⟨[c], v, ⟨c, has, rfl⟩, rest, rfl⟩

theorem spellsAll_cons_iff : SpellsAll (e :: es) w ↔ ∃ u v, e.Spells u ∧ SpellsAll es v ∧ w = u ++ v := Iff.rfl

theorem spellsAll_single : SpellsAll [e] w ↔ e.Spells w := by
  simp [SpellsAll]

theorem spellsAll_word (v : List Char) : SpellsAll (literal v) w ↔ w = v := by
  have word : SpellsAll (literal v ++ []) w ↔ ∃ rest, SpellsAll [] rest ∧ w = v ++ rest := spellsAll_literal v
  simpa [SpellsAll] using word

theorem spells_plus : (Expr.repeat (.char set) 1 none greedy).Spells w ↔ w ≠ [] ∧ ∀ c ∈ w, set.has c := by
  constructor
  · rintro ⟨ws, many, few, words, rfl⟩
    have star : (Expr.repeat (.char set) 0 none greedy).Spells ws.flatten :=
      ⟨ws, Nat.zero_le _, few, words, rfl⟩
    have all : ∀ c ∈ ws.flatten, set.has c := spells_star.mp star
    refine ⟨?_, all⟩
    cases ws with
    | nil => simp at many
    | cons u ws =>
      obtain ⟨c, -, rfl⟩ := words u List.mem_cons_self
      simp
  · rintro ⟨some, all⟩
    have star : (Expr.repeat (.char set) 0 none greedy).Spells w := spells_star.mpr all
    obtain ⟨ws, -, few, words, whole⟩ := star
    refine ⟨ws, ?_, few, words, whole⟩
    cases ws with
    | nil => exact absurd whole some
    | cons u ws => simp

/-! ### Groups -/

/-- The pattern spells a word, and its groups add to what was taken before. -/
def Takes : Expr → List Char → Captures → Captures → Prop
  | seq a b, w, c, d => ∃ u v m, a.Takes u c m ∧ b.Takes v m d ∧ w = u ++ v
  | alt a b, w, c, d => a.Takes w c d ∨ b.Takes w c d
  | group i a, w, c, d => ∃ m, a.Takes w c m ∧ d = (i, w) :: m
  | e, w, c, d => e.Spells w ∧ d = c

/-- The pattern looks at nothing else, and has its groups outside of repetitions. -/
def grouped : Expr → Bool
  | seq a b | alt a b => a.grouped && b.grouped
  | group _ a => a.grouped
  | e => e.plain

theorem takes_plain (plain : e.plain) : e.Takes w c d ↔ e.Spells w ∧ d = c := by
  induction e generalizing w c d with
  | nothing | char | «repeat» => rfl
  | look | group => cases plain
  | seq a b first second =>
    rw [Expr.plain, Bool.and_eq_true] at plain
    simp only [Takes, Spells, first plain.1, second plain.2]
    constructor
    · rintro ⟨u, v, _, ⟨left, rfl⟩, ⟨right, rfl⟩, rfl⟩
      exact ⟨⟨u, v, left, right, rfl⟩, rfl⟩
    · rintro ⟨⟨u, v, left, right, rfl⟩, rfl⟩
      exact ⟨u, v, d, ⟨left, rfl⟩, ⟨right, rfl⟩, rfl⟩
  | alt a b first second =>
    rw [Expr.plain, Bool.and_eq_true] at plain
    simp only [Takes, Spells, first plain.1, second plain.2, or_and_right]

theorem leads_iff_takes_of_plain (plain : e.plain) :
    e.Leads p q ↔ ∃ w d, e.Takes w p.captures d ∧ w <+: p.place.rest ∧ q = ⟨p.place.past w, d⟩ := by
  simp only [leads_iff_spells plain, takes_plain plain]
  constructor
  · rintro ⟨w, spelled, starts, rfl⟩
    exact ⟨w, _, ⟨spelled, rfl⟩, starts, rfl⟩
  · rintro ⟨w, _, ⟨spelled, rfl⟩, starts, rfl⟩
    exact ⟨w, spelled, starts, rfl⟩

/-- The progress behind a word, with what groups have taken by then. -/
theorem leads_iff_takes (grouped : e.grouped) :
    e.Leads p q ↔ ∃ w d, e.Takes w p.captures d ∧ w <+: p.place.rest ∧ q = ⟨p.place.past w, d⟩ := by
  induction e generalizing p q with
  | nothing | char | «repeat» => exact leads_iff_takes_of_plain grouped
  | look => cases grouped
  | seq a b first second =>
    rw [Expr.grouped, Bool.and_eq_true] at grouped
    constructor
    · rintro ⟨m, left, right⟩
      obtain ⟨u, x, took, ⟨rest, starts⟩, rfl⟩ := (first grouped.1).mp left
      obtain ⟨v, y, took', ⟨rest', starts'⟩, rfl⟩ := (second grouped.2).mp right
      rw [Place.past_rest starts.symm] at starts'
      refine ⟨u ++ v, y, ⟨u, v, x, took, took', rfl⟩, ⟨rest', ?_⟩, ?_⟩
      · rw [List.append_assoc, starts', starts]
      · rw [Place.past_past]
    · rintro ⟨_, y, ⟨u, v, x, took, took', rfl⟩, ⟨rest, starts⟩, rfl⟩
      rw [List.append_assoc] at starts
      refine ⟨⟨p.place.past u, x⟩, (first grouped.1).mpr ⟨u, x, took, ⟨_, starts⟩, rfl⟩, (second grouped.2).mpr ?_⟩
      refine ⟨v, y, took', ⟨rest, ?_⟩, ?_⟩
      · rw [Place.past_rest starts.symm]
      · rw [Place.past_past]
  | alt a b first second =>
    rw [Expr.grouped, Bool.and_eq_true] at grouped
    simp only [Leads, Takes, first grouped.1, second grouped.2, or_and_right, exists_or]
  | group i a ih =>
    constructor
    · rintro ⟨m, inner, rfl⟩
      obtain ⟨w, x, took, ⟨rest, starts⟩, rfl⟩ := (ih grouped).mp inner
      exact ⟨w, _, ⟨x, took, rfl⟩, ⟨rest, starts⟩, by rw [Place.until_past starts.symm]⟩
    · rintro ⟨w, _, ⟨x, took, rfl⟩, ⟨rest, starts⟩, rfl⟩
      exact ⟨⟨p.place.past w, x⟩, (ih grouped).mpr ⟨w, x, took, ⟨rest, starts⟩, rfl⟩, by rw [Place.until_past starts.symm]⟩

/-! ### Groups of patterns in a row -/

def TakesAll : List Expr → List Char → Captures → Captures → Prop
  | [], w, c, d => w = [] ∧ d = c
  | e :: es, w, c, d => ∃ u v m, e.Takes u c m ∧ TakesAll es v m d ∧ w = u ++ v

theorem takesAll_nil : TakesAll [] w c d ↔ w = [] ∧ d = c := Iff.rfl

theorem takes_sequence : (sequence es).Takes w c d ↔ TakesAll es w c d := by
  have chained (a : Expr) (w : List Char) (d : Captures) :
      (es.foldl seq a).Takes w c d ↔ ∃ u v m, a.Takes u c m ∧ TakesAll es v m d ∧ w = u ++ v := by
    induction es generalizing a w d with
    | nil =>
      constructor
      · intro took
        exact ⟨w, [], d, took, ⟨rfl, rfl⟩, (List.append_nil w).symm⟩
      · rintro ⟨u, _, m, took, ⟨rfl, rfl⟩, rfl⟩
        rwa [List.append_nil]
    | cons e es ih =>
      rw [List.foldl_cons, ih]
      constructor
      · rintro ⟨_, v, m, ⟨s, u, x, first, second, rfl⟩, third, rfl⟩
        exact ⟨s, u ++ v, x, first, ⟨u, v, m, second, third, rfl⟩, List.append_assoc ..⟩
      · rintro ⟨s, _, x, first, ⟨u, v, m, second, third, rfl⟩, rfl⟩
        exact ⟨s ++ u, v, m, ⟨s, u, x, first, second, rfl⟩, third, (List.append_assoc ..).symm⟩
  rw [sequence, chained]
  constructor
  · rintro ⟨_, v, _, ⟨rfl, rfl⟩, took, rfl⟩
    exact took
  · intro took
    exact ⟨[], w, c, ⟨rfl, rfl⟩, took, rfl⟩

theorem takesAll_append : TakesAll (es ++ fs) w c d ↔ ∃ u v m, TakesAll es u c m ∧ TakesAll fs v m d ∧ w = u ++ v := by
  induction es generalizing w c with
  | nil =>
    constructor
    · intro took
      exact ⟨[], w, c, ⟨rfl, rfl⟩, took, rfl⟩
    · rintro ⟨_, v, _, ⟨rfl, rfl⟩, took, rfl⟩
      exact took
  | cons e es ih =>
    simp only [List.cons_append, TakesAll, ih]
    constructor
    · rintro ⟨s, _, x, first, ⟨u, v, m, second, third, rfl⟩, rfl⟩
      exact ⟨s ++ u, v, m, ⟨s, u, x, first, second, rfl⟩, third, (List.append_assoc ..).symm⟩
    · rintro ⟨_, v, m, ⟨s, u, x, first, second, rfl⟩, third, rfl⟩
      exact ⟨s, u ++ v, x, first, ⟨u, v, m, second, third, rfl⟩, List.append_assoc ..⟩

theorem takesAll_plain (plain : ∀ e ∈ es, e.plain) : TakesAll es w c d ↔ SpellsAll es w ∧ d = c := by
  induction es generalizing w c with
  | nil => rfl
  | cons e es ih =>
    obtain ⟨first, plain⟩ := List.forall_mem_cons.mp plain
    simp only [TakesAll, SpellsAll, takes_plain first, ih plain]
    constructor
    · rintro ⟨u, v, _, ⟨head, rfl⟩, ⟨tail, rfl⟩, rfl⟩
      exact ⟨⟨u, v, head, tail, rfl⟩, rfl⟩
    · rintro ⟨⟨u, v, head, tail, rfl⟩, rfl⟩
      exact ⟨u, v, d, ⟨head, rfl⟩, ⟨tail, rfl⟩, rfl⟩

theorem takesAll_literal (v : List Char) :
    TakesAll (literal v ++ es) w c d ↔ ∃ rest, TakesAll es rest c d ∧ w = v ++ rest := by
  have plain : ∀ e ∈ literal v, e.plain := by simp [literal, Expr.plain]
  simp only [takesAll_append, takesAll_plain plain, spellsAll_word]
  constructor
  · rintro ⟨_, rest, _, ⟨rfl, rfl⟩, took, rfl⟩
    exact ⟨rest, took, rfl⟩
  · rintro ⟨rest, took, rfl⟩
    exact ⟨v, rest, c, ⟨rfl, rfl⟩, took, rfl⟩

theorem takesAll_char {x : Char} :
    TakesAll (.char (.single x) :: es) w c d ↔ ∃ rest, TakesAll es rest c d ∧ w = x :: rest :=
  takesAll_literal [x]

theorem takesAll_plain_cons (plain : e.plain) :
    TakesAll (e :: es) w c d ↔ ∃ u v, e.Spells u ∧ TakesAll es v c d ∧ w = u ++ v := by
  simp only [TakesAll, takes_plain plain]
  constructor
  · rintro ⟨u, v, _, ⟨spelled, rfl⟩, took, rfl⟩
    exact ⟨u, v, spelled, took, rfl⟩
  · rintro ⟨u, v, spelled, took, rfl⟩
    exact ⟨u, v, c, ⟨spelled, rfl⟩, took, rfl⟩

/-- A group takes the word of the patterns in it. -/
theorem takesAll_group {i : Nat} : TakesAll (group i (sequence fs) :: es) w c d ↔
    ∃ u v m, TakesAll fs u c m ∧ TakesAll es v ((i, u) :: m) d ∧ w = u ++ v := by
  simp only [TakesAll, Takes, takes_sequence]
  constructor
  · rintro ⟨u, v, _, ⟨m, inner, rfl⟩, took, rfl⟩
    exact ⟨u, v, m, inner, took, rfl⟩
  · rintro ⟨u, v, m, inner, took, rfl⟩
    exact ⟨u, v, _, ⟨m, inner, rfl⟩, took, rfl⟩

theorem takesAll_group_plain {i : Nat} (plain : e.plain) : TakesAll (group i e :: es) w c d ↔
    ∃ u v, e.Spells u ∧ TakesAll es v ((i, u) :: c) d ∧ w = u ++ v := by
  simp only [TakesAll, Takes, takes_plain plain]
  constructor
  · rintro ⟨u, v, _, ⟨_, ⟨spelled, rfl⟩, rfl⟩, took, rfl⟩
    exact ⟨u, v, spelled, took, rfl⟩
  · rintro ⟨u, v, spelled, took, rfl⟩
    exact ⟨u, v, _, ⟨c, ⟨spelled, rfl⟩, rfl⟩, took, rfl⟩

/-! ### Spaces -/

/-- At least so many spaces. -/
def spaces (least : Nat) : Expr := .repeat (.char .space) least none true

theorem spells_spaces : (spaces 0).Spells w ↔ Text.AreSpaces w := spells_star

theorem spells_someSpaces : (spaces 1).Spells w ↔ w ≠ [] ∧ Text.AreSpaces w := spells_plus

end Expr

namespace Regex

variable {r : Regex} {p : Place} {m : Match} {ms : List Match} {es : List Expr}

/-- A pattern whose match can be read off its parts. -/
structure Reads (r : Regex) (es : List Expr) : Prop where
  parts : r.expr = Expr.sequence es
  grouped : r.expr.grouped
  scans : r.Scans

theorem Reads.leads_iff (reads : r.Reads es) {q : Progress} :
    r.expr.Leads ⟨p, []⟩ q ↔ ∃ w d, Expr.TakesAll es w [] d ∧ w <+: p.rest ∧ q = ⟨p.past w, d⟩ := by
  rw [Expr.leads_iff_takes reads.grouped, reads.parts]
  simp only [Expr.takes_sequence]

/-- A match takes a word that its pattern spells. -/
theorem Reads.matched (reads : r.Reads es) (found : r.matchAt? p = some m) :
    ∃ w, Expr.TakesAll es w [] m.captures ∧ p.rest = w ++ m.stop.rest ∧ m.stop = p.past w ∧ m.text = w := by
  obtain ⟨w, d, took, ⟨rest, starts⟩, same⟩ := reads.leads_iff.mp (leads_of_matchAt reads.scans.bounded found)
  obtain ⟨stop, captures⟩ := Progress.mk.inj same
  refine ⟨w, captures ▸ took, ?_, stop, ?_⟩
  · rw [stop, Place.past_rest starts.symm, starts]
  · rw [Match.text, stop, start_of_matchAt found, Place.until_past starts.symm]

/-- Where the pattern spells a word it matches. -/
theorem Reads.isSome_matchAt (reads : r.Reads es) {w rest : List Char} {d : Captures} (took : Expr.TakesAll es w [] d)
    (starts : p.rest = w ++ rest) : (r.matchAt? p).isSome := by
  have leads : r.expr.Leads ⟨p, []⟩ ⟨p.past w, d⟩ := reads.leads_iff.mpr ⟨w, d, took, ⟨rest, starts.symm⟩, rfl⟩
  rw [matchAt?, Option.isSome_map]
  exact Expr.isSome_run reads.scans.brisk leads rfl

/-- Each match of a pass stands in the rest of the text. -/
theorem Swept.of_mem (swept : r.Swept p ms) (reads : r.Reads es) (member : m ∈ ms) :
    Expr.TakesAll es m.text [] m.captures ∧ m.text <:+: p.rest := by
  induction swept with
  | stop => cases member
  | skip _ next _ ih =>
    obtain ⟨c, starts, -⟩ := Place.rest_of_next? next
    obtain ⟨took, inside⟩ := ih member
    exact ⟨took, starts ▸ List.infix_cons inside⟩
  | take found _ ih =>
    obtain ⟨w, took, starts, -, text⟩ := reads.matched found
    rcases List.mem_cons.mp member with rfl | member
    · rw [text]
      exact ⟨took, [], _, starts.symm⟩
    · obtain ⟨took', before, after, inside⟩ := ih member
      exact ⟨took', w ++ before, after, by rw [starts, ← inside]; simp⟩

theorem of_mem_allMatches (reads : r.Reads es) {text : List Char} (member : m ∈ r.allMatches text) :
    Expr.TakesAll es m.text [] m.captures ∧ m.text <:+: text :=
  (swept_allMatches reads.scans text).of_mem reads member

end Regex

/-! ### Texts after a pass -/

/-- A text in which every site, from left to right, got what stands for it, and all else stayed. -/
inductive Rewritten (site : List Char → List Char → Prop) : List Char → List Char → Prop
  | nil : Rewritten site [] []
  | skip {c : Char} {text out : List Char} (none : ∀ w g, site w g → ¬w <+: c :: text) (rest : Rewritten site text out) :
    Rewritten site (c :: text) (c :: out)
  | site {w g text out : List Char} (here : site w g) (rest : Rewritten site text out) :
    Rewritten site (w ++ text) (g ++ out)

variable {site : List Char → List Char → Prop} {text out : List Char} {f : Match → List Char} {r : Regex} {p : Place}
  {ms : List Match} {es : List Expr}

/-- The induction is on the pass over the text: where nothing matches no site starts, and a match is one. -/
theorem rewritten_replaceMatches (reads : r.Reads es) (swept : r.Swept p ms)
    (sites : ∀ m : Match, Expr.TakesAll es m.text [] m.captures → site m.text (f m))
    (only : ∀ w g, site w g → ∃ d, Expr.TakesAll es w [] d) :
    Rewritten site p.rest (replaceMatches f ms p) := by
  induction swept with
  | stop _ ends =>
    rw [replaceMatches, ends]
    exact .nil
  | skip none next rest ih =>
    obtain ⟨c, starts, replaced⟩ := Regex.replaceMatches_skip (f := f) next rest
    rw [replaced, starts]
    refine .skip (fun w g here found => ?_) ih
    obtain ⟨rest, same⟩ := starts ▸ found
    obtain ⟨d, took⟩ := only w g here
    have matched := reads.isSome_matchAt took same.symm
    rw [none] at matched
    cases matched
  | take found rest ih =>
    obtain ⟨w, took, starts, -, text⟩ := reads.matched found
    rw [Regex.replaceMatches_take found, starts]
    subst text
    exact .site (sites _ took) ih

/-- A text stays as it is just where it has no sites, if what stands for a site always differs from it. -/
theorem Rewritten.eq_iff (changes : ∀ w g text rest, site w g → g ++ rest ≠ w ++ text)
    (rewritten : Rewritten site text out) : out = text ↔ ∀ w g, site w g → ¬w <:+: text := by
  induction rewritten with
  | nil =>
    refine ⟨fun _ w g here inside => ?_, fun _ => rfl⟩
    obtain rfl : w = [] := List.infix_nil.mp inside
    exact changes [] g (g ++ []) [] here rfl
  | skip none _ ih =>
    rw [List.cons.injEq, eq_self, true_and, ih]
    constructor
    · intro nowhere w g here inside
      rcases List.infix_cons_iff.mp inside with starts | later
      · exact none w g here starts
      · exact nowhere w g here later
    · intro nowhere w g here inside
      exact nowhere w g here (List.infix_cons inside)
  | site here _ _ =>
    constructor
    · intro same
      exact absurd same (changes _ _ _ _ here)
    · intro nowhere
      exact absurd (List.prefix_append _ _).isInfix (nowhere _ _ here)

end Pattern

end SourceRepair
