import SourceRepair.Learning.Extract
import SourceRepair.Proofs.Fallback.Diagnostics
import SourceRepair.Proofs.Learning.Compiled

/-!
# The learned removal of diagnostic lines

The rule that is learned from a removal is one pattern over the whole text. Its matches are the runs of diagnostic
lines at the start of the text or below a line that ends in `;`, `{` or `}`, with the blank lines and comments
between, so replacing them is a scan over the lines. The scan is not the one over lines of code: a comment that
ends like a statement counts as one, and what stands below a run counts for nothing.
-/

namespace SourceRepair.Learning

open Fallback (linesOf linesOf_line AreLines IsDiagnostic lineRegex diagnosticLine_eq diagnosticLine_isMatch blanks
  lineBreak diagnosticPattern isCode endsStatement statementStarts statementStarts_eq dropDiagnostics removeDiagnostics)
open Pattern (Regex Place Progress Match CharClass Expr Look Rounds toList_of_chars toList_append_of)
open Pattern.Expr (SpellsAll LeadsAll rounds_iff_words)

variable {p : Place} {q : Progress} {w line : List Char} {lines : List (List Char)}

/-! ### Lines of the pattern -/

def IsIndent (w : List Char) : Prop := ∀ c ∈ w, c = ' ' ∨ c = '\t'

def IsBreak (w : List Char) : Prop := w = ['\n'] ∨ w = ['\r', '\n']

/-- The end of a line below which a run may stand. -/
def IsOpening (w : List Char) : Prop :=
  ∃ c blank ending, (c = ';' ∨ c = '\x7b' ∨ c = '\x7d') ∧ IsIndent blank ∧ IsBreak ending ∧ w = c :: blank ++ ending

/-- A blank line or a comment. -/
def IsPassed (w : List Char) : Prop :=
  ∃ blank comment ending, IsIndent blank ∧ (comment = [] ∨ ∃ text, '\n' ∉ text ∧ comment = '/' :: '/' :: text) ∧
    IsBreak ending ∧ w = blank ++ comment ++ ending

/-- A line with its only newline at the end. -/
def IsLine (w : List Char) : Prop := ∃ body, '\n' ∉ body ∧ w = body ++ ['\n']

theorem IsIndent.one_line (blank : IsIndent w) : '\n' ∉ w := fun inside => by
  simpa using blank _ inside

theorem IsBreak.isLine (ends : IsBreak w) : IsLine w := by
  rcases ends with rfl | rfl
  · exact ⟨[], List.not_mem_nil, rfl⟩
  · exact ⟨['\r'], by decide, rfl⟩

theorem IsLine.append {front : List Char} (one : '\n' ∉ front) (ends : IsLine w) : IsLine (front ++ w) := by
  obtain ⟨body, none, rfl⟩ := ends
  exact ⟨front ++ body, by simp [one, none], (List.append_assoc ..).symm⟩

theorem IsOpening.isLine (opening : IsOpening w) : IsLine w := by
  obtain ⟨c, blank, ending, ender, indent, ends, rfl⟩ := opening
  have one : '\n' ∉ c :: blank := by
    rw [List.mem_cons, not_or]
    exact ⟨by rcases ender with rfl | rfl | rfl <;> decide, indent.one_line⟩
  exact ends.isLine.append one

theorem IsPassed.isLine (passed : IsPassed w) : IsLine w := by
  obtain ⟨blank, comment, ending, indent, remark, ends, rfl⟩ := passed
  refine ends.isLine.append ?_
  rw [List.mem_append, not_or]
  refine ⟨indent.one_line, ?_⟩
  rcases remark with rfl | ⟨text, one, rfl⟩
  · exact List.not_mem_nil
  · simpa using one

theorem IsLine.linesOf_append (ends : IsLine w) (rest : List Char) : linesOf (w ++ rest) = w :: linesOf rest := by
  obtain ⟨body, one, rfl⟩ := ends
  rw [List.append_assoc, List.singleton_append, linesOf_line one]

/-- Two lines at the start of one text are the same. -/
theorem IsLine.unique {v s t : List Char} (ends : IsLine w) (ends' : IsLine v) (same : w ++ s = v ++ t) :
    w = v ∧ s = t := by
  have listed := congrArg linesOf same
  rw [ends.linesOf_append, ends'.linesOf_append] at listed
  obtain ⟨rfl, -⟩ := List.cons.inj listed
  exact ⟨rfl, List.append_cancel_left same⟩

/-- Lines of one kind up to where none of the kind starts are determined by the text. -/
theorem run_unique {kind : List Char → Prop} (isLine : ∀ l, kind l → IsLine l) {xs ys : List (List Char)}
    {s t : List Char} (all : ∀ l ∈ xs, kind l) (all' : ∀ l ∈ ys, kind l) (last : ∀ l u, kind l → s ≠ l ++ u)
    (last' : ∀ l u, kind l → t ≠ l ++ u) (same : xs.flatten ++ s = ys.flatten ++ t) : xs = ys ∧ s = t := by
  induction xs generalizing ys with
  | nil =>
    cases ys with
    | nil => exact ⟨rfl, same⟩
    | cons y ys =>
      rw [List.flatten_nil, List.nil_append, List.flatten_cons, List.append_assoc] at same
      exact absurd same (last _ _ (all' y List.mem_cons_self))
  | cons x xs ih =>
    obtain ⟨first, all⟩ := List.forall_mem_cons.mp all
    cases ys with
    | nil =>
      rw [List.flatten_nil, List.nil_append, List.flatten_cons, List.append_assoc] at same
      exact absurd same.symm (last' _ _ first)
    | cons y ys =>
      obtain ⟨first', more⟩ := List.forall_mem_cons.mp all'
      rw [List.flatten_cons, List.flatten_cons, List.append_assoc, List.append_assoc] at same
      obtain ⟨rfl, later⟩ := (isLine _ first).unique (isLine _ first') same
      obtain ⟨rfl, rest⟩ := ih all more later
      exact ⟨rfl, rest⟩

/-! ### The first visible character of a line -/

def isIndentChar (c : Char) : Bool := c == ' ' || c == '\t'

def visible? (w : List Char) : Option Char := (w.dropWhile isIndentChar).head?

theorem visible?_indent {blank : List Char} (indent : IsIndent blank) (rest : List Char) :
    visible? (blank ++ rest) = visible? rest := by
  rw [visible?, List.dropWhile_append_of_pos fun c inside => by simpa [isIndentChar] using indent c inside, ← visible?]

theorem IsPassed.visible (passed : IsPassed w) : visible? w = some '/' ∨ visible? w = some '\r' ∨
    visible? w = some '\n' := by
  obtain ⟨blank, comment, ending, indent, remark, ends, rfl⟩ := passed
  rw [List.append_assoc, visible?_indent indent]
  rcases remark with rfl | ⟨text, -, rfl⟩
  · rcases ends with rfl | rfl
    · exact .inr (.inr rfl)
    · exact .inr (.inl rfl)
  · exact .inl rfl

theorem visible_of_isDiagnostic (diagnostic : IsDiagnostic w) : visible? w = some 'c' := by
  obtain ⟨call, rfl⟩ := diagnostic
  rw [Fallback.DiagnosticCall.line]
  simp only [List.append_assoc]
  rw [visible?_indent call.indented]
  rfl

theorem IsOpening.visible (opening : IsOpening w) : visible? w = some ';' ∨ visible? w = some '\x7b' ∨
    visible? w = some '\x7d' := by
  obtain ⟨c, blank, ending, ender, -, -, rfl⟩ := opening
  rcases ender with rfl | rfl | rfl
  · exact .inl rfl
  · exact .inr (.inl rfl)
  · exact .inr (.inr rfl)

theorem IsPassed.not_diagnostic (passed : IsPassed w) : ¬IsDiagnostic w := by
  intro diagnostic
  have shown := passed.visible
  rw [visible_of_isDiagnostic diagnostic] at shown
  simp at shown

theorem IsOpening.not_passed (opening : IsOpening w) : ¬IsPassed w := by
  intro passed
  rcases opening.visible with shown | shown | shown <;> simpa [shown] using passed.visible

theorem IsOpening.not_diagnostic (opening : IsOpening w) : ¬IsDiagnostic w := by
  intro diagnostic
  have shown := opening.visible
  rw [visible_of_isDiagnostic diagnostic] at shown
  simp at shown

/-! ### The pattern -/

def enders : CharClass := .unions [.single '\x7b', .single '\x7d', .single ';']

def openingPattern : Expr :=
  .alt (Expr.sequence [.look .textStart]) (Expr.sequence (.char enders :: blanks :: lineBreak))

def commentPattern : Expr :=
  .repeat (Expr.sequence [.char (.single '/'), .char (.single '/'),
    .repeat (.char (.complement (.unions [.single '\n']))) 0 none true]) 0 (some 1) true

def passedPattern : Expr := Expr.sequence (blanks :: commentPattern :: lineBreak)

/-- What stands before a run of diagnostic lines. -/
def runHead : Expr :=
  Expr.sequence [.group 1 openingPattern, .group 2 (Expr.sequence [.repeat passedPattern 0 none true])]

/-- The diagnostic lines of a run. -/
def runTail : Expr := .repeat (Expr.sequence diagnosticPattern) 1 none true

def runRegex : Regex := ⟨.seq runHead runTail, []⟩

def runRule : Compiled := ⟨runRegex, true, ['$', '\x7b', '1', '\x7d', '$', '\x7b', '2', '\x7d']⟩

theorem compile_run : compile (joinPattern diagnosticRunSource "g") "$1$2" = .ok runRule := by
  have read : Regex.read? diagnosticRunSource = some runRegex :=
    (Regex.read?_eq
      (toList_append_of (toList_append_of (toList_of_chars rfl) (toList_of_chars rfl)) (toList_of_chars rfl))).trans
      (by decide +kernel)
  have translated : translate "$1$2".toList = runRule.template := by decide +kernel
  rw [show ("g" : String) = String.ofList ['g'] from rfl, compile_join ['g'] (by decide) rfl rfl read, translated]
  rfl

/-! ### What the pattern matches -/

theorem spells_blanks : blanks.Spells w ↔ IsIndent w := Fallback.spells_blanks

theorem spellsAll_lineBreak : SpellsAll lineBreak w ↔ IsBreak w := by
  rw [Fallback.spellsAll_lineBreak]
  constructor
  · rintro ⟨_, rfl | rfl, rfl⟩
    · exact .inl rfl
    · exact .inr rfl
  · rintro (rfl | rfl)
    · exact ⟨[], .inl rfl, rfl⟩
    · exact ⟨['\r'], .inr rfl, rfl⟩

theorem has_enders {c : Char} : enders.has c ↔ c = ';' ∨ c = '\x7b' ∨ c = '\x7d' := by
  simp [enders, CharClass.has, CharClass.unions, or_comm]

theorem spells_opening : (Expr.sequence (.char enders :: blanks :: lineBreak)).Spells w ↔ IsOpening w := by
  rw [Expr.spells_sequence]
  constructor
  · rintro ⟨_, _, ⟨c, ender, rfl⟩, ⟨blank, ending, indent, ends, rfl⟩, rfl⟩
    exact ⟨c, blank, ending, has_enders.mp ender, spells_blanks.mp indent, spellsAll_lineBreak.mp ends, rfl⟩
  · rintro ⟨c, blank, ending, ender, indent, ends, rfl⟩
    exact ⟨[c], blank ++ ending, ⟨c, has_enders.mpr ender, rfl⟩,
      ⟨blank, ending, spells_blanks.mpr indent, spellsAll_lineBreak.mpr ends, rfl⟩, rfl⟩

theorem spells_comment :
    commentPattern.Spells w ↔ w = [] ∨ ∃ text, '\n' ∉ text ∧ w = '/' :: '/' :: text := by
  have has {c : Char} : (CharClass.complement (.unions [.single '\n'])).has c ↔ c ≠ '\n' := by
    simp [CharClass.has, CharClass.unions]
  rw [commentPattern, Expr.spells_optional, Expr.spells_sequence]
  refine or_congr Iff.rfl ?_
  simp only [Expr.spellsAll_char]
  constructor
  · rintro ⟨_, ⟨_, ⟨text, _, free, rfl, rfl⟩, rfl⟩, rfl⟩
    exact ⟨text, fun inside => has.mp (Expr.spells_star.mp free _ inside) rfl, by simp⟩
  · rintro ⟨text, one, rfl⟩
    refine ⟨_, ⟨_, ⟨text, [], Expr.spells_star.mpr fun c inside => has.mpr ?_, rfl, (List.append_nil text).symm⟩, rfl⟩, rfl⟩
    rintro rfl
    exact one inside

theorem spells_passed : passedPattern.Spells w ↔ IsPassed w := by
  rw [passedPattern, Expr.spells_sequence]
  constructor
  · rintro ⟨blank, _, indent, ⟨comment, ending, remark, ends, rfl⟩, rfl⟩
    exact ⟨blank, comment, ending, spells_blanks.mp indent, spells_comment.mp remark, spellsAll_lineBreak.mp ends,
      (List.append_assoc ..).symm⟩
  · rintro ⟨blank, comment, ending, indent, remark, ends, rfl⟩
    exact ⟨blank, comment ++ ending, spells_blanks.mpr indent,
      ⟨comment, ending, spells_comment.mpr remark, spellsAll_lineBreak.mpr ends, rfl⟩, List.append_assoc ..⟩

/-- A word that a match may start with. -/
def Opens (p : Place) (w : List Char) : Prop := w = [] ∧ p.before = none ∨ IsOpening w

theorem leads_opening {captures : Pattern.Captures} :
    (Expr.group 1 openingPattern).Leads ⟨p, captures⟩ q ↔
      ∃ w, Opens p w ∧ w <+: p.rest ∧ q = ⟨p.past w, (1, w) :: captures⟩ := by
  have plain : (Expr.sequence (.char enders :: blanks :: lineBreak)).plain := by decide
  constructor
  · rintro ⟨m, start | opening, rfl⟩
    · obtain ⟨_, ⟨first, rfl⟩, rfl⟩ := Expr.leads_sequence.mp start
      exact ⟨[], .inl ⟨rfl, Option.isNone_iff_eq_none.mp first⟩, List.nil_prefix, by simp [Place.until]⟩
    · obtain ⟨w, spelled, ⟨rest, starts⟩, rfl⟩ := (Expr.leads_iff_spells plain).mp opening
      refine ⟨w, .inr (spells_opening.mp spelled), ⟨rest, starts⟩, ?_⟩
      exact congrArg (fun taken => Progress.mk (p.past w) ((1, taken) :: captures)) (Place.until_past starts.symm)
  · rintro ⟨w, ⟨rfl, first⟩ | opening, ⟨rest, starts⟩, rfl⟩
    · refine ⟨⟨p, captures⟩, .inl (Expr.leads_sequence.mpr ⟨_, ⟨?_, rfl⟩, rfl⟩), by simp [Place.until]⟩
      rw [Look.holds, first]
      rfl
    · refine ⟨⟨p.past w, captures⟩,
        .inr ((Expr.leads_iff_spells plain).mpr ⟨w, spells_opening.mpr opening, ⟨rest, starts⟩, rfl⟩), ?_⟩
      exact congrArg (fun taken => Progress.mk (p.past w) ((1, taken) :: captures)) (Place.until_past starts.symm).symm

theorem leads_runHead : runHead.Leads ⟨p, []⟩ q ↔ ∃ (w : List Char) (passed : List (List Char)), Opens p w ∧
    (∀ l ∈ passed, IsPassed l) ∧ w ++ passed.flatten <+: p.rest ∧
      q = ⟨p.past (w ++ passed.flatten), [(2, passed.flatten), (1, w)]⟩ := by
  have words {w : List Char} : (Expr.sequence [.repeat passedPattern 0 none true]).Spells w ↔
      ∃ passed : List (List Char), (∀ l ∈ passed, IsPassed l) ∧ w = passed.flatten := by
    rw [Expr.spells_sequence]
    constructor
    · rintro ⟨_, _, ⟨passed, -, -, all, rfl⟩, rfl, rfl⟩
      exact ⟨passed, fun l member => spells_passed.mp (all l member), List.append_nil _⟩
    · rintro ⟨passed, all, rfl⟩
      exact ⟨_, [], ⟨passed, Nat.zero_le _, nofun, fun l member => spells_passed.mpr (all l member), rfl⟩, rfl,
        (List.append_nil _).symm⟩
  rw [runHead, Expr.leads_sequence]
  constructor
  · rintro ⟨_, first, _, second, rfl⟩
    obtain ⟨w, opens, ⟨rest, starts⟩, rfl⟩ := leads_opening.mp first
    obtain ⟨_, spelled, ⟨rest', starts'⟩, rfl⟩ := (Expr.leads_group (by decide)).mp second
    obtain ⟨passed, all, rfl⟩ := words.mp spelled
    rw [Place.past_rest starts.symm] at starts'
    refine ⟨w, passed, opens, all, ⟨rest', ?_⟩, ?_⟩
    · rw [List.append_assoc, starts', starts]
    · rw [Place.past_past]
  · rintro ⟨w, passed, opens, all, ⟨rest, starts⟩, rfl⟩
    rw [List.append_assoc] at starts
    refine ⟨_, leads_opening.mpr ⟨w, opens, ⟨_, starts⟩, rfl⟩, _,
      (Expr.leads_group (by decide)).mpr ⟨passed.flatten, words.mpr ⟨passed, all, rfl⟩, ⟨rest, ?_⟩, rfl⟩, ?_⟩
    · rw [Place.past_rest starts.symm]
    · rw [Place.past_past]
      rfl

/-- One round of the tail is one diagnostic line. -/
theorem diagnostic_of_leads {m : Progress} (leads : (Expr.sequence diagnosticPattern).Leads m q) :
    ∃ line rest, IsDiagnostic line ∧ m.place.rest = line ++ rest := by
  obtain ⟨line, spelled, ⟨rest, starts⟩, -⟩ := (Expr.leads_iff_spells (by decide)).mp leads
  exact ⟨line, rest, Fallback.spellsAll_diagnostic.mp (Expr.spells_sequence.mp spelled), starts.symm⟩

/-- No match starts where no run stands below. -/
theorem matchAt?_none (nowhere : ∀ w (passed : List (List Char)) line rest, Opens p w → (∀ l ∈ passed, IsPassed l) →
    IsDiagnostic line → p.rest ≠ w ++ (passed.flatten ++ (line ++ rest))) : runRegex.matchAt? p = none := by
  refine Regex.matchAt?_eq_none (by decide) fun q leads => ?_
  obtain ⟨m, head, n, many, -, rounds⟩ := leads
  obtain ⟨w, passed, opens, all, ⟨rest, starts⟩, rfl⟩ := leads_runHead.mp head
  cases rounds with
  | none => exact absurd many (by decide)
  | more round _ =>
    obtain ⟨line, rest', diagnostic, starts'⟩ := diagnostic_of_leads round
    refine nowhere w passed line rest' opens all diagnostic ?_
    rw [← starts', Place.past_rest starts.symm, ← List.append_assoc, starts]

theorem isLine_of_isDiagnostic (diagnostic : IsDiagnostic w) : IsLine w := diagnostic.one_line

/-- The first line of passed lines above a diagnostic line. -/
theorem first_line {passed : List (List Char)} (all : ∀ l ∈ passed, IsPassed l) (diagnostic : IsDiagnostic line)
    (rest : List Char) : ∃ l u, (IsPassed l ∨ IsDiagnostic l) ∧ passed.flatten ++ (line ++ rest) = l ++ u := by
  cases passed with
  | nil => exact ⟨line, rest, .inr diagnostic, rfl⟩
  | cons l passed => exact ⟨l, _, .inl (all l List.mem_cons_self), by rw [List.flatten_cons, List.append_assoc]⟩

theorem opens_unique {v s t : List Char} {passed passed' : List (List Char)} {line' : List Char} (opens : Opens p w)
    (opens' : Opens p v) (all : ∀ l ∈ passed, IsPassed l) (all' : ∀ l ∈ passed', IsPassed l)
    (diagnostic : IsDiagnostic line) (diagnostic' : IsDiagnostic line')
    (same : w ++ (passed.flatten ++ (line ++ s)) = v ++ (passed'.flatten ++ (line' ++ t))) : w = v := by
  -- A line that opens is neither passed nor diagnostic, so it cannot be the first one below the start of the text.
  have apart {o x : List Char} (opening : IsOpening o) {passed : List (List Char)} {line s : List Char}
      (all : ∀ l ∈ passed, IsPassed l) (diagnostic : IsDiagnostic line) :
      passed.flatten ++ (line ++ s) ≠ o ++ x := by
    intro same
    obtain ⟨l, u, kind, first⟩ := first_line all diagnostic s
    rw [first] at same
    rcases kind with passed | diagnostic
    · obtain ⟨rfl, -⟩ := passed.isLine.unique opening.isLine same
      exact opening.not_passed passed
    · obtain ⟨rfl, -⟩ := (isLine_of_isDiagnostic diagnostic).unique opening.isLine same
      exact opening.not_diagnostic diagnostic
  rcases opens with ⟨rfl, -⟩ | opening <;> rcases opens' with ⟨rfl, -⟩ | opening'
  · rfl
  · exact absurd same (apart opening' all diagnostic)
  · exact absurd same.symm (apart opening all' diagnostic')
  · exact (opening.isLine.unique opening'.isLine same).1

/-- The tail takes the whole run. -/
theorem run_tail (captures : Pattern.Captures) {diagnostics : List (List Char)} {rest : List Char}
    (run : ∀ l ∈ diagnostics, IsDiagnostic l) (some : diagnostics ≠ []) (last : ∀ l u, IsDiagnostic l → rest ≠ l ++ u)
    (starts : p.rest = diagnostics.flatten ++ rest) :
    runTail.run ⟨p, captures⟩ Option.some = Option.some ⟨p.past diagnostics.flatten, captures⟩ := by
  have spells {l : List Char} : (Expr.sequence diagnosticPattern).Spells l ↔ IsDiagnostic l :=
    Expr.spells_sequence.trans Fallback.spellsAll_diagnostic
  have step (p q : Progress) : (Expr.sequence diagnosticPattern).Leads p q ↔
      ∃ l, IsDiagnostic l ∧ l <+: p.place.rest ∧ q = p.past l := by
    rw [Expr.leads_iff_spells (by decide)]
    simp only [spells]
  have whole : runTail.Leads ⟨p, captures⟩ ⟨p.past diagnostics.flatten, captures⟩ :=
    ⟨diagnostics.length, List.length_pos_iff.mpr some, nofun,
      (rounds_iff_words step).mpr ⟨diagnostics, rfl, run, ⟨rest, starts.symm⟩, rfl⟩⟩
  have goes : (runTail.run ⟨p, captures⟩ Option.some).isSome := Expr.isSome_run (by decide) whole rfl
  obtain ⟨r, ran⟩ := Option.isSome_iff_exists.mp goes
  obtain ⟨⟨n, rounds⟩, stuck⟩ :=
    Expr.run_repeat_maximal (by decide) (by decide) (by decide) ran
  obtain ⟨ws, -, words, ⟨behind, starts'⟩, rfl⟩ := (rounds_iff_words step).mp rounds
  have none (l u : List Char) (diagnostic : IsDiagnostic l) : behind ≠ l ++ u := by
    rintro rfl
    refine stuck _ ((step ..).mpr ⟨l, diagnostic, ⟨u, ?_⟩, rfl⟩)
    exact (Place.past_rest starts'.symm).symm
  obtain ⟨rfl, -⟩ := run_unique (fun _ => isLine_of_isDiagnostic) words run none last (starts'.trans starts)
  exact ran

/-- A match takes what opens, the lines that are passed and the whole run below. -/
theorem matchAt?_run {passed diagnostics : List (List Char)} {rest : List Char} (opens : Opens p w)
    (all : ∀ l ∈ passed, IsPassed l) (run : ∀ l ∈ diagnostics, IsDiagnostic l) (some : diagnostics ≠ [])
    (last : ∀ l u, IsDiagnostic l → rest ≠ l ++ u)
    (starts : p.rest = w ++ (passed.flatten ++ (diagnostics.flatten ++ rest))) :
    runRegex.matchAt? p = Option.some ⟨p, p.past (w ++ (passed.flatten ++ diagnostics.flatten)),
      [(2, passed.flatten), (1, w)]⟩ := by
  have starts' : p.rest = (w ++ passed.flatten) ++ (diagnostics.flatten ++ rest) := by
    rw [starts, List.append_assoc]
  have tail := run_tail [(2, passed.flatten), (1, w)] run some last (Place.past_rest starts')
  have head : runHead.run ⟨p, []⟩ (fun q => runTail.run q Option.some) =
      runTail.run ⟨p.past (w ++ passed.flatten), [(2, passed.flatten), (1, w)]⟩ Option.some := by
    refine Expr.run_eq (by decide) (by decide)
      (leads_runHead.mpr ⟨w, passed, opens, all, ⟨_, starts'.symm⟩, rfl⟩) fun q leads goes => ?_
    obtain ⟨v, passed', opens', all', ⟨behind, here⟩, rfl⟩ := leads_runHead.mp leads
    obtain ⟨r, ran⟩ := Option.isSome_iff_exists.mp goes
    obtain ⟨⟨n, rounds⟩, -⟩ :=
      Expr.run_repeat_maximal (by decide) (by decide) (by decide) ran
    obtain ⟨line', rest', diagnostic', below⟩ : ∃ l u, IsDiagnostic l ∧ behind = l ++ u := by
      cases rounds with
      | more round _ =>
        obtain ⟨l, u, diagnostic, below⟩ := diagnostic_of_leads round
        exact ⟨l, u, diagnostic, (Place.past_rest here.symm).symm.trans below⟩
    obtain ⟨line, diagnostics, rfl⟩ := List.exists_cons_of_ne_nil some
    have diagnostic := run line List.mem_cons_self
    have same : w ++ (passed.flatten ++ (line ++ (diagnostics.flatten ++ rest))) =
        v ++ (passed'.flatten ++ (line' ++ rest')) := by
      rw [← below, ← List.append_assoc v, here, starts, List.flatten_cons, List.append_assoc line]
    obtain rfl := opens_unique opens opens' all all' diagnostic diagnostic' same
    have stop {l s : List Char} (diagnostic : IsDiagnostic l) (k u : List Char) (passed : IsPassed k) :
        l ++ s ≠ k ++ u := by
      intro same
      obtain ⟨rfl, -⟩ := (isLine_of_isDiagnostic diagnostic).unique passed.isLine same
      exact passed.not_diagnostic diagnostic
    obtain ⟨rfl, -⟩ := run_unique (fun _ => IsPassed.isLine) all all' (stop diagnostic) (stop diagnostic')
      (List.append_cancel_left same)
    rfl
  rw [Regex.matchAt?]
  exact (congrArg (Option.map _) (head.trans tail)).trans (by rw [Option.map_some, Place.past_past, List.append_assoc])

/-! ### The scan over lines -/

theorem lineRegex_isMatch (line : List Char) : lineRegex.isMatch line ↔ IsDiagnostic line :=
  diagnosticLine_eq ▸ diagnosticLine_isMatch line

/-- A blank line or a comment, in a form that runs. -/
def isPassed (line : List Char) : Bool :=
  line.getLast? == some '\n' &&
    let code := line.dropLast.dropWhile isIndentChar
    code == [] || code == ['\r'] || "//".toList.isPrefixOf code

/-- The line ends in a way that lets a run stand below it. -/
def opensBelow (line : List Char) : Bool :=
  line.getLast? == some '\n' &&
    let back := line.dropLast.reverse
    let back := if back.head? == some '\r' then back.tail else back
    (visible? back).any fun c => c == ';' || c == '\x7b' || c == '\x7d'

/-- Where the scan is: below a line that opens and lines that are passed, in a run, or elsewhere. -/
inductive Stage where
  | ready
  | run
  | shut
deriving DecidableEq, Repr, Inhabited

/-- The lines that the learned rule keeps. -/
def sweep : Stage → List (List Char) → List (List Char)
  | _, [] => []
  | stage, line :: lines =>
    if stage != .shut && lineRegex.isMatch line then sweep .run lines
    else if stage == .ready && isPassed line then line :: sweep .ready lines
    else line :: sweep (if opensBelow line then .ready else .shut) lines

theorem split_visible {v : List Char} {c : Char} (shown : visible? v = some c) :
    ∃ blank rest, IsIndent blank ∧ v = blank ++ c :: rest := by
  refine ⟨v.takeWhile isIndentChar, (v.dropWhile isIndentChar).tail, fun d inside => ?_, ?_⟩
  · simpa [isIndentChar] using List.all_eq_true.mp List.all_takeWhile d inside
  · rw [List.cons_head?_tail shown, List.takeWhile_append_dropWhile]

theorem IsIndent.reverse {blank : List Char} (indent : IsIndent blank) : IsIndent blank.reverse :=
  fun c inside => indent c (List.mem_reverse.mp inside)

theorem isPassed_iff (one : '\n' ∉ line.dropLast) : isPassed line ↔ IsPassed line := by
  constructor
  · intro passed
    rw [isPassed, Bool.and_eq_true, beq_iff_eq] at passed
    obtain ⟨newline, code⟩ := passed
    have indent : IsIndent (line.dropLast.takeWhile isIndentChar) := fun d inside => by
      simpa [isIndentChar] using List.all_eq_true.mp List.all_takeWhile d inside
    have whole : line = line.dropLast.takeWhile isIndentChar ++ line.dropLast.dropWhile isIndentChar ++ ['\n'] := by
      rw [List.takeWhile_append_dropWhile, List.dropLast_append_getLast? _ newline]
    have inside : '\n' ∉ line.dropLast.dropWhile isIndentChar := fun inside =>
      one ((List.dropWhile_sublist _).mem inside)
    generalize line.dropLast.dropWhile isIndentChar = shown at code whole inside
    simp only [Bool.or_eq_true, beq_iff_eq, List.isPrefixOf_iff_prefix] at code
    rcases code with (rfl | rfl) | ⟨text, rfl⟩
    · exact ⟨_, [], ['\n'], indent, .inl rfl, .inl rfl, whole⟩
    · exact ⟨_, [], ['\r', '\n'], indent, .inl rfl, .inr rfl, by simpa using whole⟩
    · refine ⟨_, _, ['\n'], indent, .inr ⟨text, fun member => inside ?_, rfl⟩, .inl rfl, whole⟩
      exact List.mem_append_right _ member
  · rintro ⟨blank, comment, ending, indent, remark, ends, rfl⟩
    have dropped (rest : List Char) : (blank ++ rest).dropWhile isIndentChar = rest.dropWhile isIndentChar :=
      List.dropWhile_append_of_pos fun c inside => by simpa [isIndentChar] using indent c inside
    rcases ends with rfl | rfl
    · rw [isPassed, List.getLast?_concat, List.dropLast_concat, dropped]
      rcases remark with rfl | ⟨text, -, rfl⟩ <;> rfl
    · have cut : blank ++ comment ++ ['\r', '\n'] = (blank ++ (comment ++ ['\r'])) ++ ['\n'] := by simp
      rw [cut, isPassed, List.getLast?_concat, List.dropLast_concat, dropped]
      rcases remark with rfl | ⟨text, -, rfl⟩ <;> rfl

theorem opensBelow_iff : opensBelow line ↔ ∃ body w, IsOpening w ∧ line = body ++ w := by
  constructor
  · intro opens
    rw [opensBelow, Bool.and_eq_true, beq_iff_eq] at opens
    obtain ⟨newline, shown⟩ := opens
    dsimp only at shown
    have whole := List.dropLast_append_getLast? _ newline
    -- A carriage return right before the newline belongs to it.
    have taken : ∃ back ending, IsBreak ending ∧ line = back.reverse ++ ending ∧
        ∃ c, visible? back = some c ∧ (c = ';' ∨ c = '\x7b' ∨ c = '\x7d') := by
      have shown' (back : List Char)
          (shown : (visible? back).any fun c => c == ';' || c == '\x7b' || c == '\x7d') :
          ∃ c, visible? back = some c ∧ (c = ';' ∨ c = '\x7b' ∨ c = '\x7d') := by
        obtain ⟨c, found, ender⟩ := (Option.any_eq_true _ _).mp shown
        exact ⟨c, found, by simpa [or_assoc] using ender⟩
      by_cases carriage : line.dropLast.reverse.head? = some '\r'
      · rw [if_pos (by simpa using carriage)] at shown
        refine ⟨_, ['\r', '\n'], .inr rfl, ?_, shown' _ shown⟩
        have back : line.dropLast = line.dropLast.reverse.tail.reverse ++ ['\r'] := by
          rw [← List.reverse_cons, List.cons_head?_tail carriage, List.reverse_reverse]
        rw [← whole, back]
        simp
      · rw [if_neg (by simpa using carriage)] at shown
        exact ⟨_, ['\n'], .inl rfl, by rw [List.reverse_reverse, whole], shown' _ shown⟩
    obtain ⟨back, ending, ends, rfl, c, shown, ender⟩ := taken
    obtain ⟨blank, rest, indent, rfl⟩ := split_visible shown
    exact ⟨rest.reverse, c :: blank.reverse ++ ending, ⟨c, blank.reverse, ending, ender, indent.reverse, ends, rfl⟩, by simp⟩
  · rintro ⟨body, _, ⟨c, blank, ending, ender, indent, ends, rfl⟩, rfl⟩
    have shown : visible? (blank.reverse ++ c :: body.reverse) = some c := by
      rw [visible?_indent indent.reverse, visible?, List.dropWhile_cons]
      rcases ender with rfl | rfl | rfl <;> rfl
    have first : (blank.reverse ++ c :: body.reverse).head? ≠ some '\r' := by
      cases back : blank.reverse with
      | nil => rcases ender with rfl | rfl | rfl <;> simp
      | cons d rest =>
        have := indent d (by rw [← List.mem_reverse, back]; exact List.mem_cons_self)
        rcases this with rfl | rfl <;> simp
    rcases ends with rfl | rfl
    · have cut : body ++ (c :: blank ++ ['\n']) = (body ++ c :: blank) ++ ['\n'] := by simp
      rw [cut, opensBelow, List.getLast?_concat, List.dropLast_concat]
      have back : (body ++ c :: blank).reverse = blank.reverse ++ c :: body.reverse := by simp
      simp only [back, beq_iff_eq, first, if_false, shown]
      rcases ender with rfl | rfl | rfl <;> rfl
    · have cut : body ++ (c :: blank ++ ['\r', '\n']) = (body ++ c :: blank ++ ['\r']) ++ ['\n'] := by simp
      rw [cut, opensBelow, List.getLast?_concat, List.dropLast_concat]
      have back : (body ++ c :: blank ++ ['\r']).reverse = '\r' :: (blank.reverse ++ c :: body.reverse) := by simp
      simp only [back, List.head?_cons, List.tail_cons, beq_self_eq_true, if_true, shown]
      rcases ender with rfl | rfl | rfl <;> rfl

/-- The lines that are passed lead to a diagnostic line. -/
def reaches (lines : List (List Char)) : Bool := (lines.dropWhile isPassed).head?.any lineRegex.isMatch

/-- What stands below the run that some lines lead to. -/
def belowRun (lines : List (List Char)) : List (List Char) :=
  (lines.dropWhile isPassed).dropWhile lineRegex.isMatch

theorem sweep_shut (line : List Char) (lines : List (List Char)) :
    sweep .shut (line :: lines) = line :: sweep (if opensBelow line then .ready else .shut) lines := rfl

theorem one_of_mem (cut : AreLines lines) (member : line ∈ lines) : '\n' ∉ line.dropLast := by
  induction cut with
  | none => cases member
  | last _ one =>
    obtain rfl := List.mem_singleton.mp member
    exact fun inside => one (List.dropLast_subset _ inside)
  | line one _ ih =>
    rcases List.mem_cons.mp member with rfl | member
    · rwa [List.dropLast_concat]
    · exact ih member

theorem isMatch_of_isPassed (one : '\n' ∉ line.dropLast) (passed : isPassed line) :
    lineRegex.isMatch line = false :=
  Bool.eq_false_iff.mpr fun found => ((isPassed_iff one).mp passed).not_diagnostic ((lineRegex_isMatch line).mp found)

/-- Nothing goes at once if the lines lead to no diagnostic line. -/
theorem sweep_of_not_reaches (cut : AreLines lines) (nowhere : reaches lines = false) :
    sweep .ready lines = sweep .shut lines := by
  induction lines with
  | nil => rfl
  | cons line lines ih =>
    rw [sweep_shut, sweep]
    by_cases passed : isPassed line
    · have other := isMatch_of_isPassed (one_of_mem cut List.mem_cons_self) passed
      rw [reaches, List.dropWhile_cons, if_pos passed] at nowhere
      have later := ih (cut.sublist (List.sublist_cons_self ..)) nowhere
      cases opensBelow line <;> simp [other, passed, later]
    · rw [reaches, List.dropWhile_cons, if_neg passed, List.head?_cons, Option.any_some] at nowhere
      simp [nowhere, passed]

theorem sweep_run (lines : List (List Char)) :
    sweep .run lines = sweep .shut (lines.dropWhile lineRegex.isMatch) := by
  induction lines with
  | nil => rfl
  | cons line lines ih =>
    rw [sweep, List.dropWhile_cons]
    cases found : lineRegex.isMatch line
    · simp [sweep_shut]
    · simpa using ih

/-- The lines that lead to a run stay, and the run goes. -/
theorem sweep_of_reaches (cut : AreLines lines) (somewhere : reaches lines) :
    sweep .ready lines = lines.takeWhile isPassed ++ sweep .shut (belowRun lines) := by
  induction lines with
  | nil => cases somewhere
  | cons line lines ih =>
    rw [sweep, belowRun, List.takeWhile_cons, List.dropWhile_cons]
    by_cases passed : isPassed line
    · have other := isMatch_of_isPassed (one_of_mem cut List.mem_cons_self) passed
      rw [reaches, List.dropWhile_cons, if_pos passed] at somewhere
      simp [other, passed, ih (cut.sublist (List.sublist_cons_self ..)) somewhere, belowRun]
    · rw [reaches, List.dropWhile_cons, if_neg passed, List.head?_cons, Option.any_some] at somewhere
      simp [somewhere, passed, sweep_run]

/-! ### Replacing -/

variable {m : Match} {ms : List Match}

theorem expand_run (m : Match) : runRegex.expand m runRule.template = m.group 1 ++ m.group 2 := by
  have last : runRegex.expand m [] = [] := by rw [Regex.expand]
  rw [runRule, Regex.expand_group _ _ rfl, Regex.expand_group _ _ rfl, last, List.append_nil]
  rfl

theorem scans_run : runRegex.Scans := ⟨by decide, by decide, by decide⟩

/-- The lines of a text from a place on determine whether a run can be reached. -/
theorem reaches_of_split {passed : List (List Char)} {rest : List Char} (cut : AreLines lines)
    (all : ∀ l ∈ passed, IsPassed l) (diagnostic : IsDiagnostic line)
    (whole : lines.flatten = passed.flatten ++ (line ++ rest)) : reaches lines := by
  have listed : lines = passed ++ line :: linesOf rest := by
    rw [← cut.linesOf_flatten, whole]
    clear whole cut
    induction passed with
    | nil => exact (isLine_of_isDiagnostic diagnostic).linesOf_append rest
    | cons l passed ih =>
      obtain ⟨first, all⟩ := List.forall_mem_cons.mp all
      rw [List.flatten_cons, List.append_assoc, first.isLine.linesOf_append, ih all, List.cons_append]
  have shown (l : List Char) (passed : IsPassed l) : isPassed l := by
    obtain ⟨body, one, rfl⟩ := passed.isLine
    exact (isPassed_iff (by rwa [List.dropLast_concat])).mpr passed
  have other : ¬isPassed line := fun passed => by
    obtain ⟨body, one, rfl⟩ := isLine_of_isDiagnostic diagnostic
    exact ((isPassed_iff (by rwa [List.dropLast_concat])).mp passed).not_diagnostic diagnostic
  rw [reaches, listed, List.dropWhile_append_of_pos fun l member => shown l (all l member), List.dropWhile_cons,
    if_neg other, List.head?_cons, Option.any_some, lineRegex_isMatch]
  exact diagnostic

theorem opening_tail {v : List Char} (opening : IsOpening (v ++ w)) (opening' : IsOpening w) : v = [] := by
  obtain ⟨c, blank, ending, -, indent, ends, whole⟩ := opening
  obtain ⟨d, blank', ending', ender, -, -, rfl⟩ := opening'
  cases v with
  | nil => rfl
  | cons first v =>
    have inside : d ∈ blank ++ ending := by
      have tail : v ++ (d :: blank' ++ ending') = blank ++ ending := (List.cons.inj whole).2
      rw [← tail]
      simp
    rcases List.mem_append.mp inside with member | member
    · rcases indent d member with rfl | rfl <;> simp at ender
    · rcases ends with rfl | rfl <;> simp at member <;> (try rcases member with rfl | rfl) <;> simp_all

theorem IsLine.of_append {v : List Char} (ends : IsLine (w ++ v)) (some : v ≠ []) : IsLine v := by
  obtain ⟨body, one, whole⟩ := ends
  rcases List.eq_nil_or_concat v with rfl | ⟨front, c, rfl⟩
  · exact absurd rfl some
  · rw [List.concat_eq_append, ← List.append_assoc] at whole
    obtain ⟨rfl, last⟩ := List.append_inj' whole rfl
    exact ⟨front, fun inside => one (List.mem_append_right _ inside), by rw [List.concat_eq_append, last]⟩

theorem IsLine.newline_mem (ends : IsLine w) : '\n' ∈ w := by
  obtain ⟨body, -, rfl⟩ := ends
  exact List.mem_append_right _ List.mem_cons_self

theorem cons_cases (cut : AreLines (line :: lines)) :
    IsLine line ∨ lines = [] ∧ '\n' ∉ line := by
  cases cut with
  | last _ one => exact .inr ⟨rfl, one⟩
  | line one => exact .inl ⟨_, one, rfl⟩

theorem ne_nil_of_cons (cut : AreLines (line :: lines)) : line ≠ [] := by
  cases cut with
  | last some => exact some
  | line => exact List.append_ne_nil_of_right_ne_nil _ nofun

theorem flatten_below {lines : List (List Char)} : lines.flatten =
    (lines.takeWhile isPassed).flatten ++ (((lines.dropWhile isPassed).takeWhile lineRegex.isMatch).flatten ++
      (belowRun lines).flatten) := by
  rw [belowRun, ← List.flatten_append, List.takeWhile_append_dropWhile, ← List.flatten_append,
    List.takeWhile_append_dropWhile]

/-- A match at a place where something opens and a run can be reached takes all of it. -/
theorem matchAt?_reaches (cut : AreLines lines) (opens : Opens p w) (somewhere : reaches lines)
    (starts : p.rest = w ++ lines.flatten) :
    ∃ m, runRegex.matchAt? p = some m ∧ m.group 1 ++ m.group 2 = w ++ (lines.takeWhile isPassed).flatten ∧
      m.stop.rest = (belowRun lines).flatten ∧ m.stop.before ≠ none := by
  have passed (l : List Char) (member : l ∈ lines.takeWhile isPassed) : IsPassed l :=
    (isPassed_iff (one_of_mem cut ((List.takeWhile_sublist _).mem member))).mp
      (List.all_eq_true.mp List.all_takeWhile l member)
  have run (l : List Char) (member : l ∈ (lines.dropWhile isPassed).takeWhile lineRegex.isMatch) :
      IsDiagnostic l :=
    (lineRegex_isMatch l).mp (List.all_eq_true.mp List.all_takeWhile l member)
  have some : (lines.dropWhile isPassed).takeWhile lineRegex.isMatch ≠ [] := by
    rw [reaches] at somewhere
    cases below : lines.dropWhile isPassed with
    | nil => rw [below] at somewhere; cases somewhere
    | cons l rest =>
      rw [below, List.head?_cons, Option.any_some] at somewhere
      rw [List.takeWhile_cons, if_pos somewhere]
      exact nofun
  have cut' : AreLines (belowRun lines) :=
    cut.sublist ((List.dropWhile_sublist _).trans (List.dropWhile_sublist _))
  have last (l u : List Char) (diagnostic : IsDiagnostic l) : (belowRun lines).flatten ≠ l ++ u := by
    intro same
    have listed := congrArg linesOf same
    rw [cut'.linesOf_flatten, (isLine_of_isDiagnostic diagnostic).linesOf_append, belowRun] at listed
    have stops := List.head?_dropWhile_not lineRegex.isMatch (lines.dropWhile isPassed)
    rw [listed, List.head?_cons] at stops
    simp [(lineRegex_isMatch l).mpr diagnostic] at stops
  rw [flatten_below] at starts
  have found := matchAt?_run opens passed run some last starts
  exact ⟨_, found, rfl, Place.past_rest (by rw [starts]; simp only [List.append_assoc]), scans_run.before found⟩

/-- From a place where no match lies across, replacing is the scan. -/
theorem replaced_from {n : Nat} (short : lines.length ≤ n) (cut : AreLines lines) (swept : runRegex.Swept p ms)
    (whole : p.rest = lines.flatten) (quiet : p.before = none → reaches lines = false) :
    Pattern.replaceMatches (runRegex.expand · runRule.template) ms p = (sweep .shut lines).flatten := by
  induction n generalizing p ms lines with
  | zero =>
    obtain rfl := List.length_eq_zero_iff.mp (Nat.le_zero.mp short)
    rw [Regex.Swept.at_end scans_run whole swept]
    exact whole
  | succ n ih =>
    cases lines with
    | nil =>
      rw [Regex.Swept.at_end scans_run whole swept]
      exact whole
    | cons line lines =>
      have cut' : AreLines lines := cut.sublist (List.sublist_cons_self ..)
      rw [List.flatten_cons] at whole
      -- A match inside of the line starts with the end of the line, and the run is reached below.
      have inside {u v : List Char} (split : line = u ++ v) (some : v ≠ [])
          (other : ¬(IsOpening v ∧ reaches lines)) : runRegex.matchAt? (p.past u) = none := by
        have here : (p.past u).rest = v ++ lines.flatten :=
          Place.past_rest (by rw [whole, split, List.append_assoc])
        refine matchAt?_none fun w passed l rest opens all diagnostic same => ?_
        rcases opens with ⟨rfl, start⟩ | opening
        · obtain rfl : u = [] := by
            by_contra some
            exact Place.before_past p some start
          have reached := reaches_of_split cut all diagnostic (whole.symm.trans same)
          rw [quiet start] at reached
          cases reached
        · rw [here] at same
          have lined : IsLine v := by
            rcases cons_cases cut with whole' | ⟨rfl, one⟩
            · rw [split] at whole'
              exact whole'.of_append some
            · rw [List.flatten_nil, List.append_nil] at same
              refine absurd ?_ one
              rw [split, same]
              exact List.mem_append_right _ (List.mem_append_left _ opening.isLine.newline_mem)
          obtain ⟨rfl, below⟩ := lined.unique opening.isLine same
          exact other ⟨opening, reaches_of_split cut' all diagnostic below⟩
      by_cases hit : ∃ body w, line = body ++ w ∧ IsOpening w ∧ reaches lines
      · obtain ⟨body, w, rfl, opening, somewhere⟩ := hit
        rw [List.append_assoc] at whole
        obtain ⟨swept', skipped⟩ := swept.skip_word (f := (runRegex.expand · runRule.template)) whole
          fun u v split some => by
            refine inside (v := v ++ w) (by rw [split, List.append_assoc]) (List.append_ne_nil_of_left_ne_nil some _) ?_
            exact fun ⟨opening', _⟩ => some (opening_tail opening' opening)
        obtain ⟨m, found, groups, stop, behind⟩ :=
          matchAt?_reaches cut' (.inr opening) somewhere (Place.past_rest whole)
        obtain ⟨ms, rfl, later⟩ := swept'.of_some found
        have fewer : (belowRun lines).length ≤ n := by
          have : (belowRun lines).length ≤ lines.length :=
            ((List.dropWhile_sublist _).trans (List.dropWhile_sublist _)).length_le
          simp only [List.length_cons] at short
          omega
        rw [skipped, Regex.replaceMatches_take found, expand_run, groups,
          ih fewer (cut'.sublist ((List.dropWhile_sublist _).trans (List.dropWhile_sublist _))) later stop
            fun start => absurd start behind,
          sweep_shut, if_pos (opensBelow_iff.mpr ⟨body, w, opening, rfl⟩), sweep_of_reaches cut' somewhere]
        simp
      · obtain ⟨swept', skipped⟩ := swept.skip_word (f := (runRegex.expand · runRule.template)) whole
          fun u v split some => inside split some fun ⟨opening, somewhere⟩ => hit ⟨u, v, split, opening, somewhere⟩
        rw [skipped, ih (Nat.le_of_succ_le_succ short) cut' swept' (Place.past_rest whole)
          fun start => absurd start (Place.before_past p (ne_nil_of_cons cut)), sweep_shut, List.flatten_cons]
        split
        · rename_i opens
          obtain ⟨body, w, opening, split⟩ := opensBelow_iff.mp opens
          rw [sweep_of_not_reaches cut' (Bool.eq_false_iff.mpr fun somewhere => hit ⟨body, w, split, opening, somewhere⟩)]
        · rfl

/-- Replacing all runs is the scan over the lines. -/
theorem replaceAll_run (text : List Char) :
    runRegex.replaceAll runRule.template text = (sweep .ready (linesOf text)).flatten := by
  have cut := Fallback.areLines_linesOf text
  have whole := (Fallback.flatten_linesOf text).symm
  have swept := Regex.swept_allMatches scans_run text
  rw [Regex.replaceAll, Regex.replaceAllBy]
  by_cases somewhere : reaches (linesOf text)
  · obtain ⟨m, found, groups, stop, behind⟩ :=
      matchAt?_reaches (p := .start text) cut (.inl ⟨rfl, rfl⟩) somewhere whole
    obtain ⟨ms, same, later⟩ := swept.of_some found
    rw [same, Regex.replaceMatches_take found, expand_run, groups,
      replaced_from (Nat.le_refl _) (cut.sublist ((List.dropWhile_sublist _).trans (List.dropWhile_sublist _))) later
        stop fun start => absurd start behind,
      sweep_of_reaches cut somewhere, List.nil_append, List.flatten_append]
    rfl
  · have nowhere := Bool.eq_false_iff.mpr somewhere
    rw [replaced_from (Nat.le_refl _) cut swept whole fun _ => nowhere, sweep_of_not_reaches cut nowhere]

/-! ### Both scans -/

/-- Both scans see the same in a line. -/
structure Alike (line : List Char) : Prop where
  passed : isPassed line = !isCode line
  opens : opensBelow line = (isCode line && endsStatement (Text.trim line))

instance : DecidablePred Alike := fun line =>
  decidable_of_iff (isPassed line = !isCode line ∧ opensBelow line = (isCode line && endsStatement (Text.trim line)))
    ⟨fun ⟨passed, opens⟩ => ⟨passed, opens⟩, fun ⟨passed, opens⟩ => ⟨passed, opens⟩⟩

/-- Right below a diagnostic line stands code. -/
def CodeBelowRuns (lines : List (List Char)) : Prop :=
  lines.IsChain fun line below => lineRegex.isMatch line → isCode below

theorem dropDiagnostics_eq_sweep (alike : ∀ l ∈ lines, Alike l) (below : CodeBelowRuns lines) :
    ((dropDiagnostics true lines).1 = sweep .ready lines ∧
      (lines.head?.all isCode → (dropDiagnostics true lines).1 = sweep .run lines)) ∧
      (dropDiagnostics false lines).1 = sweep .shut lines := by
  induction lines with
  | nil => exact ⟨⟨rfl, fun _ => rfl⟩, rfl⟩
  | cons line lines ih =>
    obtain ⟨same, alike⟩ := List.forall_mem_cons.mp alike
    have first (found : lineRegex.isMatch line) : lines.head?.all isCode := by
      cases lines with
      | nil => rfl
      | cons => exact (List.isChain_cons_cons.mp below).1 found
    have later : CodeBelowRuns lines := by
      cases lines with
      | nil => exact .nil
      | cons => exact (List.isChain_cons_cons.mp below).2
    obtain ⟨⟨ready, run⟩, shut⟩ := ih alike later
    have passes := same.passed
    have opens := same.opens
    simp only [dropDiagnostics, diagnosticLine_eq, statementStarts_eq, sweep, Bool.true_and, Bool.false_and,
      Bool.false_eq_true, if_false, opens, passes]
    refine ⟨⟨?_, fun code => ?_⟩, ?_⟩
    · by_cases found : lineRegex.isMatch line
      · simp [found, run (first found)]
      · cases isCode line <;> cases endsStatement (Text.trim line) <;> simp [found, ready, shut]
    · by_cases found : lineRegex.isMatch line
      · simp [found, run (first found)]
      · have code : isCode line := code
        cases endsStatement (Text.trim line) <;> simp [found, code, ready, shut]
    · cases isCode line <;> cases endsStatement (Text.trim line) <;> simp [ready, shut]

/-- What the scan over lines of code leaves, whether or not a line goes. -/
theorem removeDiagnostics_getD (text : List Char) :
    ((removeDiagnostics text).map (·.1)).getD text = (dropDiagnostics true (linesOf text)).1.flatten := by
  rw [Fallback.removeDiagnostics_eq, Fallback.dropDiagnostics_eq]
  dsimp only
  split
  · rename_i none
    have all : (Fallback.judge true (linesOf text)).filter (!·.2) = Fallback.judge true (linesOf text) := by
      refine List.filter_eq_self.mpr fun judged member => ?_
      simpa using List.countP_eq_zero.mp none judged member
    rw [Fallback.kept, all, Fallback.map_judge, Fallback.flatten_linesOf]
    rfl
  · rfl

/-! ### The learned rule -/

theorem rewrite_runRule (text : String) :
    (runRule.rewrite text).toList = (sweep .ready (linesOf text.toList)).flatten := by
  rw [Compiled.rewrite, Compiled.apply, if_pos (show runRule.isGlobal = true from rfl)]
  rw [show runRule.regex = runRegex from rfl, replaceAll_run]
  split
  · rename_i same
    exact (beq_iff_eq.mp same).symm
  · exact String.toList_ofList

theorem compile_of_mined {before after : List Char} {layer : LayerId} {rule : Rule}
    (mined : diagnosticRemoval before after layer = some rule) : compile rule.pattern rule.replacement = .ok runRule := by
  rw [diagnosticRemoval] at mined
  split at mined
  · cases mined
  · cases mined
    exact compile_run

/-- The rule that is learned takes whole lines out: the runs that one scan over the lines reaches. Where both scans
see the same in every line and code stands right below each diagnostic line, what stays is what the scan over lines
of code leaves. -/
theorem learned_removal {before after : List Char} {layer : LayerId} {rule : Rule}
    (mined : diagnosticRemoval before after layer = some rule) :
    ∃ c, compile rule.pattern rule.replacement = .ok c ∧ ∀ text : String,
      (c.rewrite text).toList = (sweep .ready (linesOf text.toList)).flatten ∧
      ((∀ l ∈ linesOf text.toList, Alike l) → CodeBelowRuns (linesOf text.toList) →
        (c.rewrite text).toList = ((removeDiagnostics text.toList).map (·.1)).getD text.toList) := by
  refine ⟨runRule, compile_of_mined mined, fun text => ⟨rewrite_runRule text, fun alike below => ?_⟩⟩
  rw [rewrite_runRule, removeDiagnostics_getD, (dropDiagnostics_eq_sweep alike below).1.1]

/-- The pattern for diagnostic lines of a text that is learned from. -/
def linesRegex : Regex := ⟨Expr.sequence (.look .lineStart :: diagnosticPattern), []⟩

theorem diagnosticLines_eq : diagnosticLines = linesRegex :=
  Regex.of_eq (toList_append_of (toList_of_chars rfl) (toList_of_chars rfl)) (by decide +kernel)

/-- A line that stays. -/
theorem dropDiagnostics_skip {starts : Bool} (stays : (starts && lineRegex.isMatch line) = false) :
    dropDiagnostics starts (line :: lines) = (line :: (dropDiagnostics (statementStarts starts line) lines).1,
      (dropDiagnostics (statementStarts starts line) lines).2) := by
  rw [← diagnosticLine_eq] at stays
  rw [dropDiagnostics, if_neg (Bool.eq_false_iff.mp stays)]

/-- A rule is learned from a call that was taken out. -/
theorem diagnosticRemoval_small :
    (diagnosticRemoval "console.log(1);\nf();\n".toList "f();\n".toList .patterns).isSome := by
  have removed : (linesRegex.allMatches "console.log(1);\nf();\n".toList).length = 1 := by decide +kernel
  have stays : (linesRegex.allMatches "f();\n".toList).length = 0 := by decide +kernel
  simp only [diagnosticRemoval, diagnosticLines_eq, removed, stays]
  rfl

theorem learned_removal_small : ∃ rule c,
    diagnosticRemoval "console.log(1);\nf();\n".toList "f();\n".toList .patterns = some rule ∧
      compile rule.pattern rule.replacement = .ok c ∧
      (c.rewrite "f();\nconsole.log(1);\ng()\n").toList = "f();\ng()\n".toList ∧
      (removeDiagnostics "f();\nconsole.log(1);\ng()\n".toList).map (·.1) = some "f();\ng()\n".toList := by
  obtain ⟨rule, mined⟩ := Option.isSome_iff_exists.mp diagnosticRemoval_small
  obtain ⟨c, compiled, rewritten⟩ := learned_removal mined
  have alike : ∀ l ∈ linesOf "f();\nconsole.log(1);\ng()\n".toList, Alike l := by decide +kernel
  have below : CodeBelowRuns (linesOf "f();\nconsole.log(1);\ng()\n".toList) := by
    rw [CodeBelowRuns]
    decide +kernel
  obtain ⟨scanned, same⟩ := rewritten "f();\nconsole.log(1);\ng()\n"
  have left : (c.rewrite "f();\nconsole.log(1);\ng()\n").toList = "f();\ng()\n".toList :=
    scanned.trans (by decide +kernel)
  refine ⟨rule, c, mined, compiled, left, ?_⟩
  have same := same alike below
  rw [left] at same
  cases removed : removeDiagnostics "f();\nconsole.log(1);\ng()\n".toList with
  | some done =>
    rw [removed] at same
    exact congrArg some same.symm
  | none =>
    rw [removed] at same
    exact absurd same (by decide +kernel)

/-- A comment that ends in a semicolon counts as a statement: the call below is all there is to a condition, and it
goes, although the scan over lines of code leaves it. -/
theorem condition_emptied :
    let text := "if (x)\n// a;\nconsole.log(1);\n"
    removeDiagnostics text.toList = none ∧
      ∃ rule c, diagnosticRemoval "console.log(1);\nf();\n".toList "f();\n".toList .patterns = some rule ∧
        compile rule.pattern rule.replacement = .ok c ∧ (c.rewrite text).toList = "if (x)\n// a;\n".toList := by
  have lines : linesOf "if (x)\n// a;\nconsole.log(1);\n".toList =
      ["if (x)\n".toList, "// a;\n".toList, "console.log(1);\n".toList] := by
    simp [linesOf]
  obtain ⟨other, condition, comment⟩ : lineRegex.isMatch "if (x)\n".toList = false ∧
      statementStarts true "if (x)\n".toList = false ∧ statementStarts false "// a;\n".toList = false := by
    decide +kernel
  refine ⟨?_, ?_⟩
  · rw [removeDiagnostics, lines, dropDiagnostics_skip (by rw [other]; rfl), condition,
      dropDiagnostics_skip (Bool.false_and _), comment, dropDiagnostics_skip (Bool.false_and _)]
    rfl
  · obtain ⟨rule, mined⟩ := Option.isSome_iff_exists.mp diagnosticRemoval_small
    refine ⟨rule, runRule, mined, compile_of_mined mined, (rewrite_runRule _).trans ?_⟩
    rw [lines]
    decide +kernel

end SourceRepair.Learning
