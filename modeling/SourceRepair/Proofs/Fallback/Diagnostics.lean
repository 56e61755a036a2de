import Mathlib.Data.List.Induction
import SourceRepair.Fallback.Rules
import SourceRepair.Proofs.Pattern.Replacing

/-!
# Diagnostic lines

A call that writes to the console and fills a line goes where a statement starts: the nearest line above it that
stays and holds code has to end a statement or open a block. What goes is decided on the lines that stay, so
nothing more goes in a second run.
-/

namespace SourceRepair.Fallback

open Pattern (Regex Progress CharClass Expr Look toList_of_chars toList_append_of)
open Pattern.Expr (literal SpellsAll LeadsAll spellsAll_cons spellsAll_char leadsAll_append leadsAll_iff_spells)

variable {lines : List (List Char)} {starts : Bool}

/-! ### Lines of a text -/

/-- Lines with the newlines that end them. Only the last one may have none. -/
inductive AreLines : List (List Char) → Prop
  | none : AreLines []
  | last {line : List Char} (some : line ≠ []) (open' : '\n' ∉ line) : AreLines [line]
  | line {line : List Char} {lines : List (List Char)} (one : '\n' ∉ line) (rest : AreLines lines) :
    AreLines ((line ++ ['\n']) :: lines)

theorem linesOf_cons {c : Char} (other : c ≠ '\n') (cs : List Char) :
    linesOf (c :: cs) = (c :: (linesOf cs).head?.getD []) :: (linesOf cs).tail := by
  rw [linesOf]
  · cases linesOf cs <;> rfl
  · exact other

theorem flatten_linesOf (text : List Char) : (linesOf text).flatten = text := by
  induction text with
  | nil => rfl
  | cons c cs ih =>
    by_cases newline : c = '\n'
    · rw [newline, linesOf, List.flatten_cons, ih]
      rfl
    · rw [linesOf_cons newline]
      conv => rhs; rw [← ih]
      cases linesOf cs <;> rfl

theorem areLines_linesOf (text : List Char) : AreLines (linesOf text) := by
  induction text with
  | nil => exact .none
  | cons c cs ih =>
    by_cases newline : c = '\n'
    · rw [newline, linesOf]
      exact AreLines.line (List.not_mem_nil) ih
    · have apart {cs : List Char} (one : '\n' ∉ cs) : '\n' ∉ c :: cs :=
        List.not_mem_cons_of_ne_of_not_mem (Ne.symm newline) one
      rw [linesOf_cons newline]
      generalize linesOf cs = lines at ih ⊢
      cases ih with
      | none => exact .last nofun (apart nofun)
      | last _ one => exact .last nofun (apart one)
      | line one rest => exact .line (apart one) rest

theorem linesOf_line {line : List Char} (one : '\n' ∉ line) (rest : List Char) :
    linesOf (line ++ '\n' :: rest) = (line ++ ['\n']) :: linesOf rest := by
  induction line with
  | nil => rw [List.nil_append, linesOf, List.nil_append]
  | cons c line ih =>
    obtain ⟨other, one⟩ := not_or.mp (mt List.mem_cons.mpr one)
    rw [List.cons_append, linesOf_cons (Ne.symm other), ih one]
    rfl

/-- A text has one cut into lines. -/
theorem AreLines.linesOf_flatten (cut : AreLines lines) : linesOf lines.flatten = lines := by
  induction cut with
  | none => rfl
  | @last line some one =>
    rw [List.flatten_singleton]
    induction line with
    | nil => exact absurd rfl some
    | cons c line ih =>
      obtain ⟨other, one⟩ := not_or.mp (mt List.mem_cons.mpr one)
      rw [linesOf_cons (Ne.symm other)]
      cases line with
      | nil => rfl
      | cons d line => rw [ih nofun one]; rfl
  | line one rest ih => rw [List.flatten_cons, List.append_assoc, List.singleton_append, linesOf_line one, ih]

theorem AreLines.sublist {kept : List (List Char)} (cut : AreLines lines) (part : kept.Sublist lines) :
    AreLines kept := by
  induction cut generalizing kept with
  | none => rw [List.sublist_nil.mp part]; exact .none
  | last some one =>
    cases part with
    | cons _ part => rw [List.sublist_nil.mp part]; exact .none
    | cons_cons _ part => rw [List.sublist_nil.mp part]; exact .last some one
  | line one _ ih =>
    cases part with
    | cons _ part => exact ih part
    | cons_cons _ part => exact .line one (ih part)

/-! ### The grammar of a diagnostic line -/

/-- What a call that writes to the console is given: anything on one line with one level of parentheses. -/
inductive Arguments : List Char → Prop
  | none : Arguments []
  | plain {c : Char} {rest : List Char} (other : c ∉ ['(', ')', '\n']) (more : Arguments rest) : Arguments (c :: rest)
  | nested {inner rest : List Char} (others : ∀ c ∈ inner, c ∉ ['(', ')', '\n']) (more : Arguments rest) :
    Arguments ('(' :: inner ++ ')' :: rest)

/-- A call that writes to the console and fills a line. -/
structure DiagnosticCall where
  indent : List Char
  method : List Char
  arguments : List Char
  semicolon : List Char
  trail : List Char
  carriage : List Char
  indented : ∀ c ∈ indent, c = ' ' ∨ c = '\t'
  writes : method = "log".toList ∨ method = "debug".toList ∨ method = "info".toList
  given : Arguments arguments
  closed : semicolon = [] ∨ semicolon = [';']
  trailed : ∀ c ∈ trail, c = ' ' ∨ c = '\t'
  returned : carriage = [] ∨ carriage = ['\r']

def DiagnosticCall.line (call : DiagnosticCall) : List Char :=
  call.indent ++ "console.".toList ++ call.method ++ '(' :: call.arguments ++ ')' :: call.semicolon ++ call.trail ++
    call.carriage ++ ['\n']

/-- The line is filled by a call that writes to the console. -/
def IsDiagnostic (line : List Char) : Prop := ∃ call : DiagnosticCall, call.line = line

theorem Arguments.one_line {w : List Char} (given : Arguments w) : '\n' ∉ w := by
  induction given with
  | none => exact List.not_mem_nil
  | plain other _ ih =>
    rw [List.mem_cons, not_or]
    exact ⟨fun same => other (by simp [← same]), ih⟩
  | nested others _ ih =>
    simp only [List.cons_append, List.mem_cons, List.mem_append, not_or]
    exact ⟨by decide, fun inside => others _ inside (by simp), by decide, ih⟩

/-- A diagnostic line ends with its only newline. -/
theorem IsDiagnostic.one_line {w : List Char} (diagnostic : IsDiagnostic w) :
    ∃ body, '\n' ∉ body ∧ w = body ++ ['\n'] := by
  obtain ⟨call, rfl⟩ := diagnostic
  have blank {w : List Char} (blanks : ∀ c ∈ w, c = ' ' ∨ c = '\t') : '\n' ∉ w := fun inside => by
    simpa using blanks _ inside
  have word : '\n' ∉ call.method := by rcases call.writes with same | same | same <;> rw [same] <;> decide
  have semicolon : '\n' ∉ call.semicolon := by rcases call.closed with same | same <;> rw [same] <;> decide
  have carriage : '\n' ∉ call.carriage := by rcases call.returned with same | same <;> rw [same] <;> decide
  refine ⟨_, ?_, rfl⟩
  have console : '\n' ∉ "console.".toList := by decide
  simp only [List.mem_append, List.mem_cons, not_or]
  exact ⟨⟨⟨⟨⟨⟨blank call.indented, console⟩, word⟩, by decide, call.given.one_line⟩, by decide, semicolon⟩,
    blank call.trailed⟩, carriage⟩

/-! ### The pattern of a diagnostic line -/

/-- Blanks within a line. -/
def blanks : Expr := .repeat (.char (.unions [.single ' ', .single '\t'])) 0 none true

/-- A character that is no parenthesis and ends no line. -/
def argumentChar : CharClass := .complement (.unions [.single '(', .single ')', .single '\n'])

def argumentsPattern : Expr :=
  .repeat (.alt (Expr.sequence [.char argumentChar])
    (Expr.sequence [.char (.single '('), .repeat (.char argumentChar) 0 none true, .char (.single ')')])) 0 none true

def methodPattern : Expr :=
  .alt (Expr.sequence (literal ['l', 'o', 'g'])) (.alt (Expr.sequence (literal ['d', 'e', 'b', 'u', 'g']))
    (Expr.sequence (literal ['i', 'n', 'f', 'o'])))

/-- The end of a line, perhaps with a carriage return. -/
def lineBreak : List Expr := [.repeat (.char (.single '\r')) 0 (some 1) true, .char (.single '\n')]

def diagnosticPattern : List Expr :=
  blanks :: literal ['c', 'o', 'n', 's', 'o', 'l', 'e', '.'] ++ methodPattern :: .char (.single '(') :: argumentsPattern ::
    .char (.single ')') :: .repeat (.char (.single ';')) 0 (some 1) true :: blanks :: lineBreak

theorem plain_diagnosticPattern : ∀ e ∈ diagnosticPattern, e.plain := by
  decide

def lineRegex : Regex := ⟨Expr.sequence (.look .textStart :: (diagnosticPattern ++ [.look .textEnd])), []⟩

theorem diagnosticLine_eq : diagnosticLine = lineRegex :=
  Regex.of_eq (toList_append_of (toList_append_of (toList_of_chars rfl) (toList_of_chars rfl)) (toList_of_chars rfl))
    (by decide +kernel)

theorem diagnosticLine_expr :
    diagnosticLine.expr = Expr.sequence (.look .textStart :: (diagnosticPattern ++ [.look .textEnd])) :=
  congrArg Regex.expr diagnosticLine_eq

theorem has_argumentChar {c : Char} : argumentChar.has c ↔ c ∉ ['(', ')', '\n'] := by
  simp [argumentChar, CharClass.has, CharClass.unions, and_assoc]

theorem spells_blanks {w : List Char} : blanks.Spells w ↔ ∀ c ∈ w, c = ' ' ∨ c = '\t' := by
  simp [blanks, Expr.spells_star, CharClass.has, CharClass.unions]

theorem spells_arguments {w : List Char} : argumentsPattern.Spells w ↔ Arguments w := by
  constructor
  · rintro ⟨ws, -, -, words, rfl⟩
    induction ws with
    | nil => exact .none
    | cons u ws ih =>
      obtain ⟨word, words⟩ := List.forall_mem_cons.mp words
      have more := ih words
      rcases word with word | word
      · rw [Expr.spells_sequence] at word
        obtain ⟨_, _, ⟨c, has, rfl⟩, rfl, rfl⟩ := word
        exact .plain (has_argumentChar.mp has) more
      · rw [Expr.spells_sequence, spellsAll_char] at word
        obtain ⟨_, ⟨inner, _, others, close, rfl⟩, rfl⟩ := word
        obtain ⟨_, rfl, rfl⟩ := spellsAll_char.mp close
        have others c member := has_argumentChar.mp (Expr.spells_star.mp others c member)
        simpa using Arguments.nested others more
  · intro given
    induction given with
    | none => exact ⟨[], Nat.le.refl, nofun, nofun, rfl⟩
    | @plain c rest other _ ih =>
      obtain ⟨ws, -, -, words, rfl⟩ := ih
      refine ⟨[c] :: ws, Nat.zero_le _, nofun, List.forall_mem_cons.mpr ⟨.inl ?_, words⟩, rfl⟩
      exact Expr.spells_sequence.mpr ⟨[c], [], ⟨c, has_argumentChar.mpr other, rfl⟩, rfl, rfl⟩
    | @nested inner rest others _ ih =>
      obtain ⟨ws, -, -, words, rfl⟩ := ih
      refine ⟨('(' :: inner ++ [')']) :: ws, Nat.zero_le _, nofun, List.forall_mem_cons.mpr ⟨.inr ?_, words⟩, by simp⟩
      refine Expr.spells_sequence.mpr (spellsAll_char.mpr ⟨_, ⟨inner, [')'], ?_, ?_, rfl⟩, rfl⟩)
      · exact Expr.spells_star.mpr fun c member => has_argumentChar.mpr (others c member)
      · exact spellsAll_char.mpr ⟨[], rfl, rfl⟩

theorem spells_method {w : List Char} :
    methodPattern.Spells w ↔ w = "log".toList ∨ w = "debug".toList ∨ w = "info".toList := by
  have word (v : List Char) : (Expr.sequence (literal v)).Spells w ↔ w = v := by
    rw [Expr.spells_sequence, ← List.append_nil (literal v), Expr.spellsAll_literal]
    simp [SpellsAll]
  rw [methodPattern, Expr.Spells, Expr.Spells, word, word, word]
  exact Iff.rfl

theorem spellsAll_lineBreak {w : List Char} :
    SpellsAll lineBreak w ↔ ∃ carriage, (carriage = [] ∨ carriage = ['\r']) ∧ w = carriage ++ ['\n'] := by
  have single (d : Char) (w : List Char) : (Expr.char (.single d)).Spells w ↔ w = [d] := by
    simp [Expr.Spells]
  simp only [lineBreak, SpellsAll, Expr.spells_optional, single]
  constructor
  · rintro ⟨carriage, _, returned, ⟨_, _, rfl, rfl, rfl⟩, rfl⟩
    exact ⟨carriage, returned, rfl⟩
  · rintro ⟨carriage, returned, rfl⟩
    exact ⟨carriage, _, returned, ⟨_, _, rfl, rfl, rfl⟩, rfl⟩

theorem spellsAll_diagnostic {w : List Char} : SpellsAll diagnosticPattern w ↔ IsDiagnostic w := by
  constructor
  · rintro ⟨indent, _, indented, called, rfl⟩
    obtain ⟨_, ⟨method, _, writes, opened, rfl⟩, rfl⟩ := (Expr.spellsAll_literal _).mp called
    obtain ⟨_, ⟨arguments, _, given, ended, rfl⟩, rfl⟩ := spellsAll_char.mp opened
    obtain ⟨_, ⟨semicolon, _, closed, ⟨trail, _, trailed, broken, rfl⟩, rfl⟩, rfl⟩ := spellsAll_char.mp ended
    obtain ⟨carriage, returned, rfl⟩ := spellsAll_lineBreak.mp broken
    refine ⟨⟨indent, method, arguments, semicolon, trail, carriage, spells_blanks.mp indented, spells_method.mp writes,
      spells_arguments.mp given, ?_, spells_blanks.mp trailed, returned⟩, ?_⟩
    · rcases Expr.spells_optional.mp closed with rfl | ⟨c, has, rfl⟩
      · exact .inl rfl
      · exact .inr (by simpa using has)
    · simp [DiagnosticCall.line]
  · rintro ⟨call, rfl⟩
    have closed : (Expr.repeat (.char (.single ';')) 0 (some 1) true).Spells call.semicolon := by
      refine Expr.spells_optional.mpr (call.closed.imp_right fun same => ⟨';', ?_, same⟩)
      simp
    have broken := spellsAll_lineBreak.mpr ⟨call.carriage, call.returned, rfl⟩
    have ended := (spellsAll_char (c := ')')).mpr ⟨_, spellsAll_cons closed (spellsAll_cons (spells_blanks.mpr call.trailed) broken), rfl⟩
    have opened := (spellsAll_char (c := '(')).mpr ⟨_, spellsAll_cons (spells_arguments.mpr call.given) ended, rfl⟩
    have called := (Expr.spellsAll_literal "console.".toList).mpr ⟨_, spellsAll_cons (spells_method.mpr call.writes) opened, rfl⟩
    refine ⟨_, _, spells_blanks.mpr call.indented, called, ?_⟩
    simp [DiagnosticCall.line]

/-- The pattern finds the lines that are filled by a call that writes to the console. -/
theorem diagnosticLine_isMatch (line : List Char) : diagnosticLine.isMatch line ↔ IsDiagnostic line := by
  rw [Pattern.Regex.isMatch_anchored diagnosticLine_expr (by rw [diagnosticLine_expr]; decide)
    (by rw [diagnosticLine_expr]; decide)]
  constructor
  · rintro ⟨_, leads⟩
    obtain ⟨q, first, _, ⟨ends, rfl⟩, rfl⟩ := leadsAll_append.mp leads
    obtain ⟨w, spelled, ⟨behind, starts⟩, rfl⟩ := (leadsAll_iff_spells plain_diagnosticPattern).mp first
    have nothing : behind = [] := by
      rw [Look.holds, Progress.past_rest starts.symm] at ends
      exact List.isEmpty_iff.mp ends
    have whole : w = line := by rw [← List.append_nil w, ← nothing]; exact starts
    exact whole ▸ spellsAll_diagnostic.mp spelled
  · intro diagnostic
    have first : LeadsAll diagnosticPattern ⟨.start line, []⟩ (Progress.past ⟨.start line, []⟩ line) :=
      (leadsAll_iff_spells plain_diagnosticPattern).mpr
        ⟨line, spellsAll_diagnostic.mpr diagnostic, List.prefix_rfl, rfl⟩
    refine ⟨_, leadsAll_append.mpr ⟨_, first, _, ⟨?_, rfl⟩, rfl⟩⟩
    rw [Look.holds, @Progress.past_rest _ line [] (List.append_nil line).symm]
    rfl

/-! ### Which lines go -/

/-- The line holds code: it is neither blank nor a comment. -/
def isCode (line : List Char) : Bool :=
  !((Text.trim line).isEmpty || "//".toList.isPrefixOf (Text.trim line))

/-- A statement starts below some lines: the last line of code ends a statement or opens a block, or there is none. -/
def StartsBelow (lines : List (List Char)) : Prop :=
  ∀ line, (lines.filter isCode).getLast? = some line → endsStatement (Text.trim line)

theorem statementStarts_eq (before : Bool) (line : List Char) :
    statementStarts before line = if isCode line then endsStatement (Text.trim line) else before := by
  rw [statementStarts, isCode]
  cases (Text.trim line).isEmpty || "//".toList.isPrefixOf (Text.trim line) <;> rfl

/-- Only the last line of code counts. -/
theorem foldl_statementStarts (starts : Bool) (lines : List (List Char)) :
    lines.foldl statementStarts starts =
      ((lines.filter isCode).getLast?.elim starts fun line => endsStatement (Text.trim line)) := by
  induction lines using List.reverseRecOn with
  | nil => rfl
  | append_singleton lines line ih =>
    rw [List.foldl_append, List.foldl_cons, List.foldl_nil, statementStarts_eq, List.filter_append]
    by_cases code : isCode line
    · simp [code]
    · simp [code, ih]

theorem startsBelow_iff (lines : List (List Char)) : StartsBelow lines ↔ lines.foldl statementStarts true := by
  rw [foldl_statementStarts, StartsBelow]
  cases (lines.filter isCode).getLast? <;> simp

/-- The lines that are not taken out. -/
def kept (judged : List (List Char × Bool)) : List (List Char) := (judged.filter (!·.2)).map (·.1)

/-- Lines, each with whether it is taken out. -/
def judge : Bool → List (List Char) → List (List Char × Bool)
  | _, [] => []
  | starts, line :: lines =>
    let taken := starts && diagnosticLine.isMatch line
    (line, taken) :: judge (if taken then starts else statementStarts starts line) lines

theorem map_judge (starts : Bool) (lines : List (List Char)) : (judge starts lines).map (·.1) = lines := by
  induction lines generalizing starts with
  | nil => rfl
  | cons line lines ih => rw [judge, List.map_cons, ih]

theorem dropDiagnostics_eq (starts : Bool) (lines : List (List Char)) :
    dropDiagnostics starts lines = (kept (judge starts lines), (judge starts lines).countP (·.2)) := by
  induction lines generalizing starts with
  | nil => rfl
  | cons line lines ih =>
    rw [dropDiagnostics, judge]
    cases taken : starts && diagnosticLine.isMatch line
    · rw [if_neg Bool.false_ne_true, ih]
      simp [kept]
    · rw [if_pos rfl, ih]
      simp [kept]

/-- Whether a line goes depends on the lines above it that stay. -/
theorem taken_eq {starts taken : Bool} {line : List Char} {front rest : List (List Char × Bool)}
    (here : judge starts lines = front ++ (line, taken) :: rest) :
    taken = ((kept front).foldl statementStarts starts && diagnosticLine.isMatch line) := by
  induction front generalizing starts lines with
  | nil =>
    cases lines with
    | nil => cases here
    | cons first lines =>
      rw [judge, List.nil_append] at here
      injection here with here
      injection here with same taken
      rw [← same, ← taken]
      rfl
  | cons first front ih =>
    cases lines with
    | nil => cases here
    | cons l lines =>
      rw [judge, List.cons_append] at here
      injection here with same here
      rw [ih here, ← same]
      cases starts && diagnosticLine.isMatch l <;> simp [kept]

/-- What stays is not taken in a second run. -/
theorem judge_kept (starts : Bool) (lines : List (List Char)) :
    judge starts (kept (judge starts lines)) = (kept (judge starts lines)).map (·, false) := by
  induction lines generalizing starts with
  | nil => rfl
  | cons line lines ih =>
    rw [judge]
    cases taken : starts && diagnosticLine.isMatch line
    · have stays : kept ((line, false) :: judge (statementStarts starts line) lines) =
          line :: kept (judge (statementStarts starts line) lines) := rfl
      simp only [Bool.false_eq_true, if_false]
      rw [stays, judge, taken, List.map_cons]
      simp only [Bool.false_eq_true, if_false, ih]
    · exact ih starts

theorem removeDiagnostics_eq (text : List Char) :
    removeDiagnostics text =
      let judged := judge true (linesOf text)
      if judged.countP (·.2) = 0 then none else some ((kept judged).flatten, judged.countP (·.2)) := by
  simp only [removeDiagnostics, dropDiagnostics_eq, beq_iff_eq]

/-- Whole lines go and nothing else: the lines that are filled by a call that writes to the console and below which
of the lines that stay a statement starts. In what is left no line goes. -/
theorem removeDiagnostics_lines (text : List Char) :
    ∃ judged : List (List Char × Bool),
      (AreLines (judged.map (·.1)) ∧ (judged.map (·.1)).flatten = text) ∧
      (∀ front line taken rest, judged = front ++ (line, taken) :: rest →
        (taken = true ↔ IsDiagnostic line ∧ StartsBelow (kept front))) ∧
      (removeDiagnostics text = if judged.countP (·.2) = 0 then none
        else some ((kept judged).flatten, judged.countP (·.2))) ∧
      removeDiagnostics (kept judged).flatten = none := by
  refine ⟨judge true (linesOf text), ?_, ?_, removeDiagnostics_eq text, ?_⟩
  · rw [map_judge]
    exact ⟨areLines_linesOf text, flatten_linesOf text⟩
  · intro front line taken rest here
    rw [taken_eq here, Bool.and_eq_true, startsBelow_iff, diagnosticLine_isMatch, and_comm]
  · have part : (kept (judge true (linesOf text))).Sublist (linesOf text) := by
      conv => rhs; rw [← map_judge true (linesOf text)]
      exact List.filter_sublist.map _
    have cut := (areLines_linesOf text).sublist part
    simp only [removeDiagnostics_eq, cut.linesOf_flatten, judge_kept]
    rw [if_pos (List.countP_eq_zero.mpr ?_)]
    simp

end SourceRepair.Fallback
