import SourceRepair.Learning.Extract
import SourceRepair.Proofs.Learning.Compiled
import SourceRepair.Proofs.Pattern.Replacing

/-!
# The learned directive rule

The rule looks at the first visible character of a file alone. If that is neither a quote nor `#`, the directive
line is put before the whole text; the text then starts with a quote, so the rule does nothing more. A comment
before the directive is taken for code.
-/

namespace SourceRepair.Learning

open Pattern (Regex Place Progress Match CharClass Expr toList_of_chars toList_append_of)
open Pattern.Expr (literal LeadsAll leadsAll_append leadsAll_iff_spells)

variable {before after cs : List Char} {layer : LayerId} {rule : Rule} {m : Match} {quote : Char} {q : Progress}

/-! ### What is mined -/

def quotes : CharClass := .unions [.single '\x27', .single '"']

/-- What may stand before the directive in the text that is learned from. -/
def directiveLead : List Expr :=
  [.repeat (Expr.sequence [.char (.single '#'), .char (.single '!'),
      .repeat (.char (.complement (.unions [.single '\n']))) 0 none true, .char (.single '\n')]) 0 (some 1) true,
    .repeat (.char .space) 0 none true]

def directiveTail : List Expr :=
  literal ['u', 's', 'e', ' ', 'c', 'l', 'i', 'e', 'n', 't'] ++ [.char quotes, .repeat (.char (.single ';')) 0 (some 1) true]

def leadingRegex : Regex where
  expr := Expr.sequence (.look .textStart :: (directiveLead ++ .group 1 (Expr.sequence [.char quotes]) :: directiveTail))
  names := []

theorem leadingDirective_eq : leadingDirective = leadingRegex :=
  Regex.of_eq (toList_of_chars rfl) (by decide +kernel)

/-- A hashbang and blank lines may stand in front of the directive. -/
example : (leadingRegex.first? "#!x\n\n\"use client\"\nf()\n".toList).map (·.group 1) = some ['"'] := by
  decide +kernel

theorem has_quotes {c : Char} : quotes.has c ↔ c = '\x27' ∨ c = '"' := by
  simp [quotes, CharClass.has, CharClass.unions]

theorem quote_of_lead {r : Regex}
    (anchored : r.expr = Expr.sequence (.look .textStart ::
      (directiveLead ++ .group 1 (Expr.sequence [.char quotes]) :: directiveTail)))
    (found : r.first? after = some m) : ∃ quote, (quote = '\x27' ∨ quote = '"') ∧ m.group 1 = [quote] := by
  have bounded : r.expr.bounded := by rw [anchored]; decide
  rw [Regex.first?_anchored anchored bounded] at found
  have leads := Regex.leads_of_matchAt bounded found
  rw [anchored, Expr.leads_sequence] at leads
  obtain ⟨_, ⟨-, rfl⟩, leads⟩ := leads
  obtain ⟨_, lead, r, grouped, tail⟩ := leadsAll_append.mp leads
  obtain ⟨u, -, -, rfl⟩ := (leadsAll_iff_spells (by decide)).mp lead
  obtain ⟨w, spelled, -, rfl⟩ := (Expr.leads_group rfl).mp grouped
  obtain ⟨v, -, -, same⟩ := (leadsAll_iff_spells (by decide)).mp tail
  obtain ⟨_, _, ⟨quote, has, rfl⟩, rfl, rfl⟩ := Expr.spells_sequence.mp spelled
  refine ⟨quote, has_quotes.mp has, ?_⟩
  have captured : m.captures = [(1, [quote])] := congrArg Progress.captures same
  rw [Match.group, Match.group?, captured]
  rfl

/-- The quote of the directive that is learned from. -/
theorem quote_of_leadingDirective (found : leadingDirective.first? after = some m) :
    ∃ quote, (quote = '\x27' ∨ quote = '"') ∧ m.group 1 = [quote] :=
  quote_of_lead (congrArg Regex.expr leadingDirective_eq) found

/-! ### What the rule finds -/

/-- The first visible character is neither a quote nor `#`. -/
def startsWithCode (cs : List Char) : Bool :=
  (cs.find? (!Text.isSpace ·)).any fun c => c != '\x27' && c != '"' && c != '#'

def directiveRegex : Regex where
  expr := Expr.sequence [.look .textStart, .group 1 (Expr.sequence [.repeat (.char .space) 0 none true]),
    .group 2 (Expr.sequence [.char (.complement (.unions [.single '\x27', .single '"', .space, .single '#']))])]
  names := []

/-- What the rule puts before a text. -/
def directiveLine (quote : Char) : List Char := quote :: "use client".toList ++ [quote, ';', '\n']

/-- The rule that is ready to run. -/
def directiveRule (quote : Char) : Compiled :=
  ⟨directiveRegex, false, directiveLine quote ++ ['$', '\x7b', '1', '\x7d', '$', '\x7b', '2', '\x7d']⟩

theorem compile_directive (quotes : quote = '\x27' ∨ quote = '"') :
    compile (joinPattern directiveSource "")
      (String.ofList [quote] ++ "use client" ++ String.ofList [quote] ++ ";\n$1$2") = .ok (directiveRule quote) := by
  have read : Regex.read? directiveSource = some directiveRegex :=
    (Regex.read?_eq (toList_of_chars rfl)).trans (by decide +kernel)
  have chars : (String.ofList [quote] ++ "use client" ++ String.ofList [quote] ++ ";\n$1$2").toList =
      directiveLine quote ++ ['$', '1', '$', '2'] := by
    simp [directiveLine]
  have translated : translate (directiveLine quote ++ ['$', '1', '$', '2']) =
      directiveLine quote ++ ['$', '\x7b', '1', '\x7d', '$', '\x7b', '2', '\x7d'] := by
    rcases quotes with rfl | rfl <;> decide +kernel
  rw [show ("" : String) = String.ofList [] from rfl, compile_join [] nofun rfl rfl read, chars, translated]
  rfl

theorem leads_directiveRegex : directiveRegex.expr.Leads ⟨.start cs, []⟩ q ↔ ∃ blank c rest,
    cs = blank ++ c :: rest ∧ (∀ d ∈ blank, Text.isSpace d) ∧
      (Text.isSpace c = false ∧ (c != '\x27' && c != '"' && c != '#')) ∧
      q = ⟨(Place.start cs).past (blank ++ [c]), [(2, [c]), (1, blank)]⟩ := by
  have has {c : Char} : (CharClass.complement (.unions [.single '\x27', .single '"', .space, .single '#'])).has c ↔
      Text.isSpace c = false ∧ (c != '\x27' && c != '"' && c != '#') := by
    simp [CharClass.has, CharClass.unions]
    tauto
  have spaces {w : List Char} :
      (Expr.sequence [.repeat (.char .space) 0 none true]).Spells w ↔ ∀ c ∈ w, Text.isSpace c := by
    rw [Expr.spells_sequence]
    constructor
    · rintro ⟨u, _, spelled, rfl, rfl⟩
      rw [List.append_nil]
      exact Expr.spells_star.mp spelled
    · exact fun blank => ⟨w, [], Expr.spells_star.mpr blank, rfl, (List.append_nil w).symm⟩
  have one {set : CharClass} {w : List Char} : (Expr.sequence [.char set]).Spells w ↔ ∃ c, set.has c ∧ w = [c] := by
    rw [Expr.spells_sequence]
    constructor
    · rintro ⟨_, _, ⟨c, member, rfl⟩, rfl, rfl⟩
      exact ⟨c, member, rfl⟩
    · rintro ⟨c, member, rfl⟩
      exact ⟨[c], [], ⟨c, member, rfl⟩, rfl, rfl⟩
  rw [directiveRegex, Expr.leads_sequence]
  constructor
  · rintro ⟨_, ⟨-, rfl⟩, _, first, _, second, rfl⟩
    obtain ⟨blank, spelled, ⟨rest, starts⟩, rfl⟩ := (Expr.leads_group rfl).mp first
    obtain ⟨_, spelled', ⟨rest', starts'⟩, rfl⟩ := (Expr.leads_group rfl).mp second
    obtain ⟨c, member, rfl⟩ := one.mp spelled'
    rw [Place.past_rest starts.symm] at starts'
    refine ⟨blank, c, rest', ?_, spaces.mp spelled, has.mp member, ?_⟩
    · exact (starts.symm.trans (congrArg (blank ++ ·) starts'.symm))
    · rw [Place.past_past]
  · rintro ⟨blank, c, rest, rfl, spelled, code, rfl⟩
    refine ⟨_, ⟨rfl, rfl⟩, _, (Expr.leads_group rfl).mpr ⟨blank, spaces.mpr spelled, ⟨c :: rest, rfl⟩, rfl⟩, _,
      (Expr.leads_group rfl).mpr ⟨[c], one.mpr ⟨c, has.mpr code, rfl⟩, ?_, rfl⟩, ?_⟩
    · rw [Place.past_rest rfl]
      exact ⟨rest, rfl⟩
    · rw [Place.past_past]
      rfl

theorem find?_of_blank {blank : List Char} (spaces : ∀ d ∈ blank, Text.isSpace d) (rest : List Char) :
    (blank ++ rest).find? (!Text.isSpace ·) = rest.find? (!Text.isSpace ·) := by
  rw [List.find?_append, List.find?_eq_none.mpr fun d member => by simp [spaces d member]]
  rfl

theorem startsWithCode_iff : startsWithCode cs ↔ ∃ blank c rest, cs = blank ++ c :: rest ∧
    (∀ d ∈ blank, Text.isSpace d) ∧ Text.isSpace c = false ∧ (c != '\x27' && c != '"' && c != '#') := by
  constructor
  · intro starts
    obtain ⟨c, found, code⟩ := (Option.any_eq_true _ _).mp starts
    obtain ⟨visible, blank, rest, whole, spaces⟩ := List.find?_eq_some_iff_append.mp found
    exact ⟨blank, c, rest, whole, fun d member => by simpa using spaces d member, by simpa using visible, code⟩
  · rintro ⟨blank, c, rest, rfl, spaces, visible, code⟩
    rw [startsWithCode, find?_of_blank spaces, List.find?_cons, visible]
    exact code

/-- A hashbang is no code, and a comment is taken for code. -/
example : startsWithCode "#!/bin/sh\n".toList = false ∧ startsWithCode "\n // a\n".toList = true := by
  decide +kernel

/-- The rule matches once, at the start of a text, up to its first visible character. -/
theorem first?_directiveRegex {blank rest : List Char} {c : Char} (spaces : ∀ d ∈ blank, Text.isSpace d)
    (visible : Text.isSpace c = false) (code : c != '\x27' && c != '"' && c != '#') :
    directiveRegex.first? (blank ++ c :: rest) =
      some ⟨.start (blank ++ c :: rest), (Place.start (blank ++ c :: rest)).past (blank ++ [c]),
        [(2, [c]), (1, blank)]⟩ := by
  rw [Regex.first?_anchored rfl (by decide)]
  refine Regex.matchAt?_eq (by decide) (by decide)
    (leads_directiveRegex.mpr ⟨blank, c, rest, rfl, spaces, ⟨visible, code⟩, rfl⟩) fun q leads => ?_
  obtain ⟨blank', c', rest', same, spaces', ⟨visible', -⟩, rfl⟩ := leads_directiveRegex.mp leads
  -- Both blanks are all that stands before the first visible character.
  have lead {blank rest : List Char} {c : Char} (spaces : ∀ d ∈ blank, Text.isSpace d)
      (visible : Text.isSpace c = false) : (blank ++ c :: rest).takeWhile Text.isSpace = blank := by
    rw [List.takeWhile_append_of_pos spaces, List.takeWhile_cons, visible]
    exact List.append_nil blank
  obtain rfl : blank = blank' := by rw [← lead spaces visible, same, lead spaces' visible']
  obtain ⟨rfl, -⟩ : c = c' ∧ rest = rest' := by simpa using same
  rfl

theorem first?_directiveRegex_none (other : startsWithCode cs = false) : directiveRegex.first? cs = none := by
  rw [Regex.first?_anchored rfl (by decide)]
  refine Regex.matchAt?_eq_none (by decide) fun q leads => ?_
  obtain ⟨blank, c, rest, whole, spaces, ⟨visible, code⟩, -⟩ := leads_directiveRegex.mp leads
  have starts := startsWithCode_iff.mpr ⟨blank, c, rest, whole, spaces, visible, code⟩
  rw [other] at starts
  cases starts

/-! ### What the rule does -/

theorem plain_directiveLine (quotes : quote = '\x27' ∨ quote = '"') : '$' ∉ directiveLine quote := by
  rcases quotes with rfl | rfl <;> decide

/-- The directive line goes before the whole text if the text starts with code, and nothing happens otherwise. -/
theorem apply_directiveRule (quotes : quote = '\x27' ∨ quote = '"') (text : String) :
    (directiveRule quote).apply text =
      if startsWithCode text.toList then some (String.ofList (directiveLine quote ++ text.toList)) else none := by
  rw [Compiled.apply]
  simp only [directiveRule, Bool.false_eq_true, if_false, Regex.replaceFirst]
  by_cases starts : startsWithCode text.toList
  · obtain ⟨blank, c, rest, whole, spaces, visible, code⟩ := startsWithCode_iff.mp starts
    have expanded (m : Match) (first : m.group 1 = blank) (second : m.group 2 = [c]) :
        directiveRegex.expand m (directiveLine quote ++ ['$', '\x7b', '1', '\x7d', '$', '\x7b', '2', '\x7d']) =
          directiveLine quote ++ (blank ++ [c]) := by
      rw [Regex.expand_plain _ _ (plain_directiveLine quotes), Regex.expand_group _ _ rfl, Regex.expand_group _ _ rfl,
        Regex.expand]
      exact congrArg _ (by rw [← first, ← second]; simp)
    have longer : directiveLine quote ++ (blank ++ c :: rest) ≠ blank ++ c :: rest := fun same => by
      have := congrArg List.length same
      rw [List.length_append, directiveLine, List.length_append, List.length_cons, List.length_cons] at this
      omega
    rw [if_pos starts, whole, first?_directiveRegex spaces visible code, Option.toList_some, Pattern.replaceMatches,
      Pattern.replaceMatches, expanded _ rfl rfl]
    have rest_eq : ((Place.start (blank ++ c :: rest)).past (blank ++ [c])).rest = rest :=
      Place.past_rest (by simp [Place.start])
    have none_before : (Place.start (blank ++ c :: rest)).until (Place.start (blank ++ c :: rest)) = [] := rfl
    simp only [rest_eq, none_before, List.nil_append, List.append_assoc, List.singleton_append]
    rw [if_neg (by simpa using longer)]
  · rw [first?_directiveRegex_none (by simpa using starts)]
    simp [Pattern.replaceMatches, Place.start, starts]

theorem startsWithCode_directiveLine (quotes : quote = '\x27' ∨ quote = '"') (cs : List Char) :
    startsWithCode (directiveLine quote ++ cs) = false := by
  rcases quotes with rfl | rfl <;> rfl

theorem rewritten_once (quotes : quote = '\x27' ∨ quote = '"') (text : String) :
    (directiveRule quote).apply ((directiveRule quote).rewrite text) = none := by
  rw [Compiled.rewrite, apply_directiveRule quotes text]
  by_cases starts : startsWithCode text.toList
  · rw [if_pos starts, Option.getD_some, apply_directiveRule quotes, String.toList_ofList,
      startsWithCode_directiveLine quotes]
    rfl
  · rw [if_neg starts, Option.getD_none, apply_directiveRule quotes, if_neg starts]

/-- The rule that is learned puts the directive line before every text whose first visible character is neither a
quote nor a hash sign, leaves every other text alone, and changes none of its own results. -/
theorem learned_directive (mined : directiveInsertion before after layer = some rule) :
    ∃ quote c, (quote = '\x27' ∨ quote = '"') ∧ compile rule.pattern rule.replacement = .ok c ∧
      ∀ text : String,
        (c.apply text = if startsWithCode text.toList then some (String.ofList (directiveLine quote ++ text.toList))
          else none) ∧
        c.apply (c.rewrite text) = none := by
  rw [directiveInsertion] at mined
  split at mined
  · cases mined
  · obtain ⟨m, found, same⟩ := Option.bind_eq_some_iff.mp mined
    obtain ⟨quote, quotes, taken⟩ := quote_of_leadingDirective found
    cases same
    refine ⟨quote, directiveRule quote, quotes, ?_, fun text => ⟨apply_directiveRule quotes text, rewritten_once quotes text⟩⟩
    rw [taken]
    exact compile_directive quotes

/-- A rule is learned from an import that got a directive. -/
theorem directiveInsertion_small :
    (directiveInsertion "import a from \x27a\x27;\n".toList
      "\x27use client\x27;\nimport a from \x27a\x27;\n".toList .framework).map
        (fun rule => compile rule.pattern rule.replacement) = some (.ok (directiveRule '\x27')) := by
  have silent : leadingRegex.isMatch "import a from \x27a\x27;\n".toList = false := by decide +kernel
  have found : (leadingRegex.first? "\x27use client\x27;\nimport a from \x27a\x27;\n".toList).map (·.group 1) =
      some ['\x27'] := by
    decide +kernel
  obtain ⟨m, found, quoted⟩ := Option.map_eq_some_iff.mp found
  simp only [directiveInsertion, leadingDirective_eq, silent, found, quoted, Bool.false_eq_true, if_false, Option.bind,
    bind]
  exact congrArg some (compile_directive (.inl rfl))

theorem learned_directive_small : ∃ rule c,
    directiveInsertion "import a from \x27a\x27;\n".toList "\x27use client\x27;\nimport a from \x27a\x27;\n".toList
      .framework = some rule ∧ compile rule.pattern rule.replacement = .ok c ∧
      c.apply "f()" = some "\x27use client\x27;\nf()" ∧ c.apply "\x27use client\x27;\nf()" = none := by
  obtain ⟨rule, mined, compiled⟩ := Option.map_eq_some_iff.mp directiveInsertion_small
  obtain ⟨quote, c, quotes, compiled', applied⟩ := learned_directive mined
  obtain rfl : directiveRule '\x27' = c := Except.ok.inj (compiled.symm.trans compiled')
  obtain rfl : '\x27' = quote := by
    have lined := (apply_directiveRule (.inl rfl) "f()").symm.trans (applied "f()").1
    rcases quotes with rfl | rfl
    · rfl
    · revert lined
      decide +kernel
  refine ⟨rule, _, mined, compiled, (applied _).1.trans (by decide +kernel), (applied _).1.trans (by decide +kernel)⟩

/-- A directive that stands below a comment is put in once more, although it is the first statement of the file. -/
theorem directive_repeated :
    let text := "// c\n\x27use client\x27;\nf()\n"
    (Script.parse? .strict ⟨false, false, false, .module⟩ text).map (·.directives.map (·.text)) =
        some ["use client"] ∧
      ∃ rule c, directiveInsertion "import a from \x27a\x27;\n".toList
        "\x27use client\x27;\nimport a from \x27a\x27;\n".toList .framework = some rule ∧
        compile rule.pattern rule.replacement = .ok c ∧ c.apply text = some ("\x27use client\x27;\n" ++ text) := by
  refine ⟨by decide +kernel, ?_⟩
  obtain ⟨rule, mined, compiled⟩ := Option.map_eq_some_iff.mp directiveInsertion_small
  exact ⟨rule, _, mined, compiled, (apply_directiveRule (.inl rfl) _).trans (by decide +kernel)⟩

end SourceRepair.Learning
