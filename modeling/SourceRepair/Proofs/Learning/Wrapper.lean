import SourceRepair.Learning.Extract
import SourceRepair.Proofs.Learning.Dialect
import SourceRepair.Proofs.Pattern.Groups

/-!
# The learned wrapper rule

The rule that is learned from a wrapped element puts every returned self-closing element between the tags that were
observed. The tags go through the dialect of stored replacements and through the expansion of templates, and come out
as they were, whatever dollar signs, digits or braces stand in them.
-/

namespace SourceRepair.Text

theorem holds_iff_infix {needle cs : List Char} : holds needle cs ↔ needle <:+: cs := by
  induction cs with
  | nil => simp [holds]
  | cons c cs ih => simp [holds, ih, List.infix_cons_iff]

end SourceRepair.Text

namespace SourceRepair.Learning

open Pattern (Regex Match CharClass Expr Captures Rewritten toList_of_chars toList_append_of)
open Text (AreSpaces)
open Pattern.Expr (literal spaces spells_spaces spells_someSpaces SpellsAll TakesAll spellsAll_append spellsAll_set
  spellsAll_char spellsAll_word spells_star spells_optional takesAll_literal takesAll_char takesAll_plain_cons
  takesAll_group takesAll_plain takesAll_nil)

variable {before after w name opening closing element text out : List Char} {layer : LayerId} {rule : Rule}
  {d : Captures}

/-! ### Tags -/

def IsTagName (w : List Char) : Prop :=
  ∃ c rest, w = c :: rest ∧ ('A' ≤ c ∧ c ≤ 'Z') ∧ ∀ d ∈ rest, Text.isWordChar d ∨ d = '.'

def AreAttributes (w : List Char) : Prop :=
  w = [] ∨ ∃ c rest, w = c :: rest ∧ Text.isSpace c ∧ ∀ d ∈ rest, d ≠ '<' ∧ d ≠ '>'

/-- A tag that opens an element of the name. -/
def IsOpeningTag (name w : List Char) : Prop :=
  ∃ attributes, IsTagName name ∧ AreAttributes attributes ∧ w = '<' :: (name ++ (attributes ++ ['>']))

/-- An element that closes itself. -/
def IsElement (w : List Char) : Prop :=
  ∃ name attributes, IsTagName name ∧ AreAttributes attributes ∧ w = '<' :: (name ++ (attributes ++ ['/', '>']))

def closingTag (name : List Char) : List Char := '<' :: '/' :: (name ++ ['>'])

/-- A statement that returns the element. -/
def IsReturn (element w : List Char) : Prop :=
  ∃ blank, (blank ≠ [] ∧ AreSpaces blank) ∧ IsElement element ∧ w = "return".toList ++ (blank ++ (element ++ [';']))

/-- A statement that returns the element between tags of the name. -/
def IsWrapped (name opening element w : List Char) : Prop :=
  IsOpeningTag name opening ∧ IsElement element ∧ ∃ a b c d, (a ≠ [] ∧ AreSpaces a) ∧ AreSpaces b ∧ AreSpaces c ∧
    AreSpaces d ∧ w = "return".toList ++ (a ++ (opening ++ (b ++ (element ++ (c ++ (closingTag name ++ (d ++ [';'])))))))

/-- The text with every statement that returns a self-closing element written anew, with the element between two
tags. -/
def Wrapped (opening closing : List Char) : List Char → List Char → Prop :=
  Rewritten fun w g => ∃ element, IsReturn element w ∧
    g = "return ".toList ++ (opening ++ (element ++ (closing ++ [';'])))

/-! ### What the patterns match -/

def tagName : List Expr :=
  [.char (.unions [.range 'A' 'Z']), .repeat (.char (.unions [.word, .single '.'])) 0 none true]

def attributes : Expr :=
  .repeat (Expr.sequence [.char .space, .repeat (.char (.complement (.unions [.single '<', .single '>']))) 0 none true])
    0 (some 1) true

def selfClosing : List Expr :=
  .char (.single '<') :: (tagName ++ [attributes, .char (.single '/'), .char (.single '>')])

def returnParts : List Expr :=
  literal "return".toList ++ spaces 1 :: .group 1 (Expr.sequence selfClosing) :: [.char (.single ';')]

def openingParts : List Expr :=
  .char (.single '<') :: .group 2 (Expr.sequence tagName) :: [attributes, .char (.single '>')]

def closingParts : List Expr :=
  .char (.single '<') :: .char (.single '/') :: .group 4 (Expr.sequence tagName) ::
    [.char (.single '>'), spaces 0, .char (.single ';')]

def wrappedParts : List Expr :=
  literal "return".toList ++ spaces 1 :: .group 1 (Expr.sequence openingParts) :: spaces 0 ::
    .group 3 (Expr.sequence selfClosing) :: spaces 0 :: closingParts

/-- The pattern of the rule. -/
def returnRegex : Regex := ⟨Expr.sequence returnParts, []⟩

/-- The pattern for what is learned from. -/
def wrappedRegex : Regex := ⟨Expr.sequence wrappedParts, []⟩

theorem wrappedReturn_eq : wrappedReturn = wrappedRegex :=
  Regex.of_eq (toList_append_of (toList_of_chars rfl) (toList_of_chars rfl)) (by decide +kernel)

theorem read_return : Regex.read? selfClosingReturnSource = some returnRegex :=
  (Regex.read?_eq (toList_of_chars rfl)).trans rfl

theorem reads_returnRegex : returnRegex.Reads returnParts := ⟨rfl, by decide, ⟨by decide, by decide, by decide⟩⟩

theorem reads_wrappedRegex : wrappedRegex.Reads wrappedParts := ⟨rfl, by decide, ⟨by decide, by decide, by decide⟩⟩

/-- An element with children is not what the rule takes up. -/
example : (returnRegex.first? "return <A.B c/>;".toList).map (·.group 1) = some "<A.B c/>".toList ∧
    (returnRegex.first? "return <A><B/></A>;".toList).isNone := by
  decide +kernel

theorem spells_tagName : SpellsAll tagName w ↔ IsTagName w := by
  have upper (c : Char) : (CharClass.unions [.range 'A' 'Z']).has c ↔ 'A' ≤ c ∧ c ≤ 'Z' := by
    simp [CharClass.has, CharClass.unions]
  have named (c : Char) : (CharClass.unions [.word, .single '.']).has c ↔ Text.isWordChar c ∨ c = '.' := by
    simp [CharClass.has, CharClass.unions]
  rw [tagName, spellsAll_set]
  simp only [SpellsAll, spells_star, upper, named]
  constructor
  · rintro ⟨c, _, first, ⟨rest, _, all, rfl, rfl⟩, rfl⟩
    exact ⟨c, rest, by rw [List.append_nil], first, all⟩
  · rintro ⟨c, rest, rfl, first, all⟩
    exact ⟨c, rest, first, ⟨rest, [], all, rfl, (List.append_nil rest).symm⟩, rfl⟩

theorem spells_attributes : attributes.Spells w ↔ AreAttributes w := by
  have other (c : Char) :
      (CharClass.complement (.unions [.single '<', .single '>'])).has c ↔ c ≠ '<' ∧ c ≠ '>' := by
    simp [CharClass.has, CharClass.unions]
  rw [attributes, spells_optional, Expr.spells_sequence, spellsAll_set]
  simp only [SpellsAll, spells_star, other]
  refine or_congr_right ⟨?_, ?_⟩
  · rintro ⟨c, _, first, ⟨rest, _, all, rfl, rfl⟩, rfl⟩
    exact ⟨c, rest, by rw [List.append_nil], first, all⟩
  · rintro ⟨c, rest, rfl, first, all⟩
    exact ⟨c, rest, first, ⟨rest, [], all, rfl, (List.append_nil rest).symm⟩, rfl⟩

theorem spells_selfClosing : SpellsAll selfClosing w ↔ IsElement w := by
  have tail (v : List Char) : SpellsAll [attributes, .char (.single '/'), .char (.single '>')] v ↔
      ∃ u, AreAttributes u ∧ v = u ++ ['/', '>'] := by
    have closed (v : List Char) : SpellsAll [.char (.single '/'), .char (.single '>')] v ↔ v = ['/', '>'] :=
      spellsAll_word ['/', '>']
    rw [SpellsAll]
    simp only [spells_attributes, closed]
    constructor
    · rintro ⟨u, _, listed, rfl, rfl⟩
      exact ⟨u, listed, rfl⟩
    · rintro ⟨u, listed, rfl⟩
      exact ⟨u, _, listed, rfl, rfl⟩
  rw [selfClosing, spellsAll_char, IsElement]
  simp only [spellsAll_append, spells_tagName, tail]
  constructor
  · rintro ⟨_, ⟨name, _, named, ⟨attributes, listed, rfl⟩, rfl⟩, rfl⟩
    exact ⟨name, attributes, named, listed, rfl⟩
  · rintro ⟨name, attributes, named, listed, rfl⟩
    exact ⟨_, ⟨name, _, named, ⟨attributes, listed, rfl⟩, rfl⟩, rfl⟩

theorem takes_returnParts : TakesAll returnParts w [] d ↔ ∃ element, IsReturn element w ∧ d = [(1, element)] := by
  have plain : ∀ e ∈ selfClosing, e.plain := by decide
  simp only [returnParts, takesAll_literal, takesAll_plain_cons (e := spaces 1) rfl, spells_someSpaces, takesAll_group,
    takesAll_plain plain, spells_selfClosing, takesAll_char, takesAll_nil]
  constructor
  · rintro ⟨_, ⟨blank, _, spaced, ⟨element, _, _, ⟨closed, rfl⟩, ⟨_, ⟨rfl, rfl⟩, rfl⟩, rfl⟩, rfl⟩, rfl⟩
    exact ⟨element, ⟨blank, spaced, closed, rfl⟩, rfl⟩
  · rintro ⟨element, ⟨blank, spaced, closed, rfl⟩, rfl⟩
    exact ⟨_, ⟨blank, _, spaced, ⟨element, _, [], ⟨closed, rfl⟩, ⟨_, ⟨rfl, rfl⟩, rfl⟩, rfl⟩, rfl⟩, rfl⟩

theorem takes_openingParts {c : Captures} (took : TakesAll openingParts w c d) :
    ∃ name, IsOpeningTag name w ∧ d = (2, name) :: c := by
  have plain : ∀ e ∈ tagName, e.plain := by decide
  simp only [openingParts, takesAll_char, takesAll_group, takesAll_plain plain, spells_tagName,
    takesAll_plain_cons (e := attributes) rfl, spells_attributes, takesAll_nil] at took
  obtain ⟨_, ⟨name, _, _, ⟨named, rfl⟩, ⟨attributes, _, listed, ⟨_, ⟨rfl, rfl⟩, rfl⟩, rfl⟩, rfl⟩, rfl⟩ := took
  exact ⟨name, ⟨attributes, named, listed, rfl⟩, rfl⟩

theorem takes_closingParts {c : Captures} (took : TakesAll closingParts w c d) :
    ∃ name blank, AreSpaces blank ∧ w = closingTag name ++ (blank ++ [';']) ∧ d = (4, name) :: c := by
  have plain : ∀ e ∈ tagName, e.plain := by decide
  simp only [closingParts, takesAll_char, takesAll_group, takesAll_plain plain, takesAll_plain_cons (e := spaces 0) rfl,
    spells_spaces, takesAll_nil] at took
  obtain ⟨_, ⟨_, ⟨name, _, _, ⟨-, rfl⟩, ⟨_, ⟨blank, _, spaced, ⟨_, ⟨rfl, rfl⟩, rfl⟩, rfl⟩, rfl⟩, rfl⟩, rfl⟩, rfl⟩ := took
  exact ⟨name, blank, spaced, by simp [closingTag], rfl⟩

/-- What the pattern that is learned from takes, with the name in the closing tag for itself. -/
theorem takes_wrappedParts (took : TakesAll wrappedParts w [] d) : ∃ name opening element name',
    d = [(4, name'), (3, element), (1, opening), (2, name)] ∧ (name = name' → IsWrapped name opening element w) := by
  have plain : ∀ e ∈ selfClosing, e.plain := by decide
  simp only [wrappedParts, takesAll_literal, takesAll_plain_cons (e := spaces _) rfl, spells_someSpaces, spells_spaces,
    takesAll_group, takesAll_plain plain, spells_selfClosing] at took
  obtain ⟨_, ⟨a, _, first, ⟨opening, _, _, inner, ⟨b, _, second, ⟨element, _, _, ⟨closed, rfl⟩, ⟨c, _, third, last, rfl⟩,
    rfl⟩, rfl⟩, rfl⟩, rfl⟩, rfl⟩ := took
  obtain ⟨name, opens, rfl⟩ := takes_openingParts inner
  obtain ⟨name', x, fourth, rfl, rfl⟩ := takes_closingParts last
  refine ⟨name, opening, element, name', rfl, ?_⟩
  rintro rfl
  exact ⟨opens, closed, a, b, c, x, first, second, third, fourth, rfl⟩

/-! ### What the template writes -/

/-- The replacement of the rule as the matcher reads it. -/
def wrapperTemplate (opening name : List Char) : List Char :=
  "return ".toList ++ (escapeReplacement opening ++ (braced ['1'] ++ ('<' :: '/' :: (escapeReplacement name ++ ['>', ';']))))

/-- The rule that is ready to run. -/
def wrapperRule (opening name : List Char) : Compiled := ⟨returnRegex, true, wrapperTemplate opening name⟩

theorem compile_wrapper (opening name : List Char) :
    compile (joinPattern selfClosingReturnSource "g")
      ("return " ++ String.ofList (escapeReplacement opening) ++ "$1</" ++ String.ofList (escapeReplacement name) ++ ">;") =
      .ok (wrapperRule opening name) := by
  have chars : ("return " ++ String.ofList (escapeReplacement opening) ++ "$1</" ++
      String.ofList (escapeReplacement name) ++ ">;").toList =
      "return ".toList ++ (escapeReplacement opening ++ ('$' :: (['1'] ++ '<' :: '/' ::
        (escapeReplacement name ++ ['>', ';'])))) := by
    simp
  have translated : translate ('$' :: (['1'] ++ '<' :: '/' :: (escapeReplacement name ++ ['>', ';']))) =
      braced ['1'] ++ ('<' :: '/' :: (escapeReplacement name ++ ['>', ';'])) := by
    have last : translate ['>', ';'] = ['>', ';'] := by decide +kernel
    have read : ((['1'] ++ '<' :: '/' :: (escapeReplacement name ++ ['>', ';'])).take 2).takeWhile Char.isDigit = ['1'] := rfl
    rw [translate_digits read (by decide), translate_char (by decide), translate_char (by decide),
      translate_escape, last]
  rw [show ("g" : String) = String.ofList ['g'] from rfl, compile_join ['g'] (by decide) rfl rfl read_return, chars,
    translate_plain (by decide), translate_escape, translated]
  rfl

theorem expand_wrapper (m : Match) (opening name : List Char) :
    returnRegex.expand m (wrapperTemplate opening name) =
      "return ".toList ++ (opening ++ (m.group 1 ++ (closingTag name ++ [';']))) := by
  have one : '1'.toNat - 48 = 1 := by decide
  have reference (rest : List Char) :
      returnRegex.expand m (braced ['1'] ++ rest) = m.group 1 ++ returnRegex.expand m rest := by
    have digit : '1'.isDigit = true := rfl
    have grouped := Regex.expand_group returnRegex m digit rest
    rwa [one] at grouped
  unfold wrapperTemplate
  rw [Regex.expand_plain _ _ (by decide), expand_escape, reference, Regex.expand_char (by decide),
    Regex.expand_char (by decide), expand_escape, Regex.expand_char (by decide), Regex.expand_char (by decide),
    Regex.expand]
  simp [closingTag]

/-! ### What the rule does -/

theorem IsTagName.notMem (named : IsTagName w) : '>' ∉ w := by
  obtain ⟨c, rest, rfl, ⟨upper, -⟩, all⟩ := named
  intro inside
  rcases List.mem_cons.mp inside with rfl | inside
  · exact absurd upper (by decide)
  · rcases all _ inside with word | dot
    · cases word
    · cases dot

theorem AreAttributes.notMem (listed : AreAttributes w) : '>' ∉ w := by
  rcases listed with rfl | ⟨c, rest, rfl, space, all⟩
  · exact List.not_mem_nil
  · intro inside
    rcases List.mem_cons.mp inside with rfl | inside
    · cases space
    · exact (all _ inside).2 rfl

theorem IsOpeningTag.ends (opens : IsOpeningTag name w) : ∃ u, '>' ∉ u ∧ w = '<' :: (u ++ ['>']) := by
  obtain ⟨attributes, named, listed, rfl⟩ := opens
  exact ⟨name ++ attributes, by simp [named.notMem, listed.notMem], by simp⟩

theorem IsElement.ends (closed : IsElement w) : ∃ u, '>' ∉ u ∧ w = '<' :: (u ++ ['>']) := by
  obtain ⟨name, attributes, named, listed, rfl⟩ := closed
  exact ⟨name ++ (attributes ++ ['/']), by simp [named.notMem, listed.notMem], by simp⟩

/-- What is written for a statement differs from the statement, even where the opening tag is the element. -/
theorem ne_of_returns (opens : IsOpeningTag name opening) (returns : IsReturn element w) (text rest : List Char) :
    "return ".toList ++ (opening ++ (element ++ rest)) ≠ w ++ text := by
  obtain ⟨blank, ⟨some, spaced⟩, closed, rfl⟩ := returns
  obtain ⟨u, one, rfl⟩ := opens.ends
  obtain ⟨v, one', rfl⟩ := closed.ends
  intro same
  cases blank with
  | nil => exact some rfl
  | cons b blank =>
    cases blank with
    | cons c blank =>
      -- The tag does not start with a space.
      obtain ⟨-, rfl, -⟩ : ' ' = b ∧ '<' = c ∧ _ := by simpa using same
      cases spaced '<' (by simp)
    | nil =>
      obtain ⟨-, same⟩ : ' ' = b ∧ u ++ '>' :: ('<' :: (v ++ '>' :: rest)) = v ++ '>' :: (';' :: text) := by
        simpa using same
      have equal : u = v := by
        rw [← Pattern.takeWhile_until one, same, Pattern.takeWhile_until one']
      rw [equal] at same
      cases List.append_cancel_left same

theorem Wrapped.eq_iff (wrapped : Wrapped opening closing text out) (opens : IsOpeningTag name opening) :
    out = text ↔ ∀ element w, IsReturn element w → ¬w <:+: text := by
  refine (Rewritten.eq_iff (fun w g text rest site => ?_) wrapped).trans ?_
  · obtain ⟨element, returns, rfl⟩ := site
    simpa using ne_of_returns opens returns text (closing ++ ';' :: rest)
  · constructor
    · intro nowhere element w returns
      exact nowhere w _ ⟨element, returns, rfl⟩
    · rintro nowhere w _ ⟨element, returns, -⟩
      exact nowhere element w returns

theorem rewrite_wrapperRule (text : String) : ((wrapperRule opening name).rewrite text).toList =
    returnRegex.replaceAll (wrapperTemplate opening name) text.toList := by
  rw [Compiled.rewrite, Compiled.apply]
  simp only [wrapperRule, if_true]
  by_cases same : returnRegex.replaceAll (wrapperTemplate opening name) text.toList = text.toList
  · rw [if_pos (beq_iff_eq.mpr same), Option.getD_none, same]
  · rw [if_neg (mt beq_iff_eq.mp same), Option.getD_some, String.toList_ofList]

theorem wrapped_wrapperRule (opening name : List Char) (text : String) :
    Wrapped opening (closingTag name) text.toList ((wrapperRule opening name).rewrite text).toList := by
  rw [rewrite_wrapperRule]
  refine Pattern.rewritten_replaceMatches reads_returnRegex
    (Regex.swept_allMatches reads_returnRegex.scans text.toList) (fun m took => ?_) ?_
  · obtain ⟨element, returns, captures⟩ := takes_returnParts.mp took
    have grouped : m.group 1 = element := by
      rw [Match.group, Match.group?, captures]
      rfl
    exact ⟨element, returns, by rw [expand_wrapper, grouped]⟩
  · rintro w g ⟨element, returns, -⟩
    exact ⟨_, takes_returnParts.mpr ⟨element, returns, rfl⟩⟩

/-- A rule is learned from an element that was put between two tags. It writes every statement that returns a
self-closing element anew with the element between those two tags as they were observed, leaves the rest of the text
alone, and changes no text without such a statement. -/
theorem learned_wrapper (mined : wrapperInsertion before after layer = some rule) :
    ∃ name opening element w c, IsWrapped name opening element w ∧ w <:+: after ∧ element <:+: before ∧ ¬w <:+: before ∧
      compile rule.pattern rule.replacement = .ok c ∧ ∀ text : String,
        Wrapped opening (closingTag name) text.toList (c.rewrite text).toList ∧
        (c.apply text = none ↔ ∀ element w, IsReturn element w → ¬w <:+: text.toList) := by
  unfold wrapperInsertion at mined
  rw [wrappedReturn_eq] at mined
  obtain ⟨m, found, same⟩ := Option.bind_eq_some_iff.mp mined
  have there := List.find?_some found
  simp only [Bool.and_eq_true, beq_iff_eq, Text.holds_iff_infix, Bool.not_eq_true', ← Bool.not_eq_true] at there
  obtain ⟨⟨named, stood⟩, fresh⟩ := there
  obtain ⟨took, inside⟩ := Regex.of_mem_allMatches reads_wrappedRegex (List.mem_of_find?_eq_some found)
  obtain ⟨name, opening, element, name', captures, wrapped⟩ := takes_wrappedParts took
  have group {i : Nat} (some : i ≠ 0) : m.group i = (m.captures.lookup i).getD [] := by
    rw [Match.group, Match.group?, if_neg (by simpa using some)]
  have first : m.group 1 = opening := by rw [group (by decide), captures]; rfl
  have second : m.group 2 = name := by rw [group (by decide), captures]; rfl
  have third : m.group 3 = element := by rw [group (by decide), captures]; rfl
  have fourth : m.group 4 = name' := by rw [group (by decide), captures]; rfl
  rw [second, fourth] at named
  rw [third] at stood
  cases same
  have wrapped := wrapped named
  refine ⟨name, opening, element, m.text, wrapperRule opening name, wrapped, inside, stood, fresh, ?_, fun text => ?_⟩
  · rw [first, second]
    exact compile_wrapper opening name
  · have rewritten := wrapped_wrapperRule opening name text
    refine ⟨rewritten, ?_⟩
    rw [← rewritten.eq_iff wrapped.1, String.toList_inj, Compiled.apply_eq]
    simp

/-- A rule is learned from a tag with signs that mean something in replacements. -/
theorem wrapperInsertion_small :
    (wrapperInsertion "return <B/>;".toList "return <A $1 $$ ${0}><B/></A>;".toList .components).map
        (fun rule => compile rule.pattern rule.replacement) =
      some (.ok (wrapperRule "<A $1 $$ ${0}>".toList "A".toList)) := by
  have found : ((wrappedRegex.allMatches "return <A $1 $$ ${0}><B/></A>;".toList).find? fun m =>
      m.group 2 == m.group 4 && Text.holds (m.group 3) "return <B/>;".toList &&
        !Text.holds m.text "return <B/>;".toList).map (fun m => (m.group 1, m.group 2)) =
      some ("<A $1 $$ ${0}>".toList, "A".toList) := by
    decide +kernel
  obtain ⟨m, found, groups⟩ := Option.map_eq_some_iff.mp found
  obtain ⟨opening, name⟩ := Prod.mk.inj groups
  unfold wrapperInsertion
  rw [wrappedReturn_eq, found]
  simp only [Option.bind, bind, pure, Option.map_some, opening, name]
  exact congrArg some (compile_wrapper _ _)

theorem learned_wrapper_small : ∃ rule c,
    wrapperInsertion "return <B/>;".toList "return <A $1 $$ ${0}><B/></A>;".toList .components = some rule ∧
      compile rule.pattern rule.replacement = .ok c ∧
      (∃ opening closing, ∀ text : String, Wrapped opening closing text.toList (c.rewrite text).toList) ∧
      c.apply "f(); return  <C d/>;" = some "f(); return <A $1 $$ ${0}><C d/></A>;" := by
  obtain ⟨rule, mined, compiled⟩ := Option.map_eq_some_iff.mp wrapperInsertion_small
  obtain ⟨name, opening, _, _, c, -, -, -, -, compiled', law⟩ := learned_wrapper mined
  obtain rfl : wrapperRule _ _ = c := Except.ok.inj (compiled.symm.trans compiled')
  exact ⟨rule, _, mined, compiled, ⟨opening, closingTag name, fun text => (law text).1⟩, by decide +kernel⟩

end SourceRepair.Learning
