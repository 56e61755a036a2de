import SourceRepair.Fallback.Rules
import SourceRepair.Proofs.Pattern.Groups

/-!
# Guards by pattern

Two rules put guards around reads of browser globals. A read ends with the sign that the next one may start with, so
of two reads around one comma a run guards the first and leaves the second. The second run guards all that were left:
no two of them are neighbours. No guard is ever taken for a read.
-/

namespace SourceRepair.Fallback

open Pattern (Regex Match Expr CharClass Captures Rewritten toList_of_chars replaceMatches)
open Pattern.Expr (literal spaces spells_spaces SpellsAll TakesAll spellsAll_literal spellsAll_char spellsAll_set
  spellsAll_cons_iff spellsAll_single spellsAll_word spells_star takesAll_group_plain takesAll_nil)
open Text (AreSpaces)

variable {w g v x text out : List Char} {d : Captures}

/-! ### Reads -/

def IsName (w : List Char) : Prop :=
  ∃ c rest, w = c :: rest ∧ (('A' ≤ c ∧ c ≤ 'Z') ∨ ('a' ≤ c ∧ c ≤ 'z') ∨ c = '_' ∨ c = '$') ∧
    ∀ d ∈ rest, Text.isWordChar d ∨ d = '$'

/-- Names with a dot before each. -/
def IsChain (w : List Char) : Prop :=
  ∃ names : List (List Char), names ≠ [] ∧ (∀ n ∈ names, IsName n) ∧ w = (names.map ('.' :: ·)).flatten

def opensRead (c : Char) : Bool := c == '=' || c == '(' || c == ',' || c == ':'

def closesRead (c : Char) : Bool := c == ';' || c == ')' || c == ','

/-- A read of a browser global between two signs, and what is written for it. -/
def IsRead (w g : List Char) : Prop :=
  ∃ opening blank name chain blank' closing, opensRead opening ∧ AreSpaces blank ∧
    (name = "window".toList ∨ name = "document".toList) ∧ IsChain chain ∧ AreSpaces blank' ∧ closesRead closing ∧
    w = opening :: (blank ++ (name ++ (chain ++ (blank' ++ [closing])))) ∧
    g = opening :: (blank ++ ("(typeof ".toList ++ (name ++ (" !== \"undefined\" ? ".toList ++ (name ++ (chain ++
      (" : undefined)".toList ++ (blank' ++ [closing]))))))))

/-- A read of the storage that is assigned, and what is written for it. -/
def IsStorageRead (w g : List Char) : Prop :=
  ∃ blank args, AreSpaces blank ∧ (∀ c ∈ args, c ≠ '(' ∧ c ≠ ')' ∧ c ≠ '\n') ∧
    w = '=' :: (blank ++ ("localStorage.getItem".toList ++ '(' :: (args ++ [')']))) ∧
    g = '=' :: (blank ++ ("(typeof localStorage !== \"undefined\" ? localStorage.getItem".toList ++ '(' :: (args ++
      ')' :: " : null)".toList)))

/-! ### What the patterns match -/

def assignPart : Expr := Expr.sequence [.char (.single '='), spaces 0]

def argsPart : Expr := .repeat (.char (.complement (.unions [.single '(', .single ')', .single '\n']))) 0 none true

def callPart : Expr :=
  Expr.sequence (literal "localStorage.getItem(".toList ++ [argsPart, .char (.single ')')])

def storageParts : List Expr := [.group 1 assignPart, .group 2 callPart]

def opensPart : Expr :=
  Expr.sequence [.char (.unions [.single '=', .single '(', .single ',', .single ':']), spaces 0]

def globalPart : Expr := .alt (Expr.sequence (literal "window".toList)) (Expr.sequence (literal "document".toList))

def nameParts : List Expr := [
  .char (.single '.'), .char (.unions [.range 'A' 'Z', .range 'a' 'z', .single '_', .single '$']),
  .repeat (.char (.unions [.word, .single '$'])) 0 none true]

def chainPart : Expr := Expr.sequence [.repeat (Expr.sequence nameParts) 1 none true]

def closesPart : Expr := Expr.sequence [spaces 0, .char (.unions [.single ';', .single ')', .single ','])]

def globalParts : List Expr := [.group 1 opensPart, .group 2 globalPart, .group 3 chainPart, .group 4 closesPart]

def storageRegex : Regex := ⟨Expr.sequence storageParts, []⟩

def globalRegex : Regex := ⟨Expr.sequence globalParts, []⟩

theorem storageRead_eq : storageRead = storageRegex := Regex.of_eq (toList_of_chars rfl) (by decide +kernel)

theorem globalRead_eq : globalRead = globalRegex := Regex.of_eq (toList_of_chars rfl) (by decide +kernel)

theorem reads_storageRegex : storageRegex.Reads storageParts := ⟨rfl, by decide, ⟨by decide, by decide, by decide⟩⟩

theorem reads_globalRegex : globalRegex.Reads globalParts := ⟨rfl, by decide, ⟨by decide, by decide, by decide⟩⟩

theorem spells_nameParts : SpellsAll nameParts w ↔ ∃ name, IsName name ∧ w = '.' :: name := by
  have first (c : Char) : (CharClass.unions [.range 'A' 'Z', .range 'a' 'z', .single '_', .single '$']).has c ↔
      (('A' ≤ c ∧ c ≤ 'Z') ∨ ('a' ≤ c ∧ c ≤ 'z') ∨ c = '_' ∨ c = '$') := by
    simp [CharClass.has, CharClass.unions, or_assoc]
  have later (c : Char) : (CharClass.unions [.word, .single '$']).has c ↔ Text.isWordChar c ∨ c = '$' := by
    simp [CharClass.has, CharClass.unions]
  rw [nameParts, spellsAll_char]
  simp only [spellsAll_set, spellsAll_single, spells_star, first, later]
  constructor
  · rintro ⟨_, ⟨c, rest, upper, all, rfl⟩, rfl⟩
    exact ⟨c :: rest, ⟨c, rest, rfl, upper, all⟩, rfl⟩
  · rintro ⟨_, ⟨c, rest, rfl, upper, all⟩, rfl⟩
    exact ⟨_, ⟨c, rest, upper, all, rfl⟩, rfl⟩

theorem spells_chainPart : chainPart.Spells w ↔ IsChain w := by
  rw [chainPart, Expr.spells_sequence, spellsAll_single]
  simp only [Expr.Spells, Expr.spells_sequence, spells_nameParts]
  constructor
  · rintro ⟨ws, some, -, all, rfl⟩
    refine ⟨ws.map List.tail, ?_, ?_, ?_⟩
    · rintro none
      rw [List.map_eq_nil_iff.mp none] at some
      cases some
    · intro n inside
      obtain ⟨w, listed, rfl⟩ := List.mem_map.mp inside
      obtain ⟨name, named, rfl⟩ := all w listed
      exact named
    · rw [List.map_map]
      congr 1
      refine (List.map_id ws).symm.trans (List.map_congr_left fun w listed => ?_)
      obtain ⟨name, -, rfl⟩ := all w listed
      rfl
  · rintro ⟨names, some, all, rfl⟩
    refine ⟨names.map ('.' :: ·), ?_, by simp, ?_, rfl⟩
    · rw [List.length_map]
      exact List.length_pos_iff.mpr some
    · intro u inside
      obtain ⟨name, listed, rfl⟩ := List.mem_map.mp inside
      exact ⟨name, all name listed, rfl⟩

theorem spells_opensPart :
    opensPart.Spells w ↔ ∃ opening blank, opensRead opening ∧ AreSpaces blank ∧ w = opening :: blank := by
  have opens (c : Char) :
      (CharClass.unions [.single '=', .single '(', .single ',', .single ':']).has c ↔ opensRead c := by
    simp [CharClass.has, CharClass.unions, opensRead]
  simp only [opensPart, Expr.spells_sequence, spellsAll_set, spellsAll_single, spells_spaces, opens]

theorem spells_globalPart : globalPart.Spells w ↔ w = "window".toList ∨ w = "document".toList := by
  simp only [globalPart, Expr.Spells, Expr.spells_sequence, spellsAll_word]

theorem spells_closesPart :
    closesPart.Spells w ↔ ∃ blank closing, AreSpaces blank ∧ closesRead closing ∧ w = blank ++ [closing] := by
  have closes (c : Char) : (CharClass.unions [.single ';', .single ')', .single ',']).has c ↔ closesRead c := by
    simp [CharClass.has, CharClass.unions, closesRead]
  rw [closesPart, Expr.spells_sequence, spellsAll_cons_iff]
  simp only [spellsAll_single, spells_spaces, Expr.Spells, closes]
  constructor
  · rintro ⟨blank, _, spaced, ⟨c, closing, rfl⟩, rfl⟩
    exact ⟨blank, c, spaced, closing, rfl⟩
  · rintro ⟨blank, c, spaced, closing, rfl⟩
    exact ⟨blank, [c], spaced, ⟨c, closing, rfl⟩, rfl⟩

theorem spells_callPart : callPart.Spells w ↔
    ∃ args, (∀ c ∈ args, c ≠ '(' ∧ c ≠ ')' ∧ c ≠ '\n') ∧ w = "localStorage.getItem".toList ++ '(' :: (args ++ [')']) := by
  have inner (c : Char) : (CharClass.complement (.unions [.single '(', .single ')', .single '\n'])).has c ↔
      c ≠ '(' ∧ c ≠ ')' ∧ c ≠ '\n' := by
    simp [CharClass.has, CharClass.unions, and_assoc]
  have last (v : List Char) : SpellsAll [.char (.single ')')] v ↔ v = [')'] := spellsAll_word [')']
  have called : "localStorage.getItem(".toList = "localStorage.getItem".toList ++ ['('] := by decide
  rw [callPart, Expr.spells_sequence, spellsAll_literal, called]
  simp only [spellsAll_cons_iff, argsPart, spells_star, last, inner]
  constructor
  · rintro ⟨_, ⟨args, _, all, rfl, rfl⟩, rfl⟩
    exact ⟨args, all, List.append_assoc ..⟩
  · rintro ⟨args, all, rfl⟩
    exact ⟨_, ⟨args, _, all, rfl, rfl⟩, by simp⟩

theorem takes_globalParts : TakesAll globalParts w [] d ↔ ∃ opening blank name chain blank' closing,
    opensRead opening ∧ AreSpaces blank ∧ (name = "window".toList ∨ name = "document".toList) ∧ IsChain chain ∧
      AreSpaces blank' ∧ closesRead closing ∧ w = opening :: (blank ++ (name ++ (chain ++ (blank' ++ [closing])))) ∧
      d = [(4, blank' ++ [closing]), (3, chain), (2, name), (1, opening :: blank)] := by
  simp only [globalParts, takesAll_group_plain (e := opensPart) rfl, takesAll_group_plain (e := globalPart) rfl,
    takesAll_group_plain (e := chainPart) rfl, takesAll_group_plain (e := closesPart) rfl, spells_opensPart,
    spells_globalPart, spells_chainPart, spells_closesPart, takesAll_nil]
  constructor
  · rintro ⟨_, _, ⟨opening, blank, starts, spaced, rfl⟩, ⟨name, _, named, ⟨chain, _, chained, ⟨_, _, ⟨blank', closing, spaced',
      ends, rfl⟩, ⟨rfl, rfl⟩, rfl⟩, rfl⟩, rfl⟩, rfl⟩
    exact ⟨opening, blank, name, chain, blank', closing, starts, spaced, named, chained, spaced', ends, by simp, rfl⟩
  · rintro ⟨opening, blank, name, chain, blank', closing, starts, spaced, named, chained, spaced', ends, rfl, rfl⟩
    exact ⟨_, _, ⟨opening, blank, starts, spaced, rfl⟩, ⟨name, _, named, ⟨chain, _, chained, ⟨_, [], ⟨blank', closing,
      spaced', ends, rfl⟩, ⟨rfl, rfl⟩, (List.append_nil _).symm⟩, rfl⟩, rfl⟩, rfl⟩

theorem takes_storageParts : TakesAll storageParts w [] d ↔ ∃ blank args, AreSpaces blank ∧
    (∀ c ∈ args, c ≠ '(' ∧ c ≠ ')' ∧ c ≠ '\n') ∧
      w = '=' :: (blank ++ ("localStorage.getItem".toList ++ '(' :: (args ++ [')']))) ∧
      d = [(2, "localStorage.getItem".toList ++ '(' :: (args ++ [')'])), (1, '=' :: blank)] := by
  have assigns (v : List Char) : assignPart.Spells v ↔ ∃ blank, AreSpaces blank ∧ v = '=' :: blank := by
    simp only [assignPart, Expr.spells_sequence, spellsAll_char, spellsAll_single, spells_spaces]
  simp only [storageParts, takesAll_group_plain (e := assignPart) rfl,
    takesAll_group_plain (e := callPart) (by decide), assigns, spells_callPart, takesAll_nil]
  constructor
  · rintro ⟨_, _, ⟨blank, spaced, rfl⟩, ⟨_, _, ⟨args, all, rfl⟩, ⟨rfl, rfl⟩, rfl⟩, rfl⟩
    exact ⟨blank, args, spaced, all, by simp, rfl⟩
  · rintro ⟨blank, args, spaced, all, rfl, rfl⟩
    exact ⟨_, _, ⟨blank, spaced, rfl⟩, ⟨_, [], ⟨args, all, rfl⟩, ⟨rfl, rfl⟩, (List.append_nil _).symm⟩, rfl⟩

/-! ### What the rules write -/

def storageTemplate : String := "$\x7b1\x7d(typeof localStorage !== \"undefined\" ? $\x7b2\x7d : null)"

def globalTemplate : String :=
  "$\x7b1\x7d(typeof $\x7b2\x7d !== \"undefined\" ? $\x7b2\x7d$\x7b3\x7d : undefined)$\x7b4\x7d"

def storageRule : Rule :=
  .byTemplate "guarded a localStorage.getItem assignment" .guardAdded storageRegex storageTemplate

def globalRule : Rule :=
  .byTemplate "guarded a browser global read" .guardAdded globalRegex globalTemplate

theorem hydrationRules_eq : hydrationRules = [storageRule, globalRule] := by
  rw [hydrationRules, storageRead_eq, globalRead_eq, storageRule, globalRule, storageTemplate, globalTemplate]

/-- The reference to a group by a digit in braces. -/
def reference (digit : Char) : List Char := ['$', '\x7b', digit, '\x7d']

theorem expand_reference (r : Regex) (m : Match) (digit : Char) (i : Nat) (isDigit : digit.isDigit)
    (number : digit.toNat - 48 = i) (some : i ≠ 0) (rest : List Char) :
    r.expand m (reference digit ++ rest) = (m.captures.lookup i).getD [] ++ r.expand m rest := by
  have expanded := Regex.expand_group r m isDigit rest
  rw [number, Match.group, Match.group?, if_neg (by simpa using some)] at expanded
  exact expanded

theorem expand_storage {m : Match} {opening call : List Char} (captures : m.captures = [(2, call), (1, opening)]) :
    storageRegex.expand m storageTemplate.toList =
      opening ++ ("(typeof localStorage !== \"undefined\" ? ".toList ++ (call ++ " : null)".toList)) := by
  have chars : storageTemplate.toList =
      reference '1' ++ ("(typeof localStorage !== \"undefined\" ? ".toList ++ (reference '2' ++
        (" : null)".toList ++ []))) := by
    rfl
  rw [chars, expand_reference _ m '1' 1 rfl (by decide) (by decide), Regex.expand_plain _ _ (by decide),
    expand_reference _ m '2' 2 rfl (by decide) (by decide), Regex.expand_plain _ _ (by decide), Regex.expand, captures]
  rfl

theorem expand_global {m : Match} {opening name chain closing : List Char}
    (captures : m.captures = [(4, closing), (3, chain), (2, name), (1, opening)]) :
    globalRegex.expand m globalTemplate.toList =
      opening ++ ("(typeof ".toList ++ (name ++ (" !== \"undefined\" ? ".toList ++ (name ++ (chain ++
        (" : undefined)".toList ++ closing)))))) := by
  have chars : globalTemplate.toList =
      reference '1' ++ ("(typeof ".toList ++ (reference '2' ++ (" !== \"undefined\" ? ".toList ++ (reference '2' ++
        (reference '3' ++ (" : undefined)".toList ++ (reference '4' ++ []))))))) := by
    rfl
  have one := expand_reference globalRegex m '1' 1 rfl (by decide) (by decide)
  have two := expand_reference globalRegex m '2' 2 rfl (by decide) (by decide)
  have three := expand_reference globalRegex m '3' 3 rfl (by decide) (by decide)
  have four := expand_reference globalRegex m '4' 4 rfl (by decide) (by decide)
  rw [chars, one, Regex.expand_plain _ _ (by decide), two, Regex.expand_plain _ _ (by decide), two, three,
    Regex.expand_plain _ _ (by decide), four, Regex.expand, captures]
  simp [List.lookup_cons]

theorem isStorageRead_of_match {m : Match} (took : TakesAll storageParts m.text [] m.captures) :
    IsStorageRead m.text (storageRegex.expand m storageTemplate.toList) := by
  obtain ⟨blank, args, spaced, all, text, captures⟩ := takes_storageParts.mp took
  have opened : "(typeof localStorage !== \"undefined\" ? localStorage.getItem".toList =
      "(typeof localStorage !== \"undefined\" ? ".toList ++ "localStorage.getItem".toList := by decide
  refine ⟨blank, args, spaced, all, text, ?_⟩
  rw [expand_storage captures, opened]
  simp only [List.append_assoc, List.cons_append, List.nil_append]

theorem isRead_of_match {m : Match} (took : TakesAll globalParts m.text [] m.captures) :
    IsRead m.text (globalRegex.expand m globalTemplate.toList) := by
  obtain ⟨opening, blank, name, chain, blank', closing, starts, spaced, named, chained, spaced', ends, text, captures⟩ :=
    takes_globalParts.mp took
  exact ⟨opening, blank, name, chain, blank', closing, starts, spaced, named, chained, spaced', ends, text,
    by rw [expand_global captures]; simp⟩

/-! ### What stands in a text after a pass -/

/-- No sign that may open a read stands, perhaps before spaces, in front of a parenthesis. -/
def Unopened (opens : Char → Bool) (v : List Char) : Prop :=
  ∀ o blank, opens o → AreSpaces blank → ¬(o :: (blank ++ ['('])) <:+: v

/-- Sites that open with a sign and, behind spaces, one of some letters, and get a parenthesis before that letter. -/
structure Guarding (opens heads : Char → Bool) (site : List Char → List Char → Prop) : Prop where
  shape : ∀ w g, site w g → ∃ o blank h body body', opens o ∧ AreSpaces blank ∧ heads h ∧
    w = o :: (blank ++ h :: body) ∧ g = o :: (blank ++ '(' :: body')
  apart : ∀ c, opens c → Text.isSpace c = false ∧ heads c = false
  visible : ∀ c, heads c → Text.isSpace c = false
  other : heads '(' = false

variable {opens heads : Char → Bool} {site : List Char → List Char → Prop}

theorem Unopened.tail {c : Char} (unopened : Unopened opens (c :: v)) : Unopened opens v :=
  fun o blank opener spaced inside => unopened o blank opener spaced (List.infix_cons inside)

theorem unopened_of_tail {c : Char} (none : '(' ∉ v) : Unopened opens (c :: v) := by
  intro o blank _ _ inside
  rcases List.infix_cons_iff.mp inside with starts | later
  · have starts := (List.cons_prefix_cons.mp starts).2
    exact none (starts.subset (by simp))
  · exact none (later.subset (by simp))

/-- What stands in the text after a pass without an opened parenthesis was there before, and holds no site. The
induction is on what stands there. -/
theorem copied (guarding : Guarding opens heads site) (rewritten : Rewritten site text out)
    (unopened : Unopened opens v) (starts : v <+: out) : v <+: text ∧ ∀ w g, site w g → ¬w <:+: v := by
  induction v generalizing text out with
  | nil =>
    refine ⟨List.nil_prefix, fun w g here inside => ?_⟩
    obtain ⟨o, blank, h, body, -, -, -, -, rfl, -⟩ := guarding.shape w g here
    cases List.infix_nil.mp inside
  | cons c v ih =>
    cases rewritten with
    | nil => cases List.prefix_nil.mp starts
    | @skip c' text out none rest =>
      obtain ⟨rfl, behind⟩ := List.cons_prefix_cons.mp starts
      obtain ⟨there, clean⟩ := ih rest unopened.tail behind
      have whole : c :: v <+: c :: text := List.cons_prefix_cons.mpr ⟨rfl, there⟩
      refine ⟨whole, fun w g here inside => ?_⟩
      rcases List.infix_cons_iff.mp inside with first | later
      · exact none w g here (first.trans whole)
      · exact clean w g here later
    | @site w₀ g₀ text out here₀ rest =>
      obtain ⟨o, blank, h, body, body', opener, spaced, -, rfl, rfl⟩ := guarding.shape w₀ g₀ here₀
      have guard : o :: (blank ++ ['(']) <+: (o :: (blank ++ '(' :: body')) ++ out := ⟨body' ++ out, by simp⟩
      have within : c :: v <+: o :: blank := by
        rcases List.prefix_or_prefix_of_prefix guard starts with inside | inside
        · exact absurd inside.isInfix (unopened o blank opener spaced)
        · rw [← List.cons_append] at inside
          rcases List.prefix_concat_iff.mp inside with same | inside
          · exact absurd (same ▸ List.infix_rfl) (unopened o blank opener spaced)
          · exact inside
      refine ⟨within.trans ⟨h :: body ++ text, by simp⟩, fun w g here inside => ?_⟩
      -- A site has a letter that is neither a space nor a sign that opens.
      obtain ⟨o', blank', h', body₁, -, -, -, head, rfl, -⟩ := guarding.shape w g here
      have member : h' ∈ o :: blank := within.subset (inside.subset (by simp))
      rcases List.mem_cons.mp member with rfl | member
      · rw [(guarding.apart h' opener).2] at head
        cases head
      · have space := spaced h' member
        rw [guarding.visible h' head] at space
        cases space

/-- No site starts in the word, whatever follows it. -/
def Quiet (site : List Char → List Char → Prop) : List Char → Prop
  | [] => True
  | c :: q => (∀ rest w g, site w g → ¬w <+: c :: (q ++ rest)) ∧ Quiet site q

theorem Quiet.append {p q : List Char} (first : Quiet site p) (second : Quiet site q) : Quiet site (p ++ q) := by
  induction p with
  | nil => exact second
  | cons c p ih =>
    obtain ⟨here, later⟩ := first
    refine ⟨fun rest w g found starts => here (q ++ rest) w g found ?_, ih later⟩
    rwa [← List.append_assoc]

theorem Quiet.infix_past {q z rest : List Char} (quiet : Quiet site q) (here : site w g)
    (inside : w ++ z <:+: q ++ rest) : w ++ z <:+: rest := by
  induction q with
  | nil => exact inside
  | cons c q ih =>
    rcases List.infix_cons_iff.mp inside with starts | later
    · exact absurd ((List.prefix_append w z).trans starts) (quiet.1 rest w g here)
    · exact ih quiet.2 later

theorem quiet_of_none (guarding : Guarding opens heads site) (none : ∀ c ∈ v, opens c = false) : Quiet site v := by
  induction v with
  | nil => trivial
  | cons c v ih =>
    refine ⟨fun rest w g here starts => ?_, ih fun d inside => none d (List.mem_cons_of_mem c inside)⟩
    obtain ⟨o, blank, h, body, -, opener, -, -, rfl, -⟩ := guarding.shape w g here
    obtain ⟨rfl, -⟩ := List.cons_prefix_cons.mp starts
    rw [none o List.mem_cons_self] at opener
    cases opener

theorem find?_visible {blank rest : List Char} {h : Char} (spaced : AreSpaces blank) (visible : Text.isSpace h = false) :
    (blank ++ h :: rest).find? (!Text.isSpace ·) = some h := by
  rw [List.find?_append, List.find?_eq_none.mpr, Option.none_or, List.find?_cons, visible]
  · rfl
  · intro c inside
    simp [spaced c inside]

/-- Behind a sign that opens, and perhaps spaces, stands something that no site goes on with. -/
theorem Guarding.not_prefix (guarding : Guarding opens heads site) (here : site w g) {c h : Char} {rest : List Char}
    (next : rest.find? (!Text.isSpace ·) = some h) (other : heads h = false) : ¬w <+: c :: rest := by
  intro starts
  obtain ⟨o, blank, h', body, -, -, spaced, head, rfl, -⟩ := guarding.shape w g here
  obtain ⟨-, tail, rfl⟩ := List.cons_prefix_cons.mp starts
  rw [List.append_assoc, List.cons_append, find?_visible spaced (guarding.visible h' head)] at next
  obtain rfl := Option.some.inj next
  rw [other] at head
  cases head

/-- Each sign that may open a site is followed by something that no site goes on with. -/
def muted (opens heads : Char → Bool) : List Char → Bool
  | [] => true
  | c :: cs => (!opens c || (cs.find? (!Text.isSpace ·)).any (!heads ·)) && muted opens heads cs

theorem quiet_of_muted (guarding : Guarding opens heads site) (muted : muted opens heads v) : Quiet site v := by
  induction v with
  | nil => trivial
  | cons c v ih =>
    rw [Fallback.muted, Bool.and_eq_true, Bool.or_eq_true, Bool.not_eq_true'] at muted
    refine ⟨fun rest w g here starts => ?_, ih muted.2⟩
    rcases muted.1 with closed | next
    · obtain ⟨o, blank, h, body, -, opener, -, -, rfl, -⟩ := guarding.shape w g here
      obtain ⟨rfl, -⟩ := List.cons_prefix_cons.mp starts
      rw [closed] at opener
      cases opener
    · obtain ⟨h, found, other⟩ := (Option.any_eq_true _ _).mp next
      refine guarding.not_prefix here (h := h) ?_ (by simpa using other) starts
      rw [List.find?_append, found, Option.some_or]

theorem quiet_of_chars (guarding : Guarding opens heads site) (s : String) (same : s = String.ofList v)
    (muted : muted opens heads v) : Quiet site s.toList := by
  rw [toList_of_chars same]
  exact quiet_of_muted guarding muted

theorem quiet_opening (guarding : Guarding opens heads site) {o : Char} {blank rest : List Char} (spaced : AreSpaces blank)
    (next : v.find? (!Text.isSpace ·) = some '(') (quiet : Quiet site (v ++ rest)) :
    Quiet site (o :: (blank ++ (v ++ rest))) := by
  have blanks : Quiet site blank := by
    refine quiet_of_none guarding fun c inside => ?_
    cases opener : opens c with
    | false => rfl
    | true =>
      have space := spaced c inside
      rw [(guarding.apart c opener).1] at space
      cases space
  refine ⟨fun more w g here => guarding.not_prefix here (h := '(') ?_ guarding.other, blanks.append quiet⟩
  have none : blank.find? (!Text.isSpace ·) = none := by
    rw [List.find?_eq_none]
    intro c inside
    simp [spaced c inside]
  rw [List.append_assoc, List.append_assoc, List.find?_append, none, Option.none_or, List.find?_append, next,
    Option.some_or]

/-! ### Both kinds of sites -/

def headsRead (c : Char) : Bool := c == 'w' || c == 'd'

def opensStorage (c : Char) : Bool := c == '='

def headsStorage (c : Char) : Bool := c == 'l'

theorem opensRead_cases {c : Char} (opener : opensRead c) : c = '=' ∨ c = '(' ∨ c = ',' ∨ c = ':' := by
  simpa [opensRead, or_assoc] using opener

theorem closesRead_cases {c : Char} (closer : closesRead c) : c = ';' ∨ c = ')' ∨ c = ',' := by
  simpa [closesRead, or_assoc] using closer

theorem guarding_read : Guarding opensRead headsRead IsRead where
  shape := by
    rintro w g ⟨o, blank, name, chain, blank', c, opener, spaced, named, -, -, -, rfl, rfl⟩
    rcases named with rfl | rfl
    · exact ⟨o, blank, 'w', _, _, opener, spaced, rfl, rfl, rfl⟩
    · exact ⟨o, blank, 'd', _, _, opener, spaced, rfl, rfl, rfl⟩
  apart := by
    intro c opener
    rcases opensRead_cases opener with rfl | rfl | rfl | rfl <;> decide
  visible := by
    intro c head
    obtain rfl | rfl : c = 'w' ∨ c = 'd' := by simpa [headsRead] using head
    all_goals decide
  other := rfl

theorem guarding_storage : Guarding opensStorage headsStorage IsStorageRead where
  shape := by
    rintro w g ⟨blank, args, spaced, -, rfl, rfl⟩
    exact ⟨'=', blank, 'l', _, _, rfl, spaced, rfl, rfl, rfl⟩
  apart := by
    intro c opener
    obtain rfl : c = '=' := by simpa [opensStorage] using opener
    decide
  visible := by
    intro c head
    obtain rfl : c = 'l' := by simpa [headsStorage] using head
    decide
  other := rfl

/-- The signs around reads. -/
def signs : List Char := ['=', '(', ',', ':', ';', ')']

theorem opensRead_of_mem_signs {c : Char} (other : c ∉ signs) : opensRead c = false ∧ closesRead c = false := by
  simp only [signs, List.mem_cons, List.not_mem_nil, or_false, not_or] at other
  simp [opensRead, closesRead, other]

theorem notMem_signs_of_word {c : Char} (word : Text.isWordChar c) : c ∉ signs := by
  intro sign
  simp only [signs, List.mem_cons, List.not_mem_nil, or_false] at sign
  rcases sign with rfl | rfl | rfl | rfl | rfl | rfl <;> cases word

/-- The name that a read begins with has no sign. -/
theorem notMem_signs_of_name {name : List Char} (named : name = "window".toList ∨ name = "document".toList) :
    ∀ c ∈ name, c ∉ signs := by
  intro c inside
  refine notMem_signs_of_word (List.all_eq_true.mp ?_ c inside)
  rcases named with rfl | rfl <;> rfl

theorem notMem_signs_of_space {c : Char} (space : Text.isSpace c) : c ∉ signs := by
  intro sign
  simp only [signs, List.mem_cons, List.not_mem_nil, or_false] at sign
  rcases sign with rfl | rfl | rfl | rfl | rfl | rfl <;> cases space

theorem notMem_signs_of_chain (chained : IsChain w) : ∀ c ∈ w, c ∉ signs := by
  obtain ⟨names, -, named, rfl⟩ := chained
  intro c inside
  obtain ⟨piece, listed, inside⟩ := List.mem_flatten.mp inside
  obtain ⟨name, member, rfl⟩ := List.mem_map.mp listed
  obtain ⟨first, rest, rfl, letter, later⟩ := named name member
  rcases List.mem_cons.mp inside with rfl | inside
  · decide
  · rcases List.mem_cons.mp inside with rfl | inside
    · intro sign
      simp only [signs, List.mem_cons, List.not_mem_nil, or_false] at sign
      rcases sign with rfl | rfl | rfl | rfl | rfl | rfl <;> revert letter <;> decide
    · rcases later c inside with word | rfl
      · exact notMem_signs_of_word word
      · decide

/-- A read has signs only at its ends. -/
theorem IsRead.ends (here : IsRead w g) : ∃ o inner c, opensRead o ∧ closesRead c ∧ inner ≠ [] ∧ (∀ d ∈ inner, d ∉ signs) ∧
    w = o :: (inner ++ [c]) := by
  obtain ⟨o, blank, name, chain, blank', c, opener, spaced, named, chained, spaced', closer, rfl, -⟩ := here
  refine ⟨o, blank ++ (name ++ (chain ++ blank')), c, opener, closer, ?_, fun d inside => ?_, by simp⟩
  · rcases named with rfl | rfl <;> simp
  · simp only [List.mem_append] at inside
    rcases inside with inside | inside | inside | inside
    · exact notMem_signs_of_space (spaced d inside)
    · exact notMem_signs_of_name named d inside
    · exact notMem_signs_of_chain chained d inside
    · exact notMem_signs_of_space (spaced' d inside)

theorem IsRead.unopened (here : IsRead w g) : Unopened opens w := by
  obtain ⟨o, inner, c, -, closer, -, plain, rfl⟩ := here.ends
  refine unopened_of_tail fun inside => ?_
  rcases List.mem_append.mp inside with inside | last
  · exact plain '(' inside (by decide)
  · obtain rfl := List.mem_singleton.mp last
    cases closer

/-- What is written for a read starts no site before its last sign. -/
theorem IsRead.guard (here : IsRead w g) : ∃ u q c, w = u ++ [c] ∧ u ≠ [] ∧ g = q ++ [c] ∧ closesRead c ∧
    Quiet IsRead q ∧ Quiet IsStorageRead g := by
  obtain ⟨o, blank, name, chain, blank', c, opener, spaced, named, chained, spaced', closer, rfl, rfl⟩ := here
  have quiet {opens heads : Char → Bool} {site : List Char → List Char → Prop} (guarding : Guarding opens heads site)
      (plain : ∀ c, c ∉ signs → opens c = false) (first : Quiet site "(typeof ".toList)
      (second : Quiet site " !== \"undefined\" ? ".toList) (third : Quiet site " : undefined)".toList) :
      Quiet site (o :: (blank ++ ("(typeof ".toList ++ (name ++ (" !== \"undefined\" ? ".toList ++ (name ++ (chain ++
        (" : undefined)".toList ++ blank')))))))) := by
    have named' : Quiet site name :=
      quiet_of_none guarding fun d inside => plain d (notMem_signs_of_name named d inside)
    refine quiet_opening guarding spaced (by decide) (first.append (named'.append
      (second.append (named'.append (Quiet.append ?_ (third.append ?_))))))
    · exact quiet_of_none guarding fun d inside => plain d (notMem_signs_of_chain chained d inside)
    · exact quiet_of_none guarding fun d inside => plain d (notMem_signs_of_space (spaced' d inside))
  refine ⟨o :: (blank ++ (name ++ (chain ++ blank'))), _, c, by simp, by simp, ?_, closer,
    quiet guarding_read (fun c plain => (opensRead_of_mem_signs plain).1)
      (quiet_of_chars guarding_read "(typeof " rfl rfl)
      (quiet_of_chars guarding_read " !== \"undefined\" ? " rfl rfl)
      (quiet_of_chars guarding_read " : undefined)" rfl rfl), ?_⟩
  · simp
  · have storage := quiet guarding_storage (fun c plain => ?_)
      (quiet_of_chars guarding_storage "(typeof " rfl rfl)
      (quiet_of_chars guarding_storage " !== \"undefined\" ? " rfl rfl)
      (quiet_of_chars guarding_storage " : undefined)" rfl rfl)
    · have last : Quiet IsStorageRead [c] := by
        refine quiet_of_none guarding_storage fun d inside => ?_
        obtain rfl := List.mem_singleton.mp inside
        rcases closesRead_cases closer with rfl | rfl | rfl <;> rfl
      simpa using storage.append last
    · cases sign : opensStorage c with
      | false => rfl
      | true =>
        obtain rfl : c = '=' := by simpa [opensStorage] using sign
        exact absurd (by decide) plain

/-- The first parenthesis of a storage read is an opening one. -/
theorem IsStorageRead.parenthesis (here : IsStorageRead w g) {rest : List Char} (starts : w <+: rest) :
    rest.find? (fun c => c == '(' || c == ')') = some '(' := by
  obtain ⟨blank, args, spaced, -, rfl, -⟩ := here
  obtain ⟨tail, rfl⟩ := starts
  have none : blank.find? (fun c => c == '(' || c == ')') = none := by
    rw [List.find?_eq_none]
    intro c inside sign
    have space := spaced c inside
    obtain rfl | rfl : c = '(' ∨ c = ')' := by simpa using sign
    all_goals cases space
  simp [List.find?_append, none]

/-- Before the only opening parenthesis of a storage read stands a letter. -/
theorem IsStorageRead.unopened (here : IsStorageRead w g) (letter : opens 'm' = false) : Unopened opens w := by
  obtain ⟨blank, args, spaced, plain, rfl, -⟩ := here
  rintro o blank' opener spaced' ⟨p, q, same⟩
  have front : '(' ∉ '=' :: (blank ++ "localStorage.getItem".toList) := by
    intro inside
    rcases List.mem_append.mp (List.mem_of_ne_of_mem (by decide) inside) with inside | inside
    · cases spaced '(' inside
    · revert inside
      decide
  have back : '(' ∉ args ++ [')'] := by
    intro inside
    rcases List.mem_append.mp inside with inside | inside
    · exact (plain '(' inside).1 rfl
    · revert inside
      decide
  have split : (p ++ o :: blank') ++ '(' :: q =
      ('=' :: (blank ++ "localStorage.getItem".toList)) ++ '(' :: (args ++ [')']) := by
    simpa only [List.append_assoc, List.cons_append, List.nil_append] using same
  have whole : p ++ o :: blank' = '=' :: (blank ++ "localStorage.getItem".toList) := by
    rcases List.append_eq_append_iff.mp split with ⟨z, left, right⟩ | ⟨z, left, right⟩
    · cases z with
      | nil => rw [left, List.append_nil]
      | cons c z =>
        obtain ⟨rfl, -⟩ := List.cons.inj right
        exact absurd (left ▸ by simp) front
    · cases z with
      | nil => rw [left, List.append_nil]
      | cons c z =>
        obtain ⟨-, right⟩ := List.cons.inj right
        exact absurd (right ▸ by simp) back
  have member : 'm' ∈ o :: blank' := by
    have last := congrArg List.getLast? whole
    have shown : ("localStorage.getItem".toList).getLast? = some 'm' := by decide
    rw [← List.cons_append, List.getLast?_append, List.getLast?_append, shown, Option.some_or] at last
    cases ends : (o :: blank').getLast? with
    | none => cases List.getLast?_eq_none_iff.mp ends
    | some c =>
      rw [ends, Option.some_or] at last
      exact List.mem_of_getLast? (ends.trans last)
  rcases List.mem_cons.mp member with rfl | inside
  · rw [letter] at opener
    cases opener
  · cases spaced' 'm' inside

/-- What is written for a storage read starts none. -/
theorem IsStorageRead.quiet (here : IsStorageRead w g) : Quiet IsStorageRead g := by
  obtain ⟨blank, args, spaced, plain, rfl, rfl⟩ := here
  have call : Quiet IsStorageRead (args ++ [')']) := by
    induction args with
    | nil => exact quiet_of_none guarding_storage (by simp [opensStorage])
    | cons c args ih =>
      obtain ⟨first, later⟩ := List.forall_mem_cons.mp plain
      refine ⟨fun rest w g here starts => ?_, ih later⟩
      have closing := here.parenthesis starts
      have none : args.find? (fun c => c == '(' || c == ')') = none := by
        rw [List.find?_eq_none]
        intro d inside
        simp [later d inside]
      rw [List.find?_cons_of_neg (by simp [first])] at closing
      simp [List.find?_append, none] at closing
  have front : Quiet IsStorageRead "(typeof localStorage !== \"undefined\" ? localStorage.getItem".toList :=
    quiet_of_chars guarding_storage "(typeof localStorage !== \"undefined\" ? localStorage.getItem" rfl rfl
  have opened : Quiet IsStorageRead ['('] := quiet_of_none guarding_storage (by simp [opensStorage])
  have last : Quiet IsStorageRead " : null)".toList := quiet_of_chars guarding_storage " : null)" rfl rfl
  have whole := quiet_opening guarding_storage (o := '=') spaced (by decide)
    (front.append (opened.append (call.append last)))
  rwa [List.append_assoc args] at whole

/-! ### What a pass leaves -/

/-- No storage read is left after a pass over them. -/
theorem storage_settled (rewritten : Rewritten IsStorageRead text out) (here : IsStorageRead w g) : ¬w <:+: out := by
  induction rewritten with
  | nil =>
    obtain ⟨blank, args, -, -, rfl, -⟩ := here
    intro inside
    cases List.infix_nil.mp inside
  | skip none rest ih =>
    intro inside
    rcases List.infix_cons_iff.mp inside with starts | later
    · exact (copied guarding_storage (.skip none rest) (here.unopened rfl) starts).2 w g here List.infix_rfl
    · exact ih later
  | site site _ ih =>
    intro inside
    rw [← List.append_nil w] at inside
    have later := site.quiet.infix_past here inside
    rw [List.append_nil] at later
    exact ih later

/-- A pass over the reads of globals brings no storage read. -/
theorem storage_stays_settled (clean : ∀ w g, IsStorageRead w g → ¬w <:+: text) (rewritten : Rewritten IsRead text out)
    (here : IsStorageRead w g) : ¬w <:+: out := by
  induction rewritten with
  | nil => exact clean w g here
  | skip none rest ih =>
    intro inside
    rcases List.infix_cons_iff.mp inside with starts | later
    · exact clean w g here (copied guarding_read (.skip none rest) (here.unopened rfl) starts).1.isInfix
    · exact ih (fun w g here inside => clean w g here (List.infix_cons inside)) later
  | @site w₀ g₀ text out site _ ih =>
    intro inside
    obtain ⟨-, -, -, -, -, -, -, -, quiet⟩ := site.guard
    rw [← List.append_nil w] at inside
    have later := quiet.infix_past here inside
    rw [List.append_nil] at later
    exact ih (fun w g here inside => clean w g here
      (inside.trans (List.suffix_append w₀ text).isInfix)) later

/-- Two reads around one comma. -/
def AreReads (x : List Char) : Prop :=
  ∃ u v g g', IsRead (u ++ [',']) g ∧ IsRead (',' :: v) g' ∧ x = (u ++ [',']) ++ v

/-- A read that is left after a pass is the second of two around one comma. -/
theorem read_left (rewritten : Rewritten IsRead text out) (here : IsRead w g) (inside : w <:+: out) :
    ∃ x, AreReads x ∧ x <:+: text := by
  induction rewritten with
  | nil =>
    obtain ⟨o, inner, c, -, -, -, -, rfl⟩ := here.ends
    cases List.infix_nil.mp inside
  | skip none rest ih =>
    rcases List.infix_cons_iff.mp inside with starts | later
    · exact absurd List.infix_rfl ((copied guarding_read (.skip none rest) here.unopened starts).2 w g here)
    · obtain ⟨x, both, there⟩ := ih later
      exact ⟨x, both, List.infix_cons there⟩
  | @site w₀ g₀ text out site rest ih =>
    obtain ⟨u, q, c, rfl, -, rfl, closer, quiet, -⟩ := site.guard
    rw [← List.append_nil w, List.append_assoc] at inside
    have later := quiet.infix_past here inside
    rw [List.append_nil, List.singleton_append] at later
    rcases List.infix_cons_iff.mp later with starts | later
    · obtain ⟨o, inner, c', opener, -, -, -, rfl⟩ := here.ends
      obtain ⟨rfl, behind⟩ := List.cons_prefix_cons.mp starts
      obtain rfl : o = ',' := by
        rcases closesRead_cases closer with rfl | rfl | rfl
        · cases opener
        · cases opener
        · rfl
      have there := (copied guarding_read rest here.unopened.tail behind).1
      exact ⟨_, ⟨u, inner ++ [c'], _, _, site, here, rfl⟩, (List.prefix_append_right_inj _).mpr there |>.isInfix⟩
    · obtain ⟨x, both, there⟩ := ih later
      exact ⟨x, both, there.trans (List.suffix_append _ text).isInfix⟩

theorem AreReads.ends (both : AreReads x) : ∃ o inner inner' c g g', closesRead c ∧ opensRead o ∧
    (∀ d ∈ inner ++ inner', d ∉ signs) ∧ IsRead (o :: inner ++ [',']) g ∧ IsRead (',' :: (inner' ++ [c])) g' ∧
    x = (o :: inner ++ [',']) ++ (inner' ++ [c]) := by
  obtain ⟨u, v, g, g', first, second, rfl⟩ := both
  obtain ⟨o, inner, c, opener, -, -, plain, shape⟩ := first.ends
  obtain ⟨o', inner', c', -, closer, -, plain', shape'⟩ := second.ends
  obtain ⟨rfl, rfl⟩ := List.cons.inj shape'
  rw [← List.cons_append] at shape
  obtain rfl := List.append_inj_left' shape rfl
  refine ⟨o, inner, inner', c', g, g', closer, opener, fun d inside => ?_, first, second, rfl⟩
  exact (List.mem_append.mp inside).elim (plain d) (plain' d)

/-- Behind the first sign of two reads no parenthesis is opened, and none is closed before the last. -/
theorem AreReads.plain (both : AreReads x) :
    ∃ o v, x = o :: v ∧ '(' ∉ v ∧ ∀ l₁ l₂, x = l₁ ++ l₂ → l₂ ≠ [] → ')' ∉ l₁ := by
  obtain ⟨o, inner, inner', c, g, g', closer, opener, plain, -, -, rfl⟩ := both.ends
  have middle {d : Char} (sign : d ∈ signs) (other : d ≠ ',') : d ∉ inner ++ ',' :: inner' := by
    intro inside
    rcases List.mem_append.mp inside with inside | inside
    · exact plain d (List.mem_append_left _ inside) sign
    · exact plain d (List.mem_append_right _ (List.mem_of_ne_of_mem other inside)) sign
  have shape : o :: inner ++ [','] ++ (inner' ++ [c]) = o :: (inner ++ ',' :: inner') ++ [c] := by simp
  rw [shape]
  refine ⟨o, inner ++ ',' :: inner' ++ [c], by simp, fun inside => ?_, fun l₁ l₂ split some inside => ?_⟩
  · rcases List.mem_append.mp inside with inside | last
    · exact middle (by decide) (by decide) inside
    · obtain rfl := List.mem_singleton.mp last
      cases closer
  · have within : l₁ <+: o :: (inner ++ ',' :: inner') := by
      rcases List.prefix_concat_iff.mp (⟨l₂, split.symm⟩ : l₁ <+: _) with rfl | within
      · exact absurd (List.append_right_eq_self.mp split.symm) some
      · exact within
    rcases List.mem_cons.mp (within.subset inside) with rfl | inside
    · cases opener
    · exact middle (by decide) (by decide) inside

/-- No two reads around one comma are left after a pass. -/
theorem no_reads_left (rewritten : Rewritten IsRead text out) (both : AreReads x) : ¬x <:+: out := by
  obtain ⟨o', v', same, none, -⟩ := both.plain
  obtain ⟨o, inner, inner', c, g, g', -, -, -, first, second, rfl⟩ := both.ends
  intro inside
  induction rewritten with
  | nil => simp at inside
  | skip none rest ih =>
    rcases List.infix_cons_iff.mp inside with starts | later
    · have starts := (List.prefix_append _ (inner' ++ [c])).trans starts
      exact (copied guarding_read (.skip none rest) first.unopened starts).2 _ g first List.infix_rfl
    · exact ih later
  | @site w₀ g₀ text out site rest ih =>
    obtain ⟨-, q, d, -, -, rfl, -, quiet, -⟩ := site.guard
    rw [List.append_assoc q] at inside
    have later := quiet.infix_past first inside
    rw [List.singleton_append] at later
    rcases List.infix_cons_iff.mp later with starts | later
    · -- The first of the two starts at the end of a guard, so the second was copied.
      obtain ⟨-, behind⟩ := List.cons_prefix_cons.mp starts
      obtain ⟨-, rfl⟩ := List.cons.inj same
      have unopened : Unopened opensRead (inner ++ [','] ++ (inner' ++ [c])) := (unopened_of_tail (c := o) none).tail
      exact (copied guarding_read rest unopened behind).2 _ g' second ⟨inner, [], by simp⟩
    · exact ih later

/-- Two reads around one comma that stand in the text after a pass over the storage reads were there before. -/
theorem reads_back (rewritten : Rewritten IsStorageRead text out) (both : AreReads x) (inside : x <:+: out) :
    x <:+: text := by
  obtain ⟨o, v, same, none, closed⟩ := both.plain
  obtain ⟨u, v', g, g', first, -, split⟩ := both
  have unopened : Unopened opensStorage x := same ▸ unopened_of_tail none
  induction rewritten with
  | nil => exact inside
  | skip none rest ih =>
    rcases List.infix_cons_iff.mp inside with starts | later
    · exact (copied guarding_storage (.skip none rest) unopened starts).1.isInfix
    · exact List.infix_cons (ih later)
  | @site w₀ g₀ text out site rest ih =>
    obtain ⟨blank, args, spaced, plain, rfl, rfl⟩ := site
    have front : Quiet IsRead ('=' :: (blank ++
        ("(typeof localStorage !== \"undefined\" ? localStorage.getItem".toList ++ []))) :=
      quiet_opening guarding_read spaced (by decide) (Quiet.append
        (quiet_of_chars guarding_read "(typeof localStorage !== \"undefined\" ? localStorage.getItem" rfl rfl) trivial)
    have last : Quiet IsRead " : null)".toList := quiet_of_chars guarding_read " : null)" rfl rfl
    have call : '(' :: args ++ [')'] <:+:
        '=' :: (blank ++ ("localStorage.getItem".toList ++ '(' :: (args ++ [')']))) ++ text :=
      ⟨'=' :: (blank ++ "localStorage.getItem".toList), text,
        by simp only [List.append_assoc, List.cons_append, List.nil_append]⟩
    have behind (later : x <:+: " : null)".toList ++ out) :
        x <:+: '=' :: (blank ++ ("localStorage.getItem".toList ++ '(' :: (args ++ [')']))) ++ text := by
      rw [split] at later
      exact (ih (split ▸ last.infix_past first later)).trans (List.suffix_append _ text).isInfix
    rw [split] at inside
    have later : x <:+: ('(' :: args ++ [')']) ++ (" : null)".toList ++ out) := by
      rw [split]
      refine front.infix_past first ?_
      simpa only [List.append_assoc, List.cons_append, List.nil_append, List.append_nil] using inside
    rcases List.infix_append_iff.mp later with within | within | ⟨l₁, l₂, parts, within, starts⟩
    · exact within.trans call
    · exact behind within
    · by_cases whole : l₂ = []
      · rw [whole, List.append_nil] at parts
        exact parts ▸ within.isInfix.trans call
      · rcases List.suffix_concat_iff.mp within with rfl | ⟨t, rfl, -⟩
        · exact behind (parts ▸ starts.isInfix)
        · exact absurd (by simp) (closed _ l₂ parts whole)

/-! ### Runs -/

theorem Guarding.changes (guarding : Guarding opens heads site) (w g text rest : List Char) (here : site w g) :
    g ++ rest ≠ w ++ text := by
  obtain ⟨o, blank, h, body, body', -, -, head, rfl, rfl⟩ := guarding.shape w g here
  intro same
  obtain ⟨rfl, -⟩ : '(' = h ∧ body' ++ rest = body ++ text := by simpa using same
  rw [guarding.other] at head
  cases head

/-- A rule rewrites the text in one pass, and leaves it alone if it has no site. -/
theorem rewritten_step {regex : Regex} {es : List Expr} {f : Match → List Char} (reads : regex.Reads es)
    (guarding : Guarding opens heads site) (sites : ∀ m : Match, TakesAll es m.text [] m.captures → site m.text (f m))
    (only : ∀ w g, site w g → ∃ d, TakesAll es w [] d) (name : String) (change : ChangeKind) (file : SourceFile)
    (done : Rewrite) :
    Rewritten site done.code.toList (step file done (.byMatch name change regex f)).code.toList ∧
      ((∀ w g, site w g → ¬w <:+: done.code.toList) → step file done (.byMatch name change regex f) = done) := by
  have swept := Regex.swept_allMatches reads.scans done.code.toList
  have rewritten : Rewritten site done.code.toList
      (replaceMatches f (regex.allMatches done.code.toList) (.start done.code.toList)) :=
    Pattern.rewritten_replaceMatches reads swept sites only
  have differs : ∀ m ∈ regex.allMatches done.code.toList, f m != m.text := by
    intro m found
    have here := sites m (Regex.of_mem_allMatches reads found).1
    simpa using guarding.changes _ _ [] [] here
  have all : (regex.allMatches done.code.toList).filter (fun m => f m != m.text) = regex.allMatches done.code.toList :=
    List.filter_eq_self.mpr differs
  rw [step, Rule.apply]
  simp only [Rule.byMatch, rewriteMatches, all]
  by_cases same : replaceMatches f (regex.allMatches done.code.toList) (.start done.code.toList) = done.code.toList
  · rw [same] at rewritten ⊢
    simp only [bne_self_eq_false, Bool.and_false, Bool.false_eq_true, if_false]
    exact ⟨rewritten, fun _ => trivial⟩
  · have some : 0 < (regex.allMatches done.code.toList).length := by
      rw [List.length_pos_iff]
      intro none
      rw [none] at same
      exact same rfl
    rw [if_pos (by simp [some, same])]
    refine ⟨by rwa [String.toList_ofList], fun clean => ?_⟩
    exact absurd ((rewritten.eq_iff guarding.changes).mpr clean) same

theorem storage_step (file : SourceFile) (done : Rewrite) :
    Rewritten IsStorageRead done.code.toList (step file done storageRule).code.toList ∧
      ((∀ w g, IsStorageRead w g → ¬w <:+: done.code.toList) → step file done storageRule = done) := by
  refine rewritten_step reads_storageRegex guarding_storage (fun m => isStorageRead_of_match) ?_ ..
  rintro w g ⟨blank, args, spaced, plain, text, -⟩
  exact ⟨_, takes_storageParts.mpr ⟨blank, args, spaced, plain, text, rfl⟩⟩

theorem read_step (file : SourceFile) (done : Rewrite) :
    Rewritten IsRead done.code.toList (step file done globalRule).code.toList ∧
      ((∀ w g, IsRead w g → ¬w <:+: done.code.toList) → step file done globalRule = done) := by
  refine rewritten_step reads_globalRegex guarding_read (fun m => isRead_of_match) ?_ ..
  rintro w g ⟨o, blank, name, chain, blank', c, opener, spaced, named, chained, spaced', closer, text, -⟩
  exact ⟨_, takes_globalParts.mpr ⟨o, blank, name, chain, blank', c, opener, spaced, named, chained, spaced', closer, text,
    rfl⟩⟩

theorem apply_hydration (file : SourceFile) (text : String) :
    apply .hydration file text = step file (step file ⟨text, [], []⟩ storageRule) globalRule := by
  rw [apply, rulesFor, hydrationRules_eq, List.foldl_cons, List.foldl_cons, List.foldl_nil]

variable {file : SourceFile} {code : String}

/-- A text without storage reads gets one pass over the reads of globals, and nothing if it has none. -/
theorem apply_of_settled (clean : ∀ w g, IsStorageRead w g → ¬w <:+: code.toList) :
    Rewritten IsRead code.toList (apply .hydration file code).code.toList ∧
      ((∀ w g, IsRead w g → ¬w <:+: code.toList) → apply .hydration file code = ⟨code, [], []⟩) := by
  rw [apply_hydration, (storage_step file ⟨code, [], []⟩).2 clean]
  exact read_step file ⟨code, [], []⟩

/-- A third run over a text changes nothing, and the second one changes nothing either where no two reads of globals
stand around one comma. -/
theorem hydration_settles (file : SourceFile) (text : String) :
    let once := (apply .hydration file text).code
    let twice := (apply .hydration file once).code
    apply .hydration file twice = ⟨twice, [], []⟩ ∧
      ((∀ x, AreReads x → ¬x <:+: text.toList) → apply .hydration file once = ⟨once, [], []⟩) := by
  intro once twice
  have stored := (storage_step file ⟨text, [], []⟩).1
  have first := (read_step file (step file ⟨text, [], []⟩ storageRule)).1
  rw [← apply_hydration] at first
  have clean : ∀ w g, IsStorageRead w g → ¬w <:+: once.toList := fun w g here =>
    storage_stays_settled (fun w g here => storage_settled stored here) first here
  have second : Rewritten IsRead once.toList twice.toList := (apply_of_settled clean).1
  constructor
  · refine (apply_of_settled fun w g here => storage_stays_settled clean second here).2 fun w g here inside => ?_
    obtain ⟨x, both, there⟩ := read_left second here inside
    exact no_reads_left first both there
  · intro apart
    refine (apply_of_settled clean).2 fun w g here inside => ?_
    obtain ⟨x, both, there⟩ := read_left first here inside
    exact apart x both (reads_back stored both there)

/-- Of two reads around one comma the second is guarded in a second run only. -/
theorem hydration_repeated :
    let file := SourceFile.ofPath ⟨"a.js"⟩
    let once := apply .hydration file "f(window.a,window.b)\n"
    once.code = "f((typeof window !== \"undefined\" ? window.a : undefined),window.b)\n" ∧
      (apply .hydration file once.code).changes.length = 1 := by
  intro file once
  have first : once.code = "f((typeof window !== \"undefined\" ? window.a : undefined),window.b)\n" := by
    simp only [once, apply_hydration]
    decide +kernel
  refine ⟨first, ?_⟩
  rw [first, apply_hydration]
  decide +kernel

end SourceRepair.Fallback
