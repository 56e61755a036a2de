import Mathlib.Data.List.TakeWhile
import SourceRepair.Proofs.Learning.Compiled
import SourceRepair.Proofs.Pattern.Replacing

/-!
# What stored replacements stand for

Scripts give a replacement its meaning by rules of their own. `Regex.substitute` is these rules, and `Shared` says which
replacements keep their meaning when they are translated and expanded by the matcher: all whose references are to groups
that the pattern has. Two digits are taken for one number before it is known how many groups there are, so a reference
to a group that is missing is not the same to both.
-/

namespace SourceRepair.Pattern

/-- The number of groups in a pattern. -/
def Expr.groupCount : Expr → Nat
  | nothing | char _ | look _ => 0
  | seq a b | alt a b => a.groupCount + b.groupCount
  | group _ a => a.groupCount + 1
  | .repeat a _ _ _ => a.groupCount

/-- The number that digits write. -/
def numberOf (digits : List Char) : Nat := digits.foldl (fun n c => n * 10 + (c.toNat - 48)) 0

namespace Regex

variable (r : Regex) (m : Match)

/-- The digits of a reference as scripts read it: two if the pattern has that many groups, otherwise one. -/
def referenceDigits (cs : List Char) : List Char :=
  let digits := (cs.take 2).takeWhile Char.isDigit
  if numberOf digits ≤ r.expr.groupCount then digits else digits.take 1

/-- What scripts put in the place of a match of the text. A reference to a group that the pattern does not have is no
reference, and neither is one by name if no group has a name. -/
def substitute (text : List Char) : List Char → List Char
  | [] => []
  | '$' :: '$' :: cs => '$' :: substitute text cs
  | '$' :: '&' :: cs => m.text ++ substitute text cs
  | '$' :: '\x60' :: cs => text.take m.start.index ++ substitute text cs
  | '$' :: '\x27' :: cs => m.stop.rest ++ substitute text cs
  | '$' :: '<' :: cs =>
    let name := cs.takeWhile (· != '>')
    if r.names.isEmpty || cs.length ≤ name.length then '$' :: substitute text ('<' :: cs)
    else ((r.names.lookup (String.ofList name)).map m.group).getD [] ++ substitute text (cs.drop (name.length + 1))
  | '$' :: cs =>
    let digits := r.referenceDigits cs
    if 1 ≤ numberOf digits && numberOf digits ≤ r.expr.groupCount then
      m.group (numberOf digits) ++ substitute text (cs.drop digits.length)
    else '$' :: substitute text cs
  | c :: cs => c :: substitute text cs
termination_by cs => cs.length
decreasing_by all_goals simp only [List.length_cons, List.length_drop]; omega

/-- Replacements whose references are all to groups that the pattern has: `$$`, `$&`, one or two digits, a name that is
no number, and dollar signs that start nothing. -/
inductive Shared : List Char → Prop
  | nil : Shared []
  | char {c : Char} {cs : List Char} (plain : c ≠ '$') (rest : Shared cs) : Shared (c :: cs)
  | dollar {cs : List Char} (rest : Shared cs) : Shared ('$' :: '$' :: cs)
  | whole {cs : List Char} (rest : Shared cs) : Shared ('$' :: '&' :: cs)
  | digits {ds cs : List Char} (read : ((ds ++ cs).take 2).takeWhile Char.isDigit = ds) (some : 1 ≤ numberOf ds)
    (there : numberOf ds ≤ r.expr.groupCount) (rest : Shared cs) : Shared ('$' :: (ds ++ cs))
  | named {name cs : List Char} (names : r.names ≠ []) (one : '>' ∉ name) (closed : '\x7d' ∉ name)
    (other : groupNumber? name = none) (rest : Shared cs) : Shared ('$' :: '<' :: (name ++ '>' :: cs))
  | open {cs : List Char} (unclosed : '>' ∉ cs) (rest : Shared cs) : Shared ('$' :: '<' :: cs)
  | lone {cs : List Char} (starts : ∀ c ∈ cs.head?, c ∉ ['$', '&', '<', '\x60', '\x27'] ∧ c.isDigit = false)
    (rest : Shared cs) : Shared ('$' :: cs)

end Regex

/-! ### Names and digits -/

theorem takeWhile_until {x : Char} {name : List Char} (one : x ∉ name) (cs : List Char) :
    (name ++ x :: cs).takeWhile (· != x) = name := by
  rw [List.takeWhile_append_of_pos]
  · simp
  · intro c inside
    rw [bne_iff_ne]
    rintro rfl
    exact one inside

theorem takeWhile_all {x : Char} {cs : List Char} (none : x ∉ cs) : cs.takeWhile (· != x) = cs := by
  rw [List.takeWhile_eq_self_iff]
  intro c inside
  rw [bne_iff_ne]
  rintro rfl
  exact none inside

variable {r : Regex} {m : Match} {text ds cs name : List Char} {c : Char}

/-- Digits that are read are at most two, and nothing else is among them. -/
theorem digits_of_read (read : ((ds ++ cs).take 2).takeWhile Char.isDigit = ds) :
    ds.length ≤ 2 ∧ ∀ d ∈ ds, d.isDigit := by
  constructor
  · have short := (List.takeWhile_sublist Char.isDigit (l := (ds ++ cs).take 2)).length_le
    rw [read, List.length_take] at short
    omega
  · intro d inside
    rw [← read] at inside
    exact List.mem_takeWhile_imp inside

theorem ne_nil_of_number (some : 1 ≤ numberOf ds) : ds ≠ [] := by
  rintro rfl
  simp [numberOf] at some

/-- No digit is one of the other signs that stand behind a dollar sign. -/
theorem starts_of_read (read : ((ds ++ cs).take 2).takeWhile Char.isDigit = ds) (some : ds ≠ []) :
    ∀ c ∈ (ds ++ cs).head?, c ∉ ['$', '&', '<', '\x60', '\x27'] := by
  intro c first inside
  have digit : c.isDigit := by
    cases ds with
    | nil => exact absurd rfl some
    | cons d ds =>
      obtain rfl : d = c := Option.some.inj first
      exact (digits_of_read read).2 d List.mem_cons_self
  simp only [List.mem_cons, List.not_mem_nil, or_false] at inside
  rcases inside with rfl | rfl | rfl | rfl | rfl <;> cases digit

theorem toNat_of_isDigit (h : c.isDigit) : c.toNat - 48 ≤ 9 := by
  simp only [Char.isDigit, Bool.and_eq_true, decide_eq_true_eq] at h
  have upper := UInt32.le_iff_toNat_le.mp h.2
  change c.toNat ≤ 57 at upper
  omega

theorem numberOf_le (short : ds.length ≤ 2) (all : ∀ d ∈ ds, d.isDigit) : numberOf ds ≤ 99 := by
  match ds, short with
  | [], _ => simp [numberOf]
  | [a], _ =>
    have := toNat_of_isDigit (all a (by simp))
    simp only [numberOf, List.foldl_cons, List.foldl_nil]
    omega
  | [a, b], _ =>
    have := toNat_of_isDigit (all a (by simp))
    have := toNat_of_isDigit (all b (by simp))
    simp only [numberOf, List.foldl_cons, List.foldl_nil]
    omega

theorem groupNumber?_digits (some : ds ≠ []) (short : ds.length ≤ 2) (all : ∀ d ∈ ds, d.isDigit) :
    groupNumber? ds = .some (numberOf ds) := by
  have small : numberOf ds < UInt64.size :=
    Nat.lt_of_le_of_lt (numberOf_le short all) (by decide)
  unfold groupNumber?
  split
  · next same =>
    -- A plus sign is no digit.
    have := all '+' (by simp)
    cases this
  · rw [numberOf] at small
    simp [some, List.all_eq_true.mpr all, small, numberOf]

/-! ### What the matcher puts in -/

namespace Regex

theorem expand_dollar : r.expand m ('$' :: '$' :: cs) = '$' :: r.expand m cs := by
  rw [expand]

theorem expand_char (plain : c ≠ '$') : r.expand m (c :: cs) = c :: r.expand m cs := by
  have word : '$' ∉ [c] := by simpa using plain.symm
  exact expand_plain r m word cs

theorem expand_braced (closed : '\x7d' ∉ name) :
    r.expand m (Learning.braced name ++ cs) = r.reference m name ++ r.expand m cs := by
  have shape : Learning.braced name ++ cs = '$' :: '\x7b' :: (name ++ '\x7d' :: cs) := by
    simp [Learning.braced]
  rw [shape, expand, takeWhile_until closed]
  simp

/-! ### What scripts put in -/

theorem substitute_char (plain : c ≠ '$') : r.substitute m text (c :: cs) = c :: r.substitute m text cs := by
  rw [substitute.eq_def]
  split <;> simp_all

theorem substitute_named (names : r.names ≠ []) (one : '>' ∉ name) :
    r.substitute m text ('$' :: '<' :: (name ++ '>' :: cs)) =
      ((r.names.lookup (String.ofList name)).map m.group).getD [] ++ r.substitute m text cs := by
  rw [substitute, takeWhile_until one]
  have there : ¬(name.length + (cs.length + 1) ≤ name.length) := by omega
  simp [names, there]

theorem substitute_open (unclosed : '>' ∉ cs) :
    r.substitute m text ('$' :: '<' :: cs) = '$' :: '<' :: r.substitute m text cs := by
  rw [substitute, takeWhile_all unclosed]
  simp [substitute_char]

/-- A dollar sign before none of the other signs starts at most a reference by digits. -/
theorem substitute_other (starts : ∀ c ∈ cs.head?, c ∉ ['$', '&', '<', '\x60', '\x27']) :
    r.substitute m text ('$' :: cs) =
      if 1 ≤ numberOf (r.referenceDigits cs) && numberOf (r.referenceDigits cs) ≤ r.expr.groupCount then
        m.group (numberOf (r.referenceDigits cs)) ++ r.substitute m text (cs.drop (r.referenceDigits cs).length)
      else '$' :: r.substitute m text cs := by
  rw [substitute]
  all_goals
    rintro rest rfl
    have := starts _ rfl
    simp at this

theorem substitute_digits (read : ((ds ++ cs).take 2).takeWhile Char.isDigit = ds) (some : 1 ≤ numberOf ds)
    (there : numberOf ds ≤ r.expr.groupCount) :
    r.substitute m text ('$' :: (ds ++ cs)) = m.group (numberOf ds) ++ r.substitute m text cs := by
  have digits : r.referenceDigits (ds ++ cs) = ds := by
    rw [referenceDigits, read, if_pos there]
  rw [substitute_other (starts_of_read read (ne_nil_of_number some)), digits, if_pos (by simp [some, there]),
    List.drop_left]

theorem substitute_lone (starts : ∀ c ∈ cs.head?, c ∉ ['$', '&', '<', '\x60', '\x27'] ∧ c.isDigit = false) :
    r.substitute m text ('$' :: cs) = '$' :: r.substitute m text cs := by
  have none : (cs.take 2).takeWhile Char.isDigit = [] := by
    cases cs with
    | nil => rfl
    | cons c cs => simp [(starts c rfl).2]
  have digits : r.referenceDigits cs = [] := by
    rw [referenceDigits, none]
    simp
  rw [substitute_other fun c first => (starts c first).1, digits]
  rfl

end Regex

end SourceRepair.Pattern

namespace SourceRepair.Learning

open Pattern (Regex Match Expr toList_of_chars numberOf groupNumber? groupNumber?_digits takeWhile_until takeWhile_all digits_of_read
  ne_nil_of_number starts_of_read)

variable {r : Regex} {m : Match} {text ds cs name : List Char} {c : Char}

/-! ### Translations -/

theorem translate_char (plain : c ≠ '$') : translate (c :: cs) = c :: translate cs := by
  rw [translate.eq_def]
  split <;> simp_all

theorem translate_plain (plain : '$' ∉ ds) : translate (ds ++ cs) = ds ++ translate cs := by
  induction ds with
  | nil => rfl
  | cons d ds ih =>
    obtain ⟨other, plain⟩ := not_or.mp (mt List.mem_cons.mpr plain)
    rw [List.cons_append, translate_char (Ne.symm other), ih plain, List.cons_append]

/-- A text that is escaped comes through the translation as it is, and is put in as it was. -/
theorem translate_escape (w cs : List Char) :
    translate (escapeReplacement w ++ cs) = escapeReplacement w ++ translate cs := by
  induction w with
  | nil => rfl
  | cons c w ih =>
    by_cases dollar : c = '$'
    · subst dollar
      change translate ('$' :: '$' :: (escapeReplacement w ++ cs)) = '$' :: '$' :: (escapeReplacement w ++ translate cs)
      rw [translate, ih]
    · have same : escapeReplacement (c :: w) = c :: escapeReplacement w := by simp [escapeReplacement, dollar]
      rw [same, List.cons_append, translate_char dollar, ih, List.cons_append]

theorem expand_escape (w cs : List Char) : r.expand m (escapeReplacement w ++ cs) = w ++ r.expand m cs := by
  induction w with
  | nil => rfl
  | cons c w ih =>
    by_cases dollar : c = '$'
    · subst dollar
      change r.expand m ('$' :: '$' :: (escapeReplacement w ++ cs)) = '$' :: (w ++ r.expand m cs)
      rw [Regex.expand_dollar, ih]
    · have same : escapeReplacement (c :: w) = c :: escapeReplacement w := by simp [escapeReplacement, dollar]
      rw [same, List.cons_append, Regex.expand_char dollar, ih, List.cons_append]

theorem translate_named (one : '>' ∉ name) :
    translate ('$' :: '<' :: (name ++ '>' :: cs)) = braced name ++ translate cs := by
  rw [translate, takeWhile_until one]
  simp

theorem translate_open (unclosed : '>' ∉ cs) : translate ('$' :: '<' :: cs) = '$' :: '$' :: '<' :: translate cs := by
  rw [translate, takeWhile_all unclosed]
  simp [translate_char]

/-- A dollar sign before none of the other signs starts at most a reference by digits. -/
theorem translate_other (starts : ∀ c ∈ cs.head?, c ∉ ['$', '&', '<']) (ds : List Char)
    (read : (cs.take 2).takeWhile Char.isDigit = ds) :
    translate ('$' :: cs) =
      if ds.isEmpty then '$' :: '$' :: translate cs else braced ds ++ translate (cs.drop ds.length) := by
  subst read
  rw [translate]
  all_goals
    rintro rest rfl
    have := starts _ rfl
    simp at this

theorem translate_digits (read : ((ds ++ cs).take 2).takeWhile Char.isDigit = ds) (some : ds ≠ []) :
    translate ('$' :: (ds ++ cs)) = braced ds ++ translate cs := by
  have starts : ∀ c ∈ (ds ++ cs).head?, c ∉ ['$', '&', '<'] := by
    intro c first inside
    refine starts_of_read read some c first ?_
    simp only [List.mem_cons, List.not_mem_nil, or_false] at inside ⊢
    tauto
  rw [translate_other starts ds read, List.drop_left]
  simp [some]

theorem translate_lone (starts : ∀ c ∈ cs.head?, c ∉ ['$', '&', '<', '\x60', '\x27'] ∧ c.isDigit = false) :
    translate ('$' :: cs) = '$' :: '$' :: translate cs := by
  have none : (cs.take 2).takeWhile Char.isDigit = [] := by
    cases cs with
    | nil => rfl
    | cons c cs => simp [(starts c rfl).2]
  have starts : ∀ c ∈ cs.head?, c ∉ ['$', '&', '<'] := by
    intro c first inside
    refine (starts c first).1 ?_
    simp only [List.mem_cons, List.not_mem_nil, or_false] at inside ⊢
    tauto
  rw [translate_other starts [] none]
  rfl

/-! ### Both dialects -/

/-- A replacement whose references are all to groups of the pattern gives, translated and expanded, what scripts put in
the place of the match. -/
theorem expand_translate (shared : r.Shared cs) (text : List Char) :
    r.expand m (translate cs) = r.substitute m text cs := by
  induction shared with
  | nil => rw [translate, Regex.expand, Regex.substitute]
  | char plain _ ih => rw [translate_char plain, Regex.expand_char plain, Regex.substitute_char plain, ih]
  | dollar _ ih => rw [translate, Regex.expand_dollar, Regex.substitute, ih]
  | whole _ ih =>
    have number : groupNumber? ['0'] = some 0 := by decide
    rw [translate, Regex.expand_braced (by decide), Regex.substitute, ih, Regex.reference, number]
    rfl
  | digits read some there _ ih =>
    obtain ⟨short, all⟩ := digits_of_read read
    have nonempty := ne_nil_of_number some
    have closed : '\x7d' ∉ _ := fun inside => by cases all _ inside
    rw [translate_digits read nonempty, Regex.expand_braced closed, Regex.substitute_digits read some there, ih,
      Regex.reference, groupNumber?_digits nonempty short all]
  | @named name cs names one closed other _ ih =>
    rw [translate_named one, Regex.expand_braced closed, Regex.substitute_named names one, ih, Regex.reference, other]
    cases r.names.lookup (String.ofList name) <;> rfl
  | «open» unclosed _ ih =>
    rw [translate_open unclosed, Regex.expand_dollar, Regex.expand_char (by decide), Regex.substitute_open unclosed, ih]
  | lone starts _ ih => rw [translate_lone starts, Regex.expand_dollar, Regex.substitute_lone starts, ih]

/-- A pattern with a named group and one without a name. -/
def pairRegex : Regex where
  expr := Expr.sequence [.group 1 (Expr.sequence [.char (.single 'a')]), .group 2 (Expr.sequence [.char (.single 'b')])]
  names := [("first", 1)]

theorem expand_translate_pair : pairRegex.Shared "$2$<first>$$5$&".toList ∧
    (pairRegex.first? "xab".toList).map (pairRegex.expand · (translate "$2$<first>$$5$&".toList)) =
      some "ba$5ab".toList := by
  have tail : pairRegex.Shared "$$5$&".toList := .dollar (.char (by decide) (.whole .nil))
  have named : pairRegex.Shared ('$' :: '<' :: ("first".toList ++ '>' :: "$$5$&".toList)) :=
    .named (by decide) (by decide) (by decide) (by decide) tail
  have read : ((['2'] ++ "$<first>$$5$&".toList).take 2).takeWhile Char.isDigit = ['2'] := by decide
  have shared : pairRegex.Shared "$2$<first>$$5$&".toList := .digits read (by decide) (by decide) named
  have found : pairRegex.first? "xab".toList =
      some ⟨⟨1, some 'x', ['a', 'b']⟩, ⟨3, some 'b', []⟩, [(2, ['b']), (1, ['a'])]⟩ := by
    decide +kernel
  have scripted : pairRegex.substitute ⟨⟨1, some 'x', ['a', 'b']⟩, ⟨3, some 'b', []⟩, [(2, ['b']), (1, ['a'])]⟩
      "xab".toList "$2$<first>$$5$&".toList = "ba$5ab".toList := by
    decide +kernel
  refine ⟨shared, ?_⟩
  rw [found, Option.map_some, expand_translate shared "xab".toList, scripted]

/-- A pattern with one group. -/
def singleRegex : Regex := ⟨Expr.sequence [.group 1 (Expr.sequence [.char (.single 'a')])], []⟩

/-- With one group, scripts read `$10` as the group and a zero. The translation takes both digits for a group that is
missing, which stands for nothing. -/
theorem tenth_group_empty :
    ∃ c m, compile (joinPattern "(a)" "") "$10" = .ok c ∧ c.apply "a" = some "" ∧ c.regex.first? "a".toList = some m ∧
      c.regex.substitute m "a".toList "$10".toList = "a0".toList := by
  have read : Regex.read? "(a)" = some singleRegex :=
    (Regex.read?_eq (toList_of_chars rfl)).trans (by decide +kernel)
  have found : singleRegex.first? ['a'] = some ⟨⟨0, none, ['a']⟩, ⟨1, some 'a', []⟩, [(1, ['a'])]⟩ := by
    decide +kernel
  have done : singleRegex.replaceFirst (translate ['$', '1', '0']) ['a'] = [] := by decide +kernel
  refine ⟨⟨singleRegex, false, translate "$10".toList⟩, _, ?_, ?_, found, ?_⟩
  · rw [show ("" : String) = String.ofList [] from rfl, compile_join [] nofun rfl rfl read]
    rfl
  · rw [Compiled.apply]
    simp [done]
  · decide +kernel

end SourceRepair.Learning
