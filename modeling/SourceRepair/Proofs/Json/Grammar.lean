import Mathlib.Logic.Relation
import SourceRepair.Json.Read

/-!
# How JSON is written

A grammar of JSON: relations between a text and what is left of it behind a value. What may stand in front of
tokens, and where a comma may stand that separates nothing, is the style of a text. Plain JSON is one style,
and JSON with comments and trailing commas another.
-/

namespace SourceRepair.Json

open Relation (Comp)

/-! ### Strings -/

/-- A way to write a character between quotes. -/
inductive Spelling : Char → List Char → Prop
  | plain {c : Char} (quote : c ≠ '"') (slash : c ≠ '\\') (printed : ¬c.toNat < 32) : Spelling c [c]
  | short {e c : Char} (known : shortEscape? e = some c) : Spelling c ['\\', e]
  | code {a b c d : Char} {n : Nat} (quad : hexQuad? a b c d = some n) (high : isHighSurrogate n = false)
    (low : isLowSurrogate n = false) : Spelling (Char.ofNat n) ['\\', 'u', a, b, c, d]
  | pair {a b c d e f g h x : Char} {n m : Nat} (first : hexQuad? a b c d = some n)
    (second : hexQuad? e f g h = some m) (both : surrogatePair? n m = some x) :
    Spelling x ['\\', 'u', a, b, c, d, '\\', 'u', e, f, g, h]

/-- What stands between the quotes of a string. -/
inductive Spells : List Char → List Char → Prop
  | nil : Spells [] []
  | cons {c : Char} {cs u w : List Char} (first : Spelling c u) (rest : Spells cs w) : Spells (c :: cs) (u ++ w)

def IsString (s : String) (w : List Char) : Prop := ∃ u, Spells s.toList u ∧ w = '"' :: (u ++ ['"'])

/-! ### Numbers and words -/

def AreDigits (w : List Char) : Prop := w ≠ [] ∧ ∀ c ∈ w, c.isDigit

/-- The digits in front of the point. Zero is the only number that starts with a zero. -/
def IsWhole (w : List Char) : Prop := AreDigits w ∧ (w.head? = some '0' → w = ['0'])

inductive IsFraction : List Char → Prop
  | none : IsFraction []
  | point {w : List Char} (digits : AreDigits w) : IsFraction ('.' :: w)

inductive IsExponent : List Char → Prop
  | none : IsExponent []
  | power {e : Char} {sign w : List Char} (letter : e = 'e' ∨ e = 'E')
    (signed : sign = [] ∨ sign = ['+'] ∨ sign = ['-']) (digits : AreDigits w) : IsExponent (e :: (sign ++ w))

/-- The parts of a number that is written without its sign. -/
inductive IsMagnitude : List Char → Prop
  | parts {whole fraction exponent : List Char} (digits : IsWhole whole) (point : IsFraction fraction)
    (power : IsExponent exponent) : IsMagnitude (whole ++ (fraction ++ exponent))

/-- A number as it is written. Its value is the number of 64 bits, or else the double, that is read. -/
inductive IsNumeral : Number → List Char → Prop
  | positive {n : Number} {w : List Char} (shape : IsMagnitude w) (value : readNumber false w = some (n, [])) :
    IsNumeral n w
  | negative {n : Number} {w : List Char} (shape : IsMagnitude w) (value : readNumber true w = some (n, [])) :
    IsNumeral n ('-' :: w)

/-- A value that is written as one word or number. -/
inductive IsWord : Value → List Char → Prop
  | null : IsWord .null ['n', 'u', 'l', 'l']
  | yes : IsWord (.bool true) ['t', 'r', 'u', 'e']
  | no : IsWord (.bool false) ['f', 'a', 'l', 's', 'e']
  | number {n : Number} {w : List Char} (numeral : IsNumeral n w) : IsWord (.number n) w

/-- A digit starts every number without a sign. -/
theorem IsMagnitude.head {w : List Char} (shape : IsMagnitude w) : ∃ c cs, w = c :: cs ∧ c.isDigit := by
  cases shape with
  | @parts whole _ _ digits _ _ =>
    obtain ⟨c, cs, rfl⟩ := List.exists_cons_of_ne_nil digits.1.1
    exact ⟨c, _, rfl, digits.1.2 c List.mem_cons_self⟩

/-- No word starts with a blank or a bracket. -/
theorem IsWord.head {v : Value} {w : List Char} (word : IsWord v w) :
    ∃ c cs, w = c :: cs ∧ isBlank c = false ∧ c ≠ '[' ∧ c ≠ '\x7b' := by
  cases word with
  | null | yes | no => exact ⟨_, _, rfl, by decide⟩
  | number numeral =>
    cases numeral with
    | negative _ _ => exact ⟨_, _, rfl, by decide⟩
    | positive shape _ =>
      obtain ⟨c, cs, rfl, digit⟩ := shape.head
      have apart : ∀ d : Char, d.isDigit = false → c ≠ d := by
        rintro d other rfl
        rw [digit] at other
        cases other
      exact ⟨c, cs, rfl, by simp [isBlank, apart]⟩

/-! ### Styles -/

/-- What a text can start with: the text, and what is left of it. -/
abbrev Front := List Char → List Char → Prop

structure Style where
  /-- What stands in front of a token. -/
  gap : List Char → Prop
  /-- What stands behind the value at the end of the text. -/
  ending : List Char → Prop
  /-- How the characters of a word or number are spread. -/
  spread : List Char → List Char → Prop
  /-- A comma may stand in front of a closing bracket, behind the items of a list or in an empty one. -/
  comma : (full : Bool) → Prop

namespace Style

variable (s : Style)

/-- A mark, with what stands in front of it. -/
def mark (c : Char) : Front := fun t r => ∃ g, s.gap g ∧ t = g ++ c :: r

/-- The end of a list. -/
def close (full : Bool) (c : Char) : Front := fun t r =>
  s.mark c t r ∨ s.comma full ∧ Comp (s.mark ',') (s.mark c) t r

def quoted (x : String) : Front := fun t r => ∃ g w, s.gap g ∧ IsString x w ∧ t = g ++ (w ++ r)

def word (v : Value) : Front := fun t r =>
  ∃ g w w', s.gap g ∧ IsWord v w ∧ s.spread w w' ∧ t = g ++ (w' ++ r)

end Style

mutual

/-- The text starts with the value. -/
def Value.Starts (s : Style) : Value → Front
  | .string x => s.quoted x
  | .array [] => Comp (s.mark '[') (s.close false ']')
  | .array (v :: vs) => Comp (s.mark '[') (Comp (v.Starts s) (MoreItems s vs))
  | .object [] => Comp (s.mark '\x7b') (s.close false '\x7d')
  | .object ((k, v) :: ms) =>
    Comp (Comp (s.mark '\x7b') (s.quoted k)) (Comp (s.mark ':') (Comp (v.Starts s) (MoreMembers s ms)))
  | v => s.word v

/-- What stands behind an item of a list that goes on with some others. -/
def MoreItems (s : Style) : List Value → Front
  | [] => s.close true ']'
  | v :: vs => Comp (Comp (s.mark ',') (v.Starts s)) (MoreItems s vs)

/-- What stands behind a member of an object that goes on with some others. -/
def MoreMembers (s : Style) : List (String × Value) → Front
  | [] => s.close true '\x7d'
  | (k, v) :: ms =>
    Comp (Comp (s.mark ',') (s.quoted k)) (Comp (s.mark ':') (Comp (v.Starts s) (MoreMembers s ms)))

end

/-- The text holds the value and nothing else. -/
def Document (s : Style) (v : Value) (t : List Char) : Prop := ∃ r, v.Starts s t r ∧ s.ending r

/-! ### Plain JSON -/

def AreBlanks (g : List Char) : Prop := ∀ c ∈ g, isBlank c

/-- Nothing but blanks stands between tokens, and commas between items only. -/
def Style.plain : Style := ⟨AreBlanks, AreBlanks, Eq, fun _ => False⟩

/-! ### Comments -/

/-- A comment between a slash with a star and a star with a slash. -/
inductive IsBlock : List Char → Prop
  | closed {b : List Char} (inside : ¬['*', '/'] <:+: b) : IsBlock ('/' :: '*' :: (b ++ ['*', '/']))

/-- Blanks and comments. A comment behind two slashes goes on to the end of its line. -/
inductive IsGap : List Char → Prop
  | nil : IsGap []
  | blank {c : Char} {g : List Char} (blank : isBlank c) (rest : IsGap g) : IsGap (c :: g)
  | line {l g : List Char} (one : '\n' ∉ l) (rest : IsGap g) : IsGap ('/' :: '/' :: (l ++ '\n' :: g))
  | block {b g : List Char} (block : IsBlock b) (rest : IsGap g) : IsGap (b ++ g)

/-- Blanks and comments up to the end of the text, which also ends a line. -/
inductive IsEnding : List Char → Prop
  | gap {g : List Char} (gap : IsGap g) : IsEnding g
  | line {g l : List Char} (gap : IsGap g) (one : '\n' ∉ l) : IsEnding (g ++ '/' :: '/' :: l)

/-- Comments may stand between tokens, and a comma behind the last item of a list. -/
def Style.commented : Style := ⟨IsGap, IsEnding, Eq, (· = true)⟩

/-! ### What else passes for JSON with comments -/

/-- Comments between slashes and stars, one behind the other. -/
inductive AreBlocks : List Char → Prop
  | nil : AreBlocks []
  | cons {b bs : List Char} (block : IsBlock b) (rest : AreBlocks bs) : AreBlocks (b ++ bs)

/-- A word with such comments between its characters. -/
inductive Spread : List Char → List Char → Prop
  | last (c : Char) : Spread [c] [c]
  | cons (c : Char) {b w w' : List Char} (blocks : AreBlocks b) (rest : Spread w w') :
    Spread (c :: w) (c :: (b ++ w'))

/-- An ending whose last comment may lack its star and slash. -/
inductive IsLooseEnding : List Char → Prop
  | ending {e : List Char} (ending : IsEnding e) : IsLooseEnding e
  | open {g b : List Char} (gap : IsGap g) (inside : ¬['*', '/'] <:+: b) : IsLooseEnding (g ++ '/' :: '*' :: b)

/-- Comments may also stand inside words and numbers, the last one may stay open, and a comma may stand in an
empty list. -/
def Style.loose : Style := ⟨IsGap, IsLooseEnding, Spread, fun _ => True⟩

/-- Loose JSON without its comments. -/
def Style.spaced : Style := ⟨AreBlanks, AreBlanks, Eq, fun _ => True⟩

/-! ### Nesting -/

mutual

/-- The number of lists around the innermost one, and that one. -/
def Value.nesting : Value → Nat
  | .array vs => itemsNesting vs + 1
  | .object ms => membersNesting ms + 1
  | _ => 0

def itemsNesting : List Value → Nat
  | [] => 0
  | v :: vs => max v.nesting (itemsNesting vs)

def membersNesting : List (String × Value) → Nat
  | [] => 0
  | (_, v) :: ms => max v.nesting (membersNesting ms)

end

/-! ### From one style to another -/

/-- The text starts in a way that is carried over from one style to another, piece by piece. -/
structure Style.Carried (P : Front → Front → Prop) (s s' : Style) : Prop where
  comp {X X' Y Y' : Front} (first : P X X') (rest : P Y Y') : P (Comp X Y) (Comp X' Y')
  mark (c : Char) (known : c ∈ ['[', '\x7b', ':']) : P (s.mark c) (s'.mark c)
  close (full : Bool) (c : Char) (known : c = ']' ∨ c = '\x7d') : P (s.close full c) (s'.close full c)
  quoted (x : String) : P (s.quoted x) (s'.quoted x)
  word (v : Value) : P (s.word v) (s'.word v)
  item (v : Value) (carried : P (v.Starts s) (v.Starts s')) :
    P (Comp (s.mark ',') (v.Starts s)) (Comp (s'.mark ',') (v.Starts s'))
  key (x : String) : P (Comp (s.mark ',') (s.quoted x)) (Comp (s'.mark ',') (s'.quoted x))

section

variable {P : Front → Front → Prop} {s s' : Style}

mutual

theorem Style.Carried.starts (carried : s.Carried P s') : ∀ v : Value, P (v.Starts s) (v.Starts s')
  | .null | .bool _ | .number _ => by
    simp only [Value.Starts]
    exact carried.word _
  | .string x => by
    simp only [Value.Starts]
    exact carried.quoted x
  | .array [] => by
    simp only [Value.Starts]
    exact carried.comp (carried.mark _ (by simp)) (carried.close _ _ (.inl rfl))
  | .array (v :: vs) => by
    simp only [Value.Starts]
    exact carried.comp (carried.mark _ (by simp)) (carried.comp (carried.starts v) (carried.items vs))
  | .object [] => by
    simp only [Value.Starts]
    exact carried.comp (carried.mark _ (by simp)) (carried.close _ _ (.inr rfl))
  | .object ((k, v) :: ms) => by
    simp only [Value.Starts]
    exact carried.comp (carried.comp (carried.mark _ (by simp)) (carried.quoted k))
      (carried.comp (carried.mark _ (by simp)) (carried.comp (carried.starts v) (carried.members ms)))

theorem Style.Carried.items (carried : s.Carried P s') : ∀ vs : List Value, P (MoreItems s vs) (MoreItems s' vs)
  | [] => by
    simp only [MoreItems]
    exact carried.close _ _ (.inl rfl)
  | v :: vs => by
    simp only [MoreItems]
    exact carried.comp (carried.item v (carried.starts v)) (carried.items vs)

theorem Style.Carried.members (carried : s.Carried P s') :
    ∀ ms : List (String × Value), P (MoreMembers s ms) (MoreMembers s' ms)
  | [] => by
    simp only [MoreMembers]
    exact carried.close _ _ (.inr rfl)
  | (k, v) :: ms => by
    simp only [MoreMembers]
    exact carried.comp (carried.key k)
      (carried.comp (carried.mark _ (by simp)) (carried.comp (carried.starts v) (carried.members ms)))

end

end

/-- A style that allows what another one does. -/
structure Style.Allows (s' s : Style) : Prop where
  gap (g : List Char) (gap : s.gap g) : s'.gap g
  ending (e : List Char) (ending : s.ending e) : s'.ending e
  spread (w w' : List Char) (full : w ≠ []) (spread : s.spread w w') : s'.spread w w'
  comma (full : Bool) (comma : s.comma full) : s'.comma full

section

variable {s s' : Style} (allows : s'.Allows s)
include allows

theorem Style.Allows.mark {c : Char} {t r : List Char} (front : s.mark c t r) : s'.mark c t r := by
  obtain ⟨g, gap, same⟩ := front
  exact ⟨g, allows.gap g gap, same⟩

theorem Style.Allows.quoted {x : String} {t r : List Char} (front : s.quoted x t r) : s'.quoted x t r := by
  obtain ⟨g, w, gap, string, same⟩ := front
  exact ⟨g, w, allows.gap g gap, string, same⟩

theorem Style.Allows.carried : s.Carried (fun X X' => ∀ t r, X t r → X' t r) s' where
  comp first rest := by
    rintro t r ⟨u, front, back⟩
    exact ⟨u, first t u front, rest u r back⟩
  mark c _ t r := allows.mark
  close full c _ := by
    rintro t r (front | ⟨comma, u, front, back⟩)
    · exact .inl (allows.mark front)
    · exact .inr ⟨allows.comma full comma, u, allows.mark front, allows.mark back⟩
  quoted x t r := allows.quoted
  word v := by
    rintro t r ⟨g, w, w', gap, word, spread, same⟩
    obtain ⟨c, cs, rfl, _⟩ := word.head
    exact ⟨g, _, w', allows.gap g gap, word, allows.spread _ w' (by simp) spread, same⟩
  item v carried := by
    rintro t r ⟨u, front, back⟩
    exact ⟨u, allows.mark front, carried u r back⟩
  key x := by
    rintro t r ⟨u, front, back⟩
    exact ⟨u, allows.mark front, allows.quoted back⟩

theorem Document.of_allows {v : Value} {t : List Char} (document : Document s v t) : Document s' v t := by
  obtain ⟨r, starts, ending⟩ := document
  exact ⟨r, allows.carried.starts v t r starts, allows.ending r ending⟩

end

end SourceRepair.Json
