import SourceRepair.Text.CaseFold
import SourceRepair.Text.Category
import SourceRepair.Text.WritingSystem

/-!
# Character classes of patterns
-/

namespace SourceRepair.Pattern

/-- A set of characters. -/
inductive CharClass where
  | any
  | range (first last : Char)
  | digit
  | space
  | word
  | categories (cs : List Text.Category)
  | writing (w : Text.WritingSystem)
  | union (a b : CharClass)
  | inter (a b : CharClass)
  | complement (a : CharClass)
  /-- All characters that differ at most in case from one of the set. -/
  | caseless (a : CharClass)
deriving DecidableEq, Inhabited

namespace CharClass

/-- The set that holds one character. -/
def single (c : Char) : CharClass := range c c

/-- The set that holds no character. -/
def empty : CharClass := complement any

/-- The set that holds the characters of any of some sets. -/
def unions (cs : List CharClass) : CharClass := cs.foldl union empty

/-- The set holds the character. -/
def has : CharClass → Char → Bool
  | any, _ => true
  | range first last, c => first ≤ c && c ≤ last
  | digit, c => Text.isDecimalDigit c
  | space, c => Text.isSpace c
  | word, c => Text.isWordChar c
  | categories cs, c => cs.contains (Text.category c)
  | writing w, c => w.has c
  | union a b, c => a.has c || b.has c
  | inter a b, c => a.has c && b.has c
  | complement a, c => !a.has c
  | caseless a, c => a.has c || (Text.caseVariants c).any a.has

/-- About how many bytes a table for the set takes. The sets of all scripts are long tables. -/
def weight : CharClass → Nat
  | any => 300
  | range _ last => if last.toNat < 128 then 8 else 100
  | digit => 5000
  | space => 600
  | word => 20000
  | categories _ => 15000
  | writing _ => 2000
  | union a b | inter a b => a.weight + b.weight
  | complement any => 0
  | complement a => 100 + a.weight
  | caseless a => 2 * a.weight

/-- The characters of the first set that are not in the second. -/
def minus (a b : CharClass) : CharClass := inter a (complement b)

/-- The characters of exactly one of two sets. -/
def difference (a b : CharClass) : CharClass := union (minus a b) (minus b a)

/-! ### Named sets -/

def asciiDigit : CharClass := range '0' '9'

def asciiLower : CharClass := range 'a' 'z'

def asciiUpper : CharClass := range 'A' 'Z'

def asciiLetter : CharClass := union asciiLower asciiUpper

def asciiWord : CharClass := union (union asciiLetter asciiDigit) (single '_')

/-- Blanks and the controls from tab to carriage return. -/
def asciiSpace : CharClass := union (range '\t' '\r') (single ' ')

/-- The set of a name between colons, such as `alpha`. -/
def posix? (name : String) : Option CharClass :=
  match name with
  | "alnum" => some (union asciiLetter asciiDigit)
  | "alpha" => some asciiLetter
  | "ascii" => some (range (Char.ofNat 0) (Char.ofNat 127))
  | "blank" => some (union (single ' ') (single '\t'))
  | "cntrl" => some (union (range (Char.ofNat 0) (Char.ofNat 31)) (single (Char.ofNat 127)))
  | "digit" => some asciiDigit
  | "graph" => some (range '!' '~')
  | "lower" => some asciiLower
  | "print" => some (range ' ' '~')
  | "punct" =>
    some (unions [range '!' '/', range ':' '@', range '[' '\x60', range '\x7b' '~'])
  | "space" => some asciiSpace
  | "upper" => some asciiUpper
  | "word" => some asciiWord
  | "xdigit" => some (unions [asciiDigit, range 'a' 'f', range 'A' 'F'])
  | _ => none

/-- The general categories of a short or long name. -/
def categories? (name : String) : Option (List Text.Category) :=
  match name with
  | "lu" | "uppercaseletter" => some [.lu]
  | "ll" | "lowercaseletter" => some [.ll]
  | "lt" | "titlecaseletter" => some [.lt]
  | "lm" | "modifierletter" => some [.lm]
  | "lo" | "otherletter" => some [.lo]
  | "mn" | "nonspacingmark" => some [.mn]
  | "mc" | "spacingmark" => some [.mc]
  | "me" | "enclosingmark" => some [.me]
  | "nd" | "decimalnumber" | "digit" => some [.nd]
  | "nl" | "letternumber" => some [.nl]
  | "no" | "othernumber" => some [.no]
  | "pc" | "connectorpunctuation" => some [.pc]
  | "pd" | "dashpunctuation" => some [.pd]
  | "ps" | "openpunctuation" => some [.ps]
  | "pe" | "closepunctuation" => some [.pe]
  | "pi" | "initialpunctuation" => some [.pi]
  | "pf" | "finalpunctuation" => some [.pf]
  | "po" | "otherpunctuation" => some [.po]
  | "sm" | "mathsymbol" => some [.sm]
  | "sc" | "currencysymbol" => some [.sc]
  | "sk" | "modifiersymbol" => some [.sk]
  | "so" | "othersymbol" => some [.so]
  | "zs" | "spaceseparator" => some [.zs]
  | "zl" | "lineseparator" => some [.zl]
  | "zp" | "paragraphseparator" => some [.zp]
  | "cc" | "control" | "cntrl" => some [.cc]
  | "cf" | "format" => some [.cf]
  | "co" | "privateuse" => some [.co]
  | "cn" | "unassigned" => some [.cn]
  | "lc" | "casedletter" => some [.lu, .ll, .lt]
  | "l" | "letter" => some [.lu, .ll, .lt, .lm, .lo]
  | "m" | "mark" | "combiningmark" => some [.mn, .mc, .me]
  | "n" | "number" => some [.nd, .nl, .no]
  | "p" | "punctuation" | "punct" => some [.pc, .pd, .ps, .pe, .pi, .pf, .po]
  | "s" | "symbol" => some [.sm, .sc, .sk, .so]
  | "z" | "separator" => some [.zs, .zl, .zp]
  | "c" | "other" => some [.cc, .cf, .co, .cn, .cs]
  | _ => none

/-- The writing system of a name or its abbreviation. -/
def writing? (name : String) : Option Text.WritingSystem :=
  match name with
  | "latin" | "latn" => some .latin
  | "greek" | "grek" => some .greek
  | "cyrillic" | "cyrl" => some .cyrillic
  | "han" | "hani" => some .han
  | "hiragana" | "hira" => some .hiragana
  | "katakana" | "kana" => some .katakana
  | "arabic" | "arab" => some .arabic
  | "hebrew" | "hebr" => some .hebrew
  | "thai" => some .thai
  | "hangul" | "hang" => some .hangul
  | "devanagari" | "deva" => some .devanagari
  | _ => none

/-- The set of a property. -/
def property? (name : String) : Option CharClass :=
  match name with
  | "any" => some any
  | "ascii" => some (range (Char.ofNat 0) (Char.ofNat 127))
  | "assigned" => some (complement (categories [.cn]))
  | "whitespace" | "wspace" | "space" => some space
  | name =>
    match categories? name with
    | some cs => some (categories cs)
    | none => (writing? name).map writing

/-- A name of a property in small letters and without blanks, dashes and underscores. -/
def looseName (cs : List Char) : String :=
  let kept := (cs.filter fun c => c != ' ' && c != '-' && c != '_').map Char.toLower
  String.ofList (match kept with
    | 'i' :: 's' :: c :: rest => c :: rest
    | kept => kept)

/-- The set of a property that is given as a key with a value. -/
def keyed? (key value : String) : Option CharClass :=
  match key with
  | "gc" | "generalcategory" => (categories? value).map categories
  | "sc" | "script" => (writing? value).map writing
  | _ => none

/-- The set that a property names, alone or as a key with a value. -/
def ofProperty? (cs : List Char) : Option CharClass :=
  let key := cs.takeWhile fun c => c != '=' && c != ':' && c != '!'
  match cs.drop key.length with
  | [] => property? (looseName cs)
  | '!' :: '=' :: value => (keyed? (looseName key) (looseName value)).map complement
  | '=' :: value | ':' :: value => keyed? (looseName key) (looseName value)
  | _ => none

end CharClass

end SourceRepair.Pattern
