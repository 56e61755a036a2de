import SourceRepair.Pattern.Match

/-!
# Replacing matches

A template stands for the text in the place of a match: `$1`, `$name`, `${1}` and `${name}` stand
for what a group took, and `$$` for a dollar sign.
-/

namespace SourceRepair.Pattern

/-- Characters of a name without braces. -/
def isNameChar (c : Char) : Bool := c.isAlphanum || c == '_'

/-- A number, perhaps with a plus sign. -/
def groupNumber? (cs : List Char) : Option Nat :=
  let digits := match cs with
    | '+' :: rest => rest
    | cs => cs
  if digits.isEmpty || !digits.all Char.isDigit then none
  else
    let n := digits.foldl (fun n c => n * 10 + (c.toNat - 48)) 0
    if n < UInt64.size then some n else none

/-- What a reference stands for: the text of a group by number or name, or nothing. -/
def Regex.reference (r : Regex) (m : Match) (name : List Char) : List Char :=
  match groupNumber? name with
  | some i => m.group i
  | none =>
    match r.names.lookup (String.ofList name) with
    | some i => m.group i
    | none => []

/-- The text that a template stands for. -/
def Regex.expand (r : Regex) (m : Match) : List Char → List Char
  | [] => []
  | '$' :: '$' :: rest => '$' :: r.expand m rest
  | '$' :: '\x7b' :: rest =>
    let name := rest.takeWhile (· != '\x7d')
    if name.length < rest.length then
      r.reference m name ++ r.expand m (rest.drop (name.length + 1))
    else '$' :: r.expand m ('\x7b' :: rest)
  | '$' :: rest =>
    let name := rest.takeWhile isNameChar
    if name.isEmpty then '$' :: r.expand m rest
    else r.reference m name ++ r.expand m (rest.drop name.length)
  | c :: rest => c :: r.expand m rest
termination_by cs => cs.length
decreasing_by all_goals simp only [List.length_cons, List.length_drop]; omega

/-- The text with each match replaced, after a place. -/
def replaceMatches (f : Match → List Char) : List Match → Place → List Char
  | [], p => p.rest
  | m :: ms, p => p.until m.start ++ f m ++ replaceMatches f ms m.stop

/-- The text with all matches replaced. -/
def Regex.replaceAllBy (r : Regex) (f : Match → List Char) (text : List Char) : List Char :=
  replaceMatches f (r.allMatches text) (.start text)

/-- The text with all matches replaced by what a template stands for. -/
def Regex.replaceAll (r : Regex) (template text : List Char) : List Char :=
  r.replaceAllBy (r.expand · template) text

/-- The text with the first match replaced by what a template stands for. -/
def Regex.replaceFirst (r : Regex) (template text : List Char) : List Char :=
  replaceMatches (r.expand · template) (r.first? text).toList (.start text)

end SourceRepair.Pattern
