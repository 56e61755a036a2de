import SourceRepair.Failure
import SourceRepair.Pattern.Read
import SourceRepair.Pattern.Replace

/-!
# Patterns of learned rules

A rule keeps its pattern as a source and flags with a slash between them, and its replacement in the
dialect of scripts: `$&` is the whole match, `$1` a group and `$<name>` a named group. Both are
turned into what the matcher understands.
-/

namespace SourceRepair.Learning

open Pattern (Regex)

/-- A rule could not be used. -/
def ruleFailure (pattern message : String) : Failure := .ruleApplication pattern message

/-- A pattern cut at its last slash into source and flags. -/
def splitPattern (pattern : String) : Except Failure (String × String) :=
  let back := pattern.toList.reverse
  let flags := (back.takeWhile (· != '/')).reverse
  if flags.length == back.length then
    .error (ruleFailure pattern "missing \x27/<flags>\x27 suffix")
  else if flags.any fun c => !c.isAlpha then
    .error (ruleFailure pattern ("malformed flags \x27" ++ String.ofList flags ++ "\x27"))
  else .ok (String.ofList (back.drop (flags.length + 1)).reverse, String.ofList flags)

/-- The flags of a pattern, none if it is malformed. -/
def flagsOf (pattern : String) : String :=
  match splitPattern pattern with
  | .ok (_, flags) => flags
  | .error _ => ""

/-- The pattern of a source and flags. -/
def joinPattern (source flags : String) : String := source ++ "/" ++ flags

/-- A reference to a group in braces. -/
def braced (name : List Char) : List Char := ['$', '\x7b'] ++ name ++ ['\x7d']

/-- A replacement with its references in braces and every other dollar sign doubled. -/
def translate : List Char → List Char
  | [] => []
  | '$' :: '$' :: cs => '$' :: '$' :: translate cs
  | '$' :: '&' :: cs => braced ['0'] ++ translate cs
  | '$' :: '<' :: cs =>
    let name := cs.takeWhile (· != '>')
    if name.length < cs.length then braced name ++ translate (cs.drop (name.length + 1))
    else '$' :: '$' :: translate ('<' :: cs)
  | '$' :: cs =>
    let digits := (cs.take 2).takeWhile Char.isDigit
    if digits.isEmpty then '$' :: '$' :: translate cs
    else braced digits ++ translate (cs.drop digits.length)
  | c :: cs => c :: translate cs
termination_by cs => cs.length
decreasing_by all_goals simp only [List.length_cons, List.length_drop]; omega

/-- A text as it must stand in a replacement to mean itself. -/
def escapeReplacement (cs : List Char) : List Char :=
  cs.flatMap fun c => if c == '$' then ['$', '$'] else [c]

/-- A rule that is ready to run. -/
structure Compiled where
  regex : Regex
  isGlobal : Bool
  template : List Char
deriving DecidableEq, Inhabited

/-- The flags that a pattern is read with, or the first letter that is no flag. -/
def inlineFlags : List Char → Except Char (List Char)
  | [] => .ok []
  | c :: cs =>
    if c == 'i' || c == 'm' || c == 's' then
      (inlineFlags cs).map fun fs => if fs.contains c then fs else c :: fs
    else if c == 'g' || c == 'u' || c == 'd' then inlineFlags cs
    else .error c

/-- Makes a rule ready to run. -/
def compile (pattern replacement : String) : Except Failure Compiled := do
  let (source, flags) ← splitPattern pattern
  match inlineFlags flags.toList with
  | .error c => .error (ruleFailure pattern ("unsupported flag \x27" ++ String.ofList [c] ++ "\x27"))
  | .ok inline =>
    let full := if inline.isEmpty then source else "(?" ++ String.ofList inline ++ ")" ++ source
    match Regex.read? full with
    | none => .error (ruleFailure pattern "regex parse error: malformed pattern")
    | some regex => .ok ⟨regex, flags.toList.contains 'g', translate replacement.toList⟩

/-- The text with the first match replaced, or all matches; nothing if the text stays the same. -/
def Compiled.apply (c : Compiled) (text : String) : Option String :=
  let cs := text.toList
  let done :=
    if c.isGlobal then c.regex.replaceAll c.template cs else c.regex.replaceFirst c.template cs
  if done == cs then none else some (String.ofList done)

end SourceRepair.Learning
