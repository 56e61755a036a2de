import SourceRepair.Change
import SourceRepair.Pattern.Read
import SourceRepair.Pattern.Replace
import SourceRepair.SourceFile

/-!
# Pattern rules

Where the tree of a file cannot be used, rules rewrite its text. A rule leaves alone what is
already repaired.
-/

namespace SourceRepair.Fallback

open Pattern (Regex Match)

/-- A rule: what it is called, what it changes, and how it rewrites a text with the number of
places. -/
structure Rule where
  name : String
  change : ChangeKind
  rewrite : SourceFile → List Char → Option (List Char × Nat)

/-- The rewritten text and the number of changed places, if anything changed. -/
def Rule.apply (r : Rule) (file : SourceFile) (text : List Char) : Option (List Char × Nat) :=
  match r.rewrite file text with
  | some (code, count) => if 0 < count && code != text then some (code, count) else none
  | none => none

/-- Rewrites each match and counts those that change. -/
def rewriteMatches (regex : Regex) (f : Match → List Char) (text : List Char) :
    List Char × Nat :=
  let found := regex.allMatches text
  (Pattern.replaceMatches f found (.start text), (found.filter fun m => f m != m.text).length)

/-- A rule that rewrites matches of a pattern. -/
def Rule.byMatch (name : String) (change : ChangeKind) (regex : Regex)
    (f : Match → List Char) : Rule where
  name := name
  change := change
  rewrite _ text := some (rewriteMatches regex f text)

/-- A rule that replaces matches of a pattern by a template. -/
def Rule.byTemplate (name : String) (change : ChangeKind) (regex : Regex) (template : String) :
    Rule :=
  .byMatch name change regex fun m => regex.expand m template.toList

end SourceRepair.Fallback
