import SourceRepair.Fallback.Rules
import SourceRepair.Learning.Rule

/-!
# Mining rules

A text before and after a layer is searched for a few known shapes of change. Each shape that is
found is a candidate for a rule.
-/

namespace SourceRepair.Learning

open Pattern (Regex Match)

/-- White space and the first character of a file that starts with neither a quote nor `#`. -/
def directiveSource : String := "^(\\s*)([^\x27\"\\s#])"

def selfClosingReturnSource : String := "return\\s+(<[A-Z][\\w.]*(?:\\s[^<>]*)?/>);"

def defaultExportSource : String := "export default ([A-Z][\\w$]*);"

/-- Diagnostic lines after a line that ends a statement or opens a block, or at the start; blank
lines and comments between are kept. -/
def diagnosticRunSource : String :=
  "(^|[\x7b\x7d;][ \\t]*\\r?\\n)((?:[ \\t]*(?://[^\\n]*)?\\r?\\n)*)(?:" ++ Fallback.diagnosticSource ++
    ")+"

def leadingDirective : Regex := .of "^(?:#![^\\n]*\\n)?\\s*([\x27\"])use client[\x27\"];?"

def wrappedReturn : Regex :=
  .of ("return\\s+(<([A-Z][\\w.]*)(?:\\s[^<>]*)?>)\\s*(<[A-Z][\\w.]*(?:\\s[^<>]*)?/>)\\s*" ++
    "</([A-Z][\\w.]*)>\\s*;")

def wrappedDefaultExport : Regex :=
  .of "export default ((?:React\\.)?memo)\\(\\s*([A-Z][\\w$]*)\\s*\\);"

def diagnosticLines : Regex := .of ("(?m)^" ++ Fallback.diagnosticSource)

/-- The client directive was put at the top. -/
def directiveInsertion (before after : List Char) (layer : LayerId) : Option Rule := do
  if leadingDirective.isMatch before then none
  else
    let m ← leadingDirective.first? after
    let quote := String.ofList (m.group 1)
    return .observed (joinPattern directiveSource "")
      (quote ++ "use client" ++ quote ++ ";\n$1$2") 0.9 layer
      "insert the \x27use client\x27 directive at the top of the file"

/-- A returned element was put into another. -/
def wrapperInsertion (before after : List Char) (layer : LayerId) : Option Rule := do
  let m ← (wrappedReturn.allMatches after).find? fun m =>
    m.group 2 == m.group 4 && Text.holds (m.group 3) before && !Text.holds m.text before
  let opening := String.ofList (escapeReplacement (m.group 1))
  let name := String.ofList (escapeReplacement (m.group 2))
  return .observed (joinPattern selfClosingReturnSource "g")
    ("return " ++ opening ++ "$1</" ++ name ++ ">;") 0.6 layer
    ("wrap returned self-closing elements in <" ++ String.ofList (m.group 2) ++ ">")

/-- The default export was put into a call that remembers. -/
def memoWrapping (before after : List Char) (layer : LayerId) : Option Rule := do
  let m ← (wrappedDefaultExport.allMatches after).find? fun m =>
    Text.holds ("export default ".toList ++ m.group 2 ++ [';']) before && !Text.holds m.text before
  let callee := String.ofList (m.group 1)
  return .observed (joinPattern defaultExportSource "") ("export default " ++ callee ++ "($1);") 0.6
    layer ("wrap the default component export in " ++ callee)

/-- Diagnostic lines were taken out. -/
def diagnosticRemoval (before after : List Char) (layer : LayerId) : Option Rule :=
  let removed := (diagnosticLines.allMatches before).length
  if removed == 0 || removed ≤ (diagnosticLines.allMatches after).length then none
  else
    some (.observed (joinPattern diagnosticRunSource "g") "$1$2" 0.8 layer
      "remove console.log/debug/info lines")

/-- The candidates for rules between two texts. -/
def extract (before after : String) (layer : LayerId) : List Rule :=
  if before == after then []
  else
    [directiveInsertion, wrapperInsertion, memoWrapping, diagnosticRemoval].filterMap fun mine =>
      mine before.toList after.toList layer

end SourceRepair.Learning
