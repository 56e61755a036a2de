import SourceRepair.Fallback.Rule
import SourceRepair.Layer.Id
import SourceRepair.Repair.ClientDirective
import SourceRepair.Repair.Tests
import SourceRepair.Text.Entity

/-!
# The pattern rules of each layer
-/

namespace SourceRepair.Fallback

open Pattern (Regex Match)

/-! ### Configuration -/

/-- A line that holds one flag with its value. -/
def flagLine (flag : String) : Regex :=
  .of ("(?m)^[ \\t]*" ++ flag ++ "\\s*:\\s*(?:true|false)\\s*,?[ \\t]*\\r?\\n")

def legacyTarget : Regex := .of "(\"target\"\\s*:\\s*\")(?i:es3|es5)(\")"

def configRules : List Rule := [
  .byTemplate "raised compilerOptions.target to es2020" .configNormalized legacyTarget
    "$\x7b1\x7des2020$\x7b2\x7d",
  .byTemplate "removed experimental.appDir" .configNormalized (flagLine "appDir") "",
  .byTemplate "removed swcMinify" .configNormalized (flagLine "swcMinify") ""]

/-! ### Patterns -/

/-- A string literal that is not the value of an attribute. -/
def freeLiteral : Regex :=
  .of "(^|[^=\\\\])(\"(?:[^\"\\\\\\n]|\\\\.)*\"|\x27(?:[^\x27\\\\\\n]|\\\\.)*\x27)"

/-- The literal of a match with its entities replaced. -/
def decodeMatch (m : Match) : List Char :=
  match Text.decodeLiteral? (m.group 2) with
  | some decoded => m.group 1 ++ decoded
  | none => m.text

/-- A call that writes to the console and fills a line; its arguments may hold one level of
parentheses. -/
def diagnosticSource : String :=
  "[ \\t]*console\\.(?:log|debug|info)\\((?:[^()\\n]|\\([^()\\n]*\\))*\\);?[ \\t]*\\r?\\n"

def diagnosticLine : Regex := .of ("^" ++ diagnosticSource ++ "$")

/-- The lines of a text, each with the newline that ends it. -/
def linesOf : List Char → List (List Char)
  | [] => []
  | '\n' :: cs => ['\n'] :: linesOf cs
  | c :: cs =>
    match linesOf cs with
    | line :: lines => (c :: line) :: lines
    | [] => [[c]]

/-- The last character of a line after which a statement starts. -/
def endsStatement (code : List Char) : Bool :=
  code.getLast?.any fun c => c == ';' || c == '\x7b' || c == '\x7d'

/-- A statement starts after a line, given whether one started before it. Blank lines and comments
change nothing. -/
def statementStarts (before : Bool) (line : List Char) : Bool :=
  let code := Text.trim line
  if code.isEmpty || "//".toList.isPrefixOf code then before else endsStatement code

/-- The lines that stay, and the number of diagnostic lines left out. A diagnostic line goes only
where a statement starts. -/
def dropDiagnostics : Bool → List (List Char) → List (List Char) × Nat
  | _, [] => ([], 0)
  | starts, line :: lines =>
    if starts && diagnosticLine.isMatch line then
      let (kept, n) := dropDiagnostics starts lines
      (kept, n + 1)
    else
      let (kept, n) := dropDiagnostics (statementStarts starts line) lines
      (line :: kept, n)

def removeDiagnostics (text : List Char) : Option (List Char × Nat) :=
  let (kept, n) := dropDiagnostics true (linesOf text)
  if n == 0 then none else some (kept.flatten, n)

def topLevelVar : Regex := .of "(?m)^var\\s+([A-Za-z_$][\\w$]*)\\s*[=;\\n]"

/-- A name with a backslash before each character that has a meaning in patterns. -/
def escapeName (name : List Char) : List Char :=
  name.flatMap fun c => if Pattern.metaChars.contains c then ['\\', c] else [c]

/-- A use of a name. -/
def useOf (name : List Char) : Regex :=
  .of ("(^|[^\\w$.])" ++ String.ofList (escapeName name) ++ "($|[^\\w$])")

/-- The places of declarations by `var` whose name is declared once and not used above. -/
def lettable (text : List Char) (found : List Match) : List Nat :=
  (found.filter fun m =>
    let name := m.group 1
    (found.filter (·.group 1 == name)).length == 1 &&
      !(useOf name).isMatch (text.take m.start.index)).map (·.start.index)

/-- Writes `let` over the three characters at each of some ascending places. -/
def writeLet : List Nat → Nat → List Char → List Char
  | [], _, cs => cs
  | n :: ns, index, cs =>
    cs.take (n - index) ++ ['l', 'e', 't'] ++ writeLet ns (n + 3) (cs.drop (n - index + 3))

def varToLet (text : List Char) : Option (List Char × Nat) :=
  let found := topLevelVar.allMatches text
  if found.isEmpty then none
  else
    let places := lettable text found
    some (writeLet places 0 text, places.length)

def patternRules : List Rule := [
  .byMatch "decoded HTML entities in a string literal" .entityDecoded freeLiteral decodeMatch,
  ⟨"removed console statement", .diagnosticRemoved, fun _ => removeDiagnostics⟩,
  ⟨"replaced \x60var\x60 with \x60let\x60", .apiMigrated, fun _ => varToLet⟩]

/-! ### Components -/

/-- Writes an attribute into the tag of a match unless it is there or may come from a spread. -/
def addAttribute (tag key attr : String) (m : Match) : List Char :=
  let rest := m.group 1
  if Text.holds (key ++ "=").toList rest || Text.holds "\x7b...".toList rest then m.text
  else ("<" ++ tag ++ " " ++ attr).toList ++ rest ++ ['>']

def mapElement : Regex :=
  .of ("\\.map\\(\\s*\\(?\\s*([A-Za-z_$][\\w$]*)\\s*\\)?\\s*=>\\s*(\\(?\\s*)<([A-Za-z][\\w.]*)" ++
    "([^>]*)>")

/-- Writes a key into the element that a callback of `map` returns. -/
def addKey (m : Match) : List Char :=
  if Text.holds "key=".toList (m.group 4) then m.text
  else
    ".map((".toList ++ m.group 1 ++ ", index) => ".toList ++ m.group 2 ++ "<".toList ++ m.group 3 ++
      " key=\x7bindex\x7d".toList ++ m.group 4 ++ ">".toList

def componentRules : List Rule := [
  .byMatch "added alt=\"\" to <img>" .attributeAdded (.of "<img\\b([^>]*)>")
    (addAttribute "img" "alt" "alt=\"\""),
  .byMatch "added type=\"button\" to <button>" .attributeAdded (.of "<button\\b([^>]*)>")
    (addAttribute "button" "type" "type=\"button\""),
  .byMatch "added key=\x7bindex\x7d to an element rendered by .map()" .keyAdded mapElement addKey]

/-! ### Hydration -/

def storageRead : Regex := .of "(=\\s*)(localStorage\\.getItem\\([^()\\n]*\\))"

def globalRead : Regex :=
  .of "([=(,:]\\s*)(window|document)((?:\\.[A-Za-z_$][\\w$]*)+)(\\s*[;),])"

def hydrationRules : List Rule := [
  .byTemplate "guarded a localStorage.getItem assignment" .guardAdded storageRead
    "$\x7b1\x7d(typeof localStorage !== \"undefined\" ? $\x7b2\x7d : null)",
  .byTemplate "guarded a browser global read" .guardAdded globalRead
    "$\x7b1\x7d(typeof $\x7b2\x7d !== \"undefined\" ? $\x7b2\x7d$\x7b3\x7d : undefined)$\x7b4\x7d"]

/-! ### Framework -/

def clientUsage : Regex :=
  .of ("\\b(?:" ++ String.intercalate "|" Repair.clientHooks ++ ")\\s*\\(|\\son[A-Z]\\w*=\\\x7b")

def useServer : Regex := .of "(?m)^\\s*[\x27\"]use server[\x27\"]"

def useClientLine : Regex := .of "(?m)^[ \\t]*[\x27\"]use client[\x27\"];?[ \\t]*(?:\\r?\\n|$)"

/-- The first line of a text that starts with `#!`, and the rest. -/
def splitHashbang (text : List Char) : List Char × List Char :=
  if "#!".toList.isPrefixOf text then
    let n := (Text.firstLine text).length + 1
    (text.take n, text.drop n)
  else ([], text)

def placeClientDirective (file : SourceFile) (text : List Char) : Option (List Char × Nat) :=
  if file.isTest || file.inPagesDirectory || useServer.isMatch text || !clientUsage.isMatch text then
    none
  else
    let (head, body) := splitHashbang text
    let placed := head ++ "\x27use client\x27;\n".toList ++ useClientLine.replaceAll [] body
    if placed == text then none else some (placed, 1)

def renderCall : Regex := .of "ReactDOM\\.render\\(\\s*([^,]+?)\\s*,\\s*([^,()]+?)\\s*\\)"

def reactDomImport : Regex :=
  .of "(import\\s+(?:\\*\\s+as\\s+)?ReactDOM\\s+from\\s+)([\x27\"])react-dom([\x27\"])"

def createRoot (text : List Char) : Option (List Char × Nat) :=
  let count := (renderCall.allMatches text).length
  if count == 0 then none
  else
    let rendered :=
      renderCall.replaceAll "ReactDOM.createRoot($\x7b2\x7d).render($\x7b1\x7d)".toList text
    some (reactDomImport.replaceAll "$\x7b1\x7d$\x7b2\x7dreact-dom/client$\x7b3\x7d".toList rendered,
      count)

def frameworkRules : List Rule := [
  ⟨"placed \x27use client\x27 as the first statement", .directivePlaced, placeClientDirective⟩,
  ⟨"replaced ReactDOM.render with createRoot().render", .apiMigrated, fun _ => createRoot⟩]

/-! ### Testing -/

def matcherCall : Regex := .of ("\\.(?:" ++ String.intercalate "|" Repair.domMatchers ++ ")\\(")

def importStatement : Regex := .of "(?m)^import\\b[^;]*;[ \\t]*(?:\\r?\\n|$)"

def jestDomImport (text : List Char) : Option (List Char × Nat) :=
  if Text.holds Repair.jestDom.toList text || !matcherCall.isMatch text then none
  else
    let place := match (importStatement.allMatches text).getLast? with
      | some m => m.stop.index
      | none => 0
    let head := text.take place
    let newline := if place != 0 && head.getLast? != some '\n' then ['\n'] else []
    some (head ++ newline ++ ("import \"" ++ Repair.jestDom ++ "\";\n").toList ++ text.drop place, 1)

def testingRules : List Rule := [
  ⟨"imported @testing-library/jest-dom matchers", .importAdded, fun _ => jestDomImport⟩]

/-! ### All rules -/

/-- The rules of a layer, in the order in which they are tried. -/
def rulesFor : LayerId → List Rule
  | .config => configRules
  | .patterns => patternRules
  | .components => componentRules
  | .hydration => hydrationRules
  | .framework => frameworkRules
  | .testing => testingRules
  | .adaptive => []

/-- What a rule makes of a rewritten text. -/
def step (file : SourceFile) (done : Rewrite) (r : Rule) : Rewrite :=
  match r.apply file done.code.toList with
  | some (code, count) =>
    ⟨String.ofList code,
      done.changes ++ List.replicate count ⟨r.change, r.name ++ " (pattern fallback)", none⟩, []⟩
  | none => done

/-- Runs all rules of a layer on a text. -/
def apply (layer : LayerId) (file : SourceFile) (text : String) : Rewrite :=
  (rulesFor layer).foldl (step file) ⟨text, [], []⟩

end SourceRepair.Fallback
