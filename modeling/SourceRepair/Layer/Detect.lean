import SourceRepair.Layer.Id
import SourceRepair.Pattern.Match
import SourceRepair.Pattern.Read
import SourceRepair.Repair.ClientDirective
import SourceRepair.Repair.Guards

/-!
# Choosing layers

The layers that are worth running on a file, by what its tree holds, or by its text where it has no
tree.
-/

namespace SourceRepair.Layer

open Pattern (Regex)
open Script (Tree Node Program)

/-- What a file holds. -/
structure Signals where
  markup : Bool
  browserGlobals : Bool
  clientFeatures : Bool
  frameworkCalls : Bool
deriving DecidableEq, Repr, Inhabited

/-- The node shows markup. -/
def showsMarkup : Node → Bool
  | .tree .jsxElement _ => true
  | .tree .expression (.jsxFragment _ _) => true
  | _ => false

/-- The node is a browser global. -/
def showsBrowserGlobal : Node → Bool
  | .tree .expression (.identifier text _) => Repair.browserGlobals.contains text
  | _ => false

/-- A module of the framework. -/
def isFrameworkModule (source : String) : Bool :=
  source == "next" || "next/".toList.isPrefixOf source.toList

/-- The node calls or imports a framework. -/
def showsFramework : Node → Bool
  | .tree .expression (.call callee _ _ _) => callee.dottedName? == some "ReactDOM.render"
  | .tree .statement (.importDecl d) => isFrameworkModule d.source
  | _ => false

/-- What a program holds. -/
def Signals.ofProgram (p : Program) : Signals where
  markup := p.walk.any (showsMarkup ·.node)
  browserGlobals := p.walk.any (showsBrowserGlobal ·.node)
  clientFeatures := Repair.usesClientFeatures p
  frameworkCalls := p.walk.any (showsFramework ·.node)

def markupHint : Regex := .of "<[A-Za-z][\\w.]*[\\s/>]|<>"

def browserGlobalHint : Regex :=
  .of "\\b(?:window|document|localStorage|sessionStorage|navigator)\\b"

def clientHint : Regex :=
  .of ("\\buse(?:State|Effect|LayoutEffect|Reducer|Ref|Callback|Memo|Context|Router)\\s*\\(|" ++
    "\\son[A-Z]\\w*=")

def frameworkHint : Regex :=
  .of "from\\s+[\x27\"]next(?:/[^\x27\"]*)?[\x27\"]|ReactDOM\\.render\\s*\\("

/-- What a text without a tree seems to hold. -/
def Signals.ofText (text : List Char) : Signals where
  markup := markupHint.isMatch text
  browserGlobals := browserGlobalHint.isMatch text
  clientFeatures := clientHint.isMatch text
  frameworkCalls := frameworkHint.isMatch text

/-- What a script holds. -/
def Signals.of (file : SourceFile) (code : String) : Signals :=
  match parseScript .recover file code with
  | .ok p => .ofProgram p
  | .error _ => .ofText code.toList

/-- A layer is worth running on a script. -/
def Signals.wants (s : Signals) (file : SourceFile) : LayerId → Bool
  | .config => false
  | .patterns => true
  | .components => s.markup
  | .hydration => s.browserGlobals
  | .framework => s.clientFeatures || s.frameworkCalls
  | .testing => file.isTest
  | .adaptive => true

/-- The layers worth running on a file: only the first on a file that configures the project, and
none on other JSON. -/
def select (file : SourceFile) (code : String) : List LayerId :=
  if file.config.isSome then [.config]
  else if !file.isScript then []
  else LayerId.all.filter ((Signals.of file code).wants file)

end SourceRepair.Layer
