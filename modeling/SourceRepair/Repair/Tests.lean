import SourceRepair.Repair.Imports
import SourceRepair.Script.Shape
import SourceRepair.Script.Walk

/-!
# Test files

Tests import the helpers and matchers that they use, and a test that waits is asynchronous.
-/

namespace SourceRepair.Repair

open Script (Tree Node Visit Program Expr)

def testingLibrary : String := "@testing-library/react"

def jestDom : String := "@testing-library/jest-dom"

/-- The helpers that tests use. -/
def testHelpers : List String := ["render", "screen", "fireEvent"]

/-- Matchers that an extension brings. -/
def domMatchers : List String :=
  ["toBeInTheDocument", "toHaveTextContent", "toHaveAttribute", "toHaveClass", "toBeVisible",
    "toBeDisabled", "toBeEnabled", "toHaveValue", "toBeChecked", "toHaveStyle", "toHaveFocus",
    "toBeEmptyDOMElement"]

/-- The functions that define a test. -/
def testFunctions : List String := ["it", "test", "it.only", "test.only", "it.skip", "test.skip"]

/-! ### Imports -/

/-- The program uses a name as an expression. -/
def refersTo (p : Program) (name : String) : Bool :=
  p.walk.any fun v =>
    match v.node with
    | .tree .expression (.identifier text _) => text == name
    | _ => false

/-- A function of the program has a name. -/
def declaresFunction (p : Program) (name : String) : Bool :=
  p.walk.any fun v =>
    match v.node with
    | .tree .function (.function head _ _) => head.name.any (·.text == name)
    | _ => false

/-- The helpers that a program uses and does not have. -/
def missingHelpers (p : Program) : List String :=
  testHelpers.filter fun h =>
    refersTo p h && !declaresVariable p h && !declaresFunction p h && !p.importedNames.contains h

/-- The end of the last name in the first import of helpers that has one. -/
def helperSlot? (p : Program) : Option Nat :=
  p.imports.findSome? fun d =>
    if d.source == testingLibrary && !d.isType then
      ((d.specifiers.getD []).filter isNamed).getLast?.map (·.span.stop)
    else none

def testingLibraryImports : Repair where
  name := "testing-library-imports"
  draft src :=
    let missing := missingHelpers src.program
    if missing.isEmpty then {}
    else
      let names := String.intercalate ", " missing
      let (offset, text) := match helperSlot? src.program with
        | some offset => (offset, ", " ++ names)
        | none =>
          (src.program.importsEnd src.text,
            "import \x7b " ++ names ++ " \x7d from \"" ++ testingLibrary ++ "\";\n")
      ⟨[.insert offset text],
        missing.map fun name =>
          (.importAdded, "imported \x60" ++ name ++ "\x60 from " ++ testingLibrary, offset), []⟩

def importsJestDom (p : Program) : Bool :=
  p.imports.any fun d => jestDom.toList.isPrefixOf d.source.toList

def usesMatchers (p : Program) : Bool :=
  p.walk.any fun v =>
    match v.node with
    | .tree .expression (.member _ property _ _) => domMatchers.contains property.text
    | _ => false

def jestDomImport : Repair where
  name := "jest-dom-import"
  draft src :=
    if importsJestDom src.program || !usesMatchers src.program then {}
    else
      let offset := src.program.importsEnd src.text
      .change [.insert offset ("import \"" ++ jestDom ++ "\";\n")] .importAdded
        "imported @testing-library/jest-dom matchers" offset

/-! ### Tests that wait -/

/-- The nodes from the nearest function around a node on. -/
def enclosingFunction? : List Node → Option (List Node)
  | [] => none
  | node :: above =>
    if node.isFunctionBoundary then some (node :: above) else enclosingFunction? above

/-- The nearest function, as an expression with the nodes around it, if it is not asynchronous. -/
def syncFunction? (ancestors : List Node) : Option (Expr × List Node) :=
  match enclosingFunction? ancestors with
  | some (.tree .function (.function head _ _) :: .tree .expression e :: above) =>
    if head.isAsync then none
    else
      match e with
      | .function _ _ _ => some (e, above)
      | .arrow head _ _ => if head.isAsync then none else some (e, above)
      | _ => none
  | some (.tree .expression (.arrow head params body) :: above) =>
    if head.isAsync then none else some (.arrow head params body, above)
  | _ => none

/-- The start of the nearest function, if it is a callback of a test and not asynchronous. -/
def testCallbackStart? (ancestors : List Node) : Option Nat := do
  let (callback, above) ← syncFunction? ancestors
  match above with
  | .tree .expression (.call callee args _ _) :: _ =>
    if callee.dottedName?.any testFunctions.contains &&
        (args.filterMap Tree.element?).any (·.span == callback.span) then
      some callback.span.start
    else none
  | _ => none

/-- The offsets of the test callbacks that wait without being asynchronous, in ascending order. -/
def waitingCallbacks (p : Program) : List Nat :=
  let found := p.walk.filterMap fun v =>
    match v.node with
    | .tree .expression (.await _ _) => testCallbackStart? v.ancestors
    | _ => none
  (firstOccurrences found).mergeSort

def asyncTestCallbacks : Repair where
  name := "async-test-callbacks"
  draft src :=
    .join ((waitingCallbacks src.program).map fun offset =>
      .change [.insert offset "async "] .testScaffold "marked an awaiting test callback async"
        offset)

end SourceRepair.Repair
