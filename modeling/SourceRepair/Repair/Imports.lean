import SourceRepair.Repair.Basic
import SourceRepair.Script.Shape
import SourceRepair.Script.Walk
import SourceRepair.Text.Entity

/-!
# Imports

Several imports of names from one module become one, and a module that uses `React` without having
it imports it.
-/

namespace SourceRepair.Repair

open Script (Tree Program ImportDecl ImportSpecifier)

/-- A specifier of one exported name. -/
def isNamed : ImportSpecifier → Bool
  | .named _ _ _ _ => true
  | _ => false

/-- The import binds exported names and nothing else. -/
def bindsNamesOnly (d : ImportDecl) : Bool :=
  match d.specifiers with
  | some specifiers => !specifiers.isEmpty && specifiers.all isNamed
  | none => false

/-- Two imports are of the same module and the same kind. -/
def sameImport (a b : ImportDecl) : Bool := a.source == b.source && a.isType == b.isType

/-- Adds an import to its group, or as a new group at the end. -/
def addToGroup (d : ImportDecl) : List (List ImportDecl) → List (List ImportDecl)
  | [] => [[d]]
  | g :: gs => if g.any (sameImport d) then (g ++ [d]) :: gs else g :: addToGroup d gs

/-- Imports of the same module and the same kind, in the order of the first of each group. -/
def groupImports (ds : List ImportDecl) : List (List ImportDecl) :=
  ds.foldl (fun groups d => addToGroup d groups) []

/-- The items without repetitions, each where it is first. -/
def firstOccurrences {α : Type} [BEq α] (xs : List α) : List α :=
  xs.foldl (fun seen x => if seen.contains x then seen else seen ++ [x]) []

/-- The text of the specifiers of some imports, each once. -/
def specifierTexts (text : List Char) (ds : List ImportDecl) : List String :=
  firstOccurrences <| ds.flatMap fun d =>
    (d.specifiers.getD []).map fun s => String.ofList (Text.slice text s.span)

/-- The quote that an import writes its module in. -/
def sourceQuote (text : List Char) (d : ImportDecl) : String :=
  String.ofList [Text.quoteOf (Text.slice text d.sourceSpan)]

/-- Writes a group of imports as one in the place of the first. -/
def mergeGroup (text : List Char) : List ImportDecl → Draft
  | first :: second :: others =>
    let rest := second :: others
    let quote := sourceQuote text first
    let keyword := if first.isType then "import type" else "import"
    let names := String.intercalate ", " (specifierTexts text (first :: rest))
    let merged := keyword ++ " \x7b " ++ names ++ " \x7d from " ++ quote ++ first.source ++ quote ++ ";"
    ⟨.replace first.span merged :: rest.map fun d => .remove (Text.removalRange text d.span),
      rest.map fun d =>
        (.importMerged, "merged duplicate import from \"" ++ d.source ++ "\"", d.span.start), []⟩
  | _ => {}

def mergeImports : Repair where
  name := "merge-imports"
  draft src :=
    .join ((groupImports (src.program.imports.filter bindsNamesOnly)).map (mergeGroup src.text))

/-! ### The default import of `React` -/

/-- The program refers to a member of `React`. -/
def refersToReact (p : Program) : Bool :=
  p.walk.any fun v =>
    match v.node with
    | .tree .expression (.member (.identifier "React" _) _ _ _) => true
    | _ => false

/-- A variable of the program has a name. -/
def declaresVariable (p : Program) (name : String) : Bool :=
  p.walk.any fun v =>
    match v.node with
    | .tree .variableDeclaration (.declaration _ ds _) =>
      ds.any fun
        | .declarator pattern _ _ => pattern.bindingName?.any (·.text == name)
        | _ => false
    | _ => false

/-- The offset of the last opening brace before the first specifier of an import. -/
def braceOffset? (text : List Char) (d : ImportDecl) : Option Nat := do
  let first ← (d.specifiers.getD []).head?
  let head := Text.slice text ⟨d.span.start, first.span.start⟩
  let back := head.reverse.dropWhile (· != '\x7b')
  if back.isEmpty then none else some (d.span.start + Text.byteLength back - 1)

def reactImport : Repair where
  name := "react-import"
  draft src :=
    let p := src.program
    if p.importedNames.contains "React" || !refersToReact p || declaresVariable p "React" then {}
    else
      let found := p.imports.find? fun d => d.source == "react" && !d.isType && bindsNamesOnly d
      match found.bind fun d => (braceOffset? src.text d).map (d, ·) with
      | some (d, brace) =>
        .change [.insert brace "React, "] .importAdded "added the default React import" d.span.start
      | none =>
        let offset := p.prologueEnd src.text
        .change [.insert offset "import React from \"react\";\n"] .importAdded
          "imported React for React.* references" offset

end SourceRepair.Repair
