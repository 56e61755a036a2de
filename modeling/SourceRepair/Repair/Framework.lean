import SourceRepair.Repair.ClientDirective
import SourceRepair.Repair.Imports
import SourceRepair.Repair.Markup

/-!
# Newer forms of framework calls

Routers come from the module for client components, links hold no anchors, and a root is created
before something is rendered into it.
-/

namespace SourceRepair.Repair

open Script (Tree Program Expr ImportDecl ImportSpecifier)

/-- Makes an import take its names from another module. -/
def moveImport (text : List Char) (d : ImportDecl) (module : String) (description : String) :
    Draft :=
  let quote := sourceQuote text d
  .change [.replace d.sourceSpan (quote ++ module ++ quote)] .apiMigrated description
    d.sourceSpan.start

def navigationImports : Repair where
  name := "navigation-imports"
  draft src :=
    if src.file.inAppDirectory && src.program.hasDirective clientDirectiveText then
      .join ((src.program.imports.filter (·.source == "next/router")).map fun d =>
        moveImport src.text d "next/navigation" "moved next/router import to next/navigation")
    else {}

/-! ### Links -/

/-- The one element among some children; white space does not count. -/
def loneElement? : List Tree → Option Element
  | [] => none
  | .jsxText value _ :: rest =>
    if Text.isBlank value.toList then loneElement? rest else none
  | child :: rest =>
    let blank := rest.all fun
      | .jsxText value _ => Text.isBlank value.toList
      | _ => false
    if blank then element? child else none

/-- The anchor that is all a link holds, with the span of its closing tag. -/
def Element.anchor? (link : Element) : Option (Element × Span) := do
  let anchor ← loneElement? link.children
  let closing ← anchor.closing
  if anchor.name.simple? == some "a" then some (anchor, closing) else none

/-- Moves the attributes of the anchor in a link to the link and takes the anchor away. -/
def Element.unwrapAnchor? (link : Element) (text : List Char) : Option Draft := do
  let (anchor, closing) ← link.anchor?
  if link.has "legacyBehavior" then none
  else
    let moved := anchor.attributes.filter fun a =>
      match a.attributeName? with
      | some key => !link.has key
      | none => true
    let texts := moved.map fun a => String.ofList (Text.slice text a.span)
    let offset := match link.attributes.getLast? with
      | some a => a.span.stop
      | none => link.name.span.stop
    let inserted :=
      if texts.isEmpty then [] else [Edit.insert offset (" " ++ String.intercalate " " texts)]
    return .change (inserted ++ [.remove anchor.opening, .remove closing]) .apiMigrated
      "moved <a> attributes onto <Link> and dropped the anchor" anchor.span.start

def linkChildren : Repair where
  name := "link-children"
  draft src :=
    .join (((elements src.program).filter (·.name.simple? == some "Link")).filterMap
      (·.unwrapAnchor? src.text))

/-! ### Roots -/

/-- Writes a call that renders into a container as one that renders into a root. -/
def renderDraft? (text : List Char) : Expr → Option Draft
  | .call (.member target property optional inner) [element, container] _ span =>
    if (Tree.member target property optional inner).dottedName? == some "ReactDOM.render" then
      let root := String.ofList (Text.slice text container.span)
      some (.change
        [.replace property.span ("createRoot(" ++ root ++ ").render"),
          .remove ⟨element.span.stop, container.span.stop⟩]
        .apiMigrated "replaced ReactDOM.render with createRoot().render" span.start)
    else none
  | _ => none

/-- The import binds the whole of a module to a name. -/
def bindsWhole (d : ImportDecl) (name : String) : Bool :=
  (d.specifiers.getD []).any fun
    | .whole bound _ | .star bound _ => bound.text == name
    | .named _ _ _ _ => false

def createRoot : Repair where
  name := "create-root"
  draft src :=
    let calls := src.program.walk.filterMap fun v =>
      match v.node with
      | .tree .expression e => renderDraft? src.text e
      | _ => none
    if calls.isEmpty then {}
    else
      let imports := src.program.imports.filter fun d =>
        d.source == "react-dom" && bindsWhole d "ReactDOM"
      .join calls ++ .join (imports.map fun d =>
        moveImport src.text d "react-dom/client" "imported ReactDOM from react-dom/client")

end SourceRepair.Repair
