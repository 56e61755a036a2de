import SourceRepair.Repair.Basic
import SourceRepair.Script.Shape
import SourceRepair.Script.Walk

/-!
# Elements

Elements made from lists get keys, and images and buttons get the attributes that they need.
-/

namespace SourceRepair.Repair

open Script (Tree Program Expr)

/-- An element: its tag, its attributes and the spans of its parts. -/
structure Element where
  name : Script.JsxName
  attributes : List Tree
  opening : Span
  children : List Tree
  closing : Option Span
  span : Span
deriving Inhabited

def element? : Tree → Option Element
  | .jsxElement name attributes opening children closing span =>
    some ⟨name, attributes, opening, children, closing, span⟩
  | _ => none

/-- The elements of a program. -/
def elements (p : Program) : List Element :=
  p.walk.filterMap fun v =>
    match v.node with
    | .tree .jsxElement t => element? t
    | _ => none

/-- The program holds an element. -/
def hasElements (p : Program) : Bool := !(elements p).isEmpty

def Element.has (e : Element) (key : String) : Bool := Tree.hasAttribute e.attributes key

def Element.hasSpread (e : Element) : Bool := e.attributes.any Tree.isSpread

/-- Writes an attribute behind the name of the tag. -/
def Element.addAttribute (e : Element) (text : String) : Edit :=
  .insert e.name.span.stop (" " ++ text)

/-! ### Keys -/

/-- A function without a name of its own. -/
structure Arrow where
  head : Script.FuncHead
  params : List Tree
  body : Tree
deriving Inhabited

/-- The arrow function that a call of `map` calls for each item. -/
def mapCallback? : Expr → Option Arrow
  | .call callee args _ _ =>
    match callee.stripParens with
    | .member _ property _ _ =>
      if property.text == "map" then
        match (Tree.argument? args 0).map Tree.stripParens with
        | some (.arrow head params body) => some ⟨head, params, body⟩
        | _ => none
      else none
    | _ => none
  | _ => none

def mapCallbacks (p : Program) : List Arrow :=
  p.walk.filterMap fun v =>
    match v.node with
    | .tree .expression e => mapCallback? e
    | _ => none

/-- The value of the last `return` with a value among some statements. -/
def lastReturned? (statements : List Tree) : Option Expr :=
  statements.reverse.findSome? fun
    | .returns argument _ => argument
    | _ => none

/-- The element that a function gives back, directly or by `return`. -/
def Arrow.returned? (f : Arrow) : Option Element :=
  let value := match f.body with
    | .body _ statements _ => lastReturned? statements
    | e => some e
  (value.map Tree.stripParens).bind element?

/-- The name of the index of an item, with the edit that gives the function that parameter. -/
def Arrow.index? (f : Arrow) (text : List Char) : Option (String × List Edit) :=
  let items := f.params.filter fun
    | .rest _ _ => false
    | _ => true
  match items with
  | _ :: .param _ pattern _ :: _ => pattern.bindingName?.map fun n => (n.text, [])
  | first :: [] =>
    if items.length != f.params.length then none
    else if (Text.slice text f.head.paramsSpan).head? == some '(' then
      some ("index", [.insert first.span.stop ", index"])
    else
      let param := String.ofList (Text.slice text first.span)
      some ("index", [.replace first.span ("(" ++ param ++ ", index)")])
  | _ => none

/-- The draft that gives the element of a callback its key. -/
def Arrow.key? (f : Arrow) (text : List Char) : Option Draft := do
  let e ← f.returned?
  if e.has "key" || e.hasSpread then none
  else
    let (index, edits) ← f.index? text
    let key := "key=\x7b" ++ index ++ "\x7d"
    return .change (edits ++ [e.addAttribute key]) .keyAdded
      ("added " ++ key ++ " to an element rendered by .map()") e.opening.start

def listKeys : Repair where
  name := "list-keys"
  draft src := .join ((mapCallbacks src.program).filterMap (·.key? src.text))

/-! ### Attributes -/

/-- Tags with the attribute that each must have and its text. -/
def requiredAttributes : List (String × String × String) :=
  [("img", "alt", "alt=\"\""), ("button", "type", "type=\"button\"")]

def Element.required (e : Element) : Draft :=
  .join (requiredAttributes.filterMap fun (tag, key, text) =>
    if e.name.simple? == some tag && !e.has key && !e.hasSpread then
      some (.change [e.addAttribute text] .attributeAdded
        ("added " ++ text ++ " to <" ++ tag ++ ">") e.opening.start)
    else none)

def intrinsicAttributes : Repair where
  name := "intrinsic-attributes"
  draft src := .join ((elements src.program).map Element.required)

end SourceRepair.Repair
