import SourceRepair.Script.Grammar.Functions

/-!
# JSX

Elements and fragments between tags. Between tags, text is read as it stands.
-/

namespace SourceRepair.Script

open Reader

/-- Moves past a token that ends a tag or a brace, to a child of the element around it. -/
def expectBeforeChild (k : Kind) : Reader Unit := do
  if ← at? k then advanceBy nextJsxChild else fail

/-- One part of a JSX name, dashes included. -/
def jsxIdentifier : Reader Name := do
  let t ← token
  if !t.isName then fail
  let t := t.asJsxName
  reread t 0
  advance
  return ⟨t.text, t.span⟩

/-- The name of a tag. -/
def jsxElementName : Reader JsxName := do
  let first ← start
  let head ← jsxIdentifier
  if ← at? .colon then
    bump
    let tail ← jsxIdentifier
    return .namespaced head tail (← spanFrom first)
  if ← at? .dot then
    let path ← loop [head] fun path => do
      if ← eat .dot then
        let n ← jsxIdentifier
        return .inl (n :: path)
      return .inr path.reverse
    return .member path (← spanFrom first)
  if head.text == "this" then return .this head.span
  let dashed := head.text.toList.contains '-'
  match head.text.toList with
  | c :: _ => if dashed || ('a' ≤ c && c ≤ 'z') then return .intrinsic head else return .component head
  | [] => return .component head

/-- Two tags have the same name. -/
def JsxName.same : JsxName → JsxName → Bool
  | .intrinsic a, .intrinsic b => a.text == b.text
  | .component a, .component b => a.text == b.text
  | .this _, .this _ => true
  | .namespaced a b _, .namespaced c d _ => a.text == c.text && b.text == d.text
  | .member p _, .member q _ => p.map (·.text) == q.map (·.text)
  | _, _ => false

/-- The value of an attribute. -/
def jsxValue (g : Grammar) : Reader Tree := do
  let t ← token
  match t.kind with
  | .string => bump; return .string t.text t.span
  | .lbrace =>
    bump
    if ← at? .rbrace then
      bump
      return .jsxContainer none (← spanFrom t.span.start)
    let e ← g.fullExpression
    expect .rbrace
    return .jsxContainer (some e) (← spanFrom t.span.start)
  | .lt => g.tree (.markup false)
  | _ => fail

/-- One attribute of a tag. -/
def jsxAttribute (g : Grammar) : Reader Tree := do
  let first ← start
  if ← eat .lbrace then
    expect .ellipsis
    let e ← g.fullExpression
    expect .rbrace
    return .spread e (← spanFrom first)
  let head ← jsxIdentifier
  let name ←
    if ← eat .colon then do
      let _ ← jsxIdentifier
      pure none
    else pure (some head.text)
  if ← at? .assign then
    let d ← dialect
    advanceBy (nextJsxValue (d.goal == .script))
    let value ← jsxValue g
    return .jsxAttribute name (some value) (← spanFrom first)
  return .jsxAttribute name none (← spanFrom first)

/-- The children of an element, up to the `<` of its closing tag. -/
def jsxChildren (g : Grammar) : Reader (List Tree) :=
  loop [] fun found => do
    let t ← token
    match t.kind with
    | .lt =>
      if (← peek).kind == .slash then return .inr found.reverse
      let e ← g.tree (.markup true)
      return .inl (e :: found)
    | .lbrace =>
      bump
      if ← at? .ellipsis then
        bump
        let e ← g.fullExpression
        expectBeforeChild .rbrace
        return .inl (.spread e (← spanFrom t.span.start) :: found)
      if ← at? .rbrace then
        expectBeforeChild .rbrace
        return .inl (.jsxContainer none (← spanFrom t.span.start) :: found)
      let e ← g.fullExpression
      expectBeforeChild .rbrace
      return .inl (.jsxContainer (some e) (← spanFrom t.span.start) :: found)
    | .jsxText =>
      advanceBy nextJsxChild
      return .inl (.jsxText t.text t.span :: found)
    | _ => fail

/-- The `>` at the end of a tag, after which a child or an ordinary token follows. -/
def closeTag (childFollows : Bool) : Reader Unit :=
  if childFollows then expectBeforeChild .gt else expect .gt

/-- An element or fragment whose `<` is the current token. `inside` says that it is a child of
another one. -/
def markupRule (g : Grammar) (inside : Bool) : Reader Expr := do
  let first ← start
  expect .lt
  if ← at? .gt then
    expectBeforeChild .gt
    let children ← jsxChildren g
    expect .lt
    expect .slash
    if !(← at? .gt) then
      let _ ← jsxElementName
      fault
    closeTag inside
    return .jsxFragment children (← spanFrom first)
  let name ← jsxElementName
  if ← isTypescript then typeArgumentsHere g
  let attributes ← manyUntil (do
    let k ← kind
    return k == .eof || k == .lt || k == .gt || k == .slash) (jsxAttribute g)
  if ← eat .slash then
    closeTag inside
    let span ← spanFrom first
    return .jsxElement name attributes span [] none span
  expectBeforeChild .gt
  let opening ← spanFrom first
  let children ← jsxChildren g
  let closingStart ← start
  expect .lt
  expect .slash
  if ← at? .gt then fault
  else
    let closingName ← jsxElementName
    faultIf !(name.same closingName)
  closeTag inside
  let closing ← spanFrom closingStart
  return .jsxElement name attributes opening children (some closing) (← spanFrom first)

end SourceRepair.Script
