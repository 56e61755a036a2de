import SourceRepair.Repair.Basic
import SourceRepair.Script.Shape
import SourceRepair.Script.Walk

/-!
# Effects that leave something behind

An effect that registers listeners, timers or subscriptions and returns nothing gets a function that
takes each of them back.
-/

namespace SourceRepair.Repair

open Script (Tree Program Expr Stmt)

/-- The calls of a program that run an effect. -/
def effectCalls (p : Program) : List Expr :=
  p.walk.filterMap fun v =>
    match v.node with
    | .tree .expression (.call callee args optional span) =>
      let call := Tree.call callee args optional span
      if call.isEffectHook then some call else none
    | _ => none

/-- The statements of the callback of an effect, if it has a block. -/
def effectBody? : Expr → Option (List Stmt)
  | .call _ args _ _ =>
    match (Tree.argument? args 0).map Tree.stripParens with
    | some (.arrow _ _ (.body _ statements _)) => some statements
    | some (.function _ _ (some (.body _ statements _))) => some statements
    | _ => none
  | _ => none

/-- How an effect takes back what it registered, or why it cannot. -/
inductive Teardown where
  | undo (call : String)
  | impossible (warning : String)
deriving DecidableEq, Repr, Inhabited

def isFunctionLiteral : Expr → Bool
  | .arrow _ _ _ | .function _ _ _ => true
  | _ => false

/-- The call that removes a listener that a call adds. -/
def listenerTeardown? (text : List Char) : Expr → Option Teardown
  | .call callee args _ span =>
    match callee.stripParens with
    | .member target property _ _ =>
      if property.text != "addEventListener" || args.length < 2 then none
      else
        match Tree.argument? args 1 with
        | some handler =>
          if isFunctionLiteral handler.stripParens then
            some (.impossible ("inline listener \x60" ++ String.ofList (Text.slice text span) ++
              "\x60 cannot be removed; move the handler into a named function"))
          else
            let list := args.map fun a => String.ofList (Text.slice text a.span)
            some (.undo (String.ofList (Text.slice text target.span) ++ ".removeEventListener(" ++
              String.intercalate ", " list ++ ")"))
        | none => none
    | _ => none
  | _ => none

/-- The objects that hold the global functions. -/
def isGlobalObject (e : Expr) : Bool :=
  e.identifier? == some "window" || e.identifier? == some "globalThis"

/-- The global function that a callee names. -/
def globalFunction? : Expr → Option String
  | .identifier text _ => some text
  | .member target property _ _ => if isGlobalObject target then some property.text else none
  | _ => none

/-- The call that takes back the timer or the subscription that a variable holds. -/
def handleTeardown? : Tree → Option Teardown
  | .declarator pattern (some init) _ => do
    let n ← pattern.bindingName?
    match init.stripParens with
    | .call callee _ _ _ =>
      let callee := callee.stripParens
      match globalFunction? callee with
      | some "setInterval" => some (.undo ("clearInterval(" ++ n.text ++ ")"))
      | some "setTimeout" => some (.undo ("clearTimeout(" ++ n.text ++ ")"))
      | _ =>
        match callee with
        | .member _ property _ _ =>
          if property.text == "subscribe" then some (.undo (n.text ++ ".unsubscribe()")) else none
        | _ => none
    | _ => none
  | _ => none

/-- What a statement of an effect calls for. -/
def statementTeardown? (text : List Char) : Stmt → Option Teardown
  | .expression e _ => listenerTeardown? text e.stripParens
  | .declaration _ [d] _ => handleTeardown? d
  | _ => none

def isReturn : Stmt → Bool
  | .returns _ _ => true
  | _ => false

/-- The function that undoes everything, behind the last statement of an effect. -/
def cleanupText (indent : String) (calls : List String) : String :=
  "\n" ++ indent ++ "return () => \x7b\n" ++
    String.join (calls.map fun call => indent ++ "  " ++ call ++ ";\n") ++ indent ++ "\x7d;"

/-- The draft for one effect. -/
def effectDraft (text : List Char) (statements : List Stmt) : Draft :=
  match statements.getLast? with
  | none => {}
  | some last =>
    if statements.any isReturn then {}
    else
      let found := statements.filterMap fun s =>
        (statementTeardown? text s).map (·, s.span.start)
      let warnings := found.filterMap fun
        | (.impossible w, _) => some w
        | _ => none
      let undos := found.filterMap fun
        | (.undo call, offset) => some (call, offset)
        | _ => none
      if undos.isEmpty then ⟨[], [], warnings⟩
      else
        let indent := String.ofList (Text.lineIndent text last.span.start)
        ⟨[.insert last.span.stop (cleanupText indent (undos.map Prod.fst))],
          undos.map fun (call, offset) =>
            (.cleanupAdded, "added \x60" ++ call ++ "\x60 to the effect cleanup", offset),
          warnings⟩

def effectCleanup : Repair where
  name := "effect-cleanup"
  draft src :=
    .join (((effectCalls src.program).filterMap effectBody?).map (effectDraft src.text))

end SourceRepair.Repair
