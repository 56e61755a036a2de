import SourceRepair.Repair.Basic
import SourceRepair.Script.Shape
import SourceRepair.Script.Walk

/-!
# The client directive

A file that uses hooks or event handlers runs in the browser and says so in its first statement, and
only there.
-/

namespace SourceRepair.Repair

open Script (Tree Program Stmt)

def clientDirectiveText : String := "use client"

/-- The hooks that run in the browser. -/
def clientHooks : List String :=
  ["useState", "useEffect", "useLayoutEffect", "useReducer", "useRef", "useCallback", "useMemo",
    "useContext", "useTransition", "useDeferredValue", "useImperativeHandle",
    "useSyncExternalStore", "useRouter", "usePathname", "useSearchParams"]

/-- A hook that runs in the browser, by its own name or as a member of `React`. -/
def isClientHook (name : String) : Bool :=
  let cs := name.toList
  let lead := "React.".toList
  clientHooks.contains (if lead.isPrefixOf cs then String.ofList (cs.drop lead.length) else name)

/-- The name of an attribute for an event: `on` and a capital letter. -/
def isEventAttribute (name : String) : Bool :=
  match name.toList with
  | 'o' :: 'n' :: c :: _ => 'A' ≤ c && c ≤ 'Z'
  | _ => false

/-- The program calls a hook or handles an event. -/
def usesClientFeatures (p : Program) : Bool :=
  p.walk.any fun v =>
    match v.node with
    | .tree .expression (.call callee _ _ _) => callee.dottedName?.any isClientHook
    | .tree .jsxElement (.jsxElement _ attributes _ _ _ _) =>
      (attributes.filterMap Tree.attributeName?).any isEventAttribute
    | _ => false

/-- A statement that is only the text of the directive. -/
def isDirectiveStatement : Stmt → Bool
  | .expression (.string value _) _ => value == clientDirectiveText
  | _ => false

/-- The directive is the first of the program. -/
def startsWithDirective (p : Program) : Bool :=
  p.directives.head?.any (·.text == clientDirectiveText)

/-- The copies of the directive that do not stand first. -/
def misplacedDirectives (p : Program) : List Span :=
  let later := if startsWithDirective p then p.directives.drop 1 else p.directives
  (later.filter (·.text == clientDirectiveText)).map (·.span) ++
    (p.body.filter isDirectiveStatement).map (·.span)

def clientDirective : Repair where
  name := "client-directive"
  draft src :=
    let p := src.program
    if src.file.isTest || src.file.inPagesDirectory || p.hasDirective "use server" ||
        !usesClientFeatures p then {}
    else
      let misplaced := misplacedDirectives p
      let offset := p.hashbangEnd src.text
      let placed : Draft :=
        if startsWithDirective p then {}
        else
          .change [.insert offset ("\x27" ++ clientDirectiveText ++ "\x27;\n")] .directivePlaced
            "added \x27use client\x27 as the first statement" offset
      let removals := misplaced.map fun span => Edit.remove (Text.removalRange src.text span)
      let notes := misplaced.map fun span =>
        (ChangeKind.directivePlaced, "removed a misplaced or duplicate \x27use client\x27", span.start)
      ⟨removals, [], []⟩ ++ placed ++ ⟨[], notes, []⟩

end SourceRepair.Repair
