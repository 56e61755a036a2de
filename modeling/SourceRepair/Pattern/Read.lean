import SourceRepair.Pattern.Syntax

/-!
# Reading patterns

The text of a pattern is read into an expression. Looking ahead or behind, referring back to a
group, and repetitions that take too much room are refused.
-/

namespace SourceRepair.Pattern

/-- The flags in force at a place of a pattern. -/
structure Flags where
  caseless : Bool := false
  /-- `^` and `$` match at lines. -/
  multiLine : Bool := false
  /-- The dot matches a newline too. -/
  dotAll : Bool := false
  swapGreed : Bool := false
  /-- Classes are those of all characters. -/
  unicode : Bool := true
  /-- White space and comments in the pattern say nothing. -/
  verbose : Bool := false
deriving DecidableEq, Repr, Inhabited

/-- What is left of a pattern, the flags in force, and the groups so far. -/
structure ReadState where
  rest : List Char
  flags : Flags
  groups : Nat
  names : List (String × Nat)
deriving Inhabited

/-- A reader of a part of a pattern. -/
abbrev ReadM := StateT ReadState Option

namespace ReadM

/-- Refuses the pattern. -/
def refuse {α : Type} : ReadM α := fun _ => none

def peek? : ReadM (Option Char) := return (← get).rest.head?

/-- The rest of the pattern. -/
def remaining : ReadM (List Char) := return (← get).rest

def flags : ReadM Flags := return (← get).flags

/-- Leaves out some characters. -/
def skip (n : Nat) : ReadM Unit := modify fun s => { s with rest := s.rest.drop n }

/-- The next character. -/
def next : ReadM Char := do
  match (← get).rest with
  | [] => refuse
  | c :: rest => modify fun s => { s with rest }; return c

/-- Takes a character if it is next. -/
def take? (c : Char) : ReadM Bool := do
  if (← peek?) == some c then skip 1; return true else return false

/-- Takes a text if it is next. -/
def takeText? (s : String) : ReadM Bool := do
  if s.toList.isPrefixOf (← remaining) then skip s.length; return true else return false

end ReadM

open ReadM

/-- Leaves out white space and comments. -/
def dropComments : Bool → List Char → List Char
  | _, [] => []
  | true, c :: cs => dropComments (c != '\n') cs
  | false, c :: cs =>
    if Text.isSpace c then dropComments false cs
    else if c == '#' then dropComments true cs
    else c :: cs

/-- Where the pattern is verbose, leaves out white space and comments. -/
def skipSpace : ReadM Unit := do
  if (← flags).verbose then modify fun s => { s with rest := dropComments false s.rest }

/-! ### Characters -/

def hexDigit? (c : Char) : Option Nat :=
  if '0' ≤ c && c ≤ '9' then some (c.toNat - 48)
  else if 'a' ≤ c && c ≤ 'f' then some (c.toNat - 87)
  else if 'A' ≤ c && c ≤ 'F' then some (c.toNat - 55)
  else none

/-- The character of a hexadecimal number. -/
def hexChar? (cs : List Char) : Option Char := do
  if cs.isEmpty then none
  else
    let n ← cs.foldlM (fun n c => (hexDigit? c).map (n * 16 + ·)) 0
    if n.isValidChar then some (Char.ofNat n) else none

/-- A hexadecimal number in braces or with a fixed number of digits. -/
def hexEscape (digits : Nat) : ReadM Char := do
  let cs ← remaining
  match cs with
  | '\x7b' :: cs =>
    let number := cs.takeWhile (· != '\x7d')
    if number.length == cs.length then refuse
    else
      skip (number.length + 2)
      match hexChar? number with
      | some c => return c
      | none => refuse
  | cs =>
    if cs.length < digits then refuse
    else
      skip digits
      match hexChar? (cs.take digits) with
      | some c => return c
      | none => refuse

/-- What stands behind a backslash. -/
inductive Escaped where
  | char (c : Char)
  | set (s : CharClass)
  | look (l : Look)
deriving Inhabited

/-- Characters with a meaning of their own. -/
def metaChars : List Char := "\\.+*?()|[]\x7b\x7d^$#&-~".toList

/-- The character that may stand for itself behind a backslash. -/
def isEscapable (c : Char) : Bool :=
  metaChars.contains c || (c.toNat < 128 && !c.isAlphanum && c != '<' && c != '>')

/-- The set of a letter for digits, spaces and word characters. -/
def letterClass (unicode : Bool) (c : Char) : CharClass :=
  match c.toLower, unicode with
  | 'd', true => .digit
  | 'd', false => .asciiDigit
  | 's', true => .space
  | 's', false => .asciiSpace
  | _, true => .word
  | _, false => .asciiWord

/-- A property behind `\p` or `\P`. -/
def propertyEscape (negative : Bool) : ReadM CharClass := do
  let cs ← remaining
  let (name, taken) := match cs with
    | '\x7b' :: cs =>
      let name := cs.takeWhile (· != '\x7d')
      (name, if name.length == cs.length then cs.length + 2 else name.length + 2)
    | c :: _ => ([c], 1)
    | [] => ([], 1)
  if cs.length < taken then refuse
  else
    skip taken
    let (name, inverted) := match name with
      | '^' :: name => (name, true)
      | name => (name, false)
    match CharClass.ofProperty? name with
    | some set => return if negative != inverted then .complement set else set
    | none => refuse

/-- A look with a name in braces, or the plain word boundary. -/
def boundaryEscape : ReadM Look := do
  if ← takeText? "\x7bstart\x7d" then return .wordStart
  else if ← takeText? "\x7bend\x7d" then return .wordEnd
  else return .wordBoundary

/-- What stands behind a backslash. -/
def escape : ReadM Escaped := do
  let c ← next
  let f ← flags
  match c with
  | 'x' => return .char (← hexEscape 2)
  | 'u' => return .char (← hexEscape 4)
  | 'U' => return .char (← hexEscape 8)
  | 'p' => if f.unicode then return .set (← propertyEscape false) else refuse
  | 'P' => if f.unicode then return .set (← propertyEscape true) else refuse
  | 'd' | 's' | 'w' => return .set (letterClass f.unicode c)
  | 'D' | 'S' | 'W' => if f.unicode then return .set (.complement (letterClass true c)) else refuse
  | 'a' => return .char (Char.ofNat 7)
  | 'f' => return .char (Char.ofNat 12)
  | 't' => return .char '\t'
  | 'n' => return .char '\n'
  | 'r' => return .char '\r'
  | 'v' => return .char (Char.ofNat 11)
  | 'A' => return .look .textStart
  | 'z' => return .look .textEnd
  | 'b' => return .look (← boundaryEscape)
  | 'B' => return .look .noWordBoundary
  | '<' => return .look .wordStart
  | '>' => return .look .wordEnd
  | c => if isEscapable c then return .char c else refuse

/-! ### Classes in brackets -/

/-- A set as the flags make it. -/
def withCase (f : Flags) (set : CharClass) : CharClass := if f.caseless then .caseless set else set

/-- A set between colons, such as `[:alpha:]`, if the text is one. -/
def posixClass? (cs : List Char) : Option (CharClass × Nat) :=
  match cs with
  | '[' :: ':' :: cs =>
    let (inverted, cs) := match cs with
      | '^' :: cs => (true, cs)
      | cs => (false, cs)
    let name := cs.takeWhile (· != ':')
    match cs.drop name.length with
    | ':' :: ']' :: _ =>
      (CharClass.posix? (String.ofList name)).map fun set =>
        (if inverted then .complement set else set, name.length + if inverted then 5 else 4)
    | _ => none
  | _ => none

/-- One end of a range, or a set. -/
def classItem : ReadM Escaped := do
  match ← next with
  | '\\' =>
    match ← escape with
    | .look _ => refuse
    | e => return e
  | c => return .char c

/-- The dash before the next character makes a range. -/
def startsRange : ReadM Bool := do
  match ← remaining with
  | '-' :: ']' :: _ => return false
  | '-' :: '-' :: _ => return false
  | '-' :: _ :: _ => return true
  | _ => return false

/-- A character, a range or a set. -/
def classRange : ReadM CharClass := do
  let first ← classItem
  skipSpace
  if ← startsRange then
    skip 1
    skipSpace
    match first, ← classItem with
    | .char a, .char b => if a ≤ b then return .range a b else refuse
    | _, _ => refuse
  else
    match first with
    | .char c => return .single c
    | .set s => return s
    | .look _ => refuse

/-- How two sets in brackets are joined. -/
inductive SetOp where
  | inter | minus | difference
deriving DecidableEq, Repr, Inhabited

def SetOp.apply : SetOp → CharClass → CharClass → CharClass
  | inter => .inter
  | minus => .minus
  | difference => .difference

/-- The operation that is next. -/
def setOp? : ReadM (Option SetOp) := do
  if ← takeText? "&&" then return some .inter
  else if ← takeText? "--" then return some .minus
  else if ← takeText? "~~" then return some .difference
  else return none

/-- Joins the items so far with what stands before the last operation. -/
def closeItems (f : Flags) (pending : Option (CharClass × SetOp)) (items : CharClass) : CharClass :=
  match pending with
  | none => items
  | some (left, op) => op.apply (withCase f left) (withCase f items)

/-- The items of a class up to its closing bracket. -/
def classItems (nested : ReadM CharClass) :
    Nat → Option (CharClass × SetOp) → CharClass → ReadM CharClass
  | 0, _, _ => refuse
  | fuel + 1, pending, items => do
    skipSpace
    let f ← flags
    match ← remaining with
    | [] => refuse
    | ']' :: _ =>
      skip 1
      return closeItems f pending items
    | '[' :: cs =>
      match posixClass? ('[' :: cs) with
      | some (set, taken) =>
        skip taken
        classItems nested fuel pending (.union items set)
      | none =>
        skip 1
        classItems nested fuel pending (.union items (← nested))
    | _ =>
      match ← setOp? with
      | some op => classItems nested fuel (some (closeItems f pending items, op)) .empty
      | none => classItems nested fuel pending (.union items (← classRange))

/-- The dashes at the start of a class, which stand for themselves. -/
def leadingDashes : Nat → CharClass → ReadM CharClass
  | 0, items => return items
  | fuel + 1, items => do
    if ← take? '-' then
      skipSpace
      leadingDashes fuel (.union items (.single '-'))
    else return items

/-- A class after its opening bracket. -/
def bracketClass : Nat → ReadM CharClass
  | 0 => refuse
  | fuel + 1 => do
    skipSpace
    let inverted ← take? '^'
    skipSpace
    let size := (← remaining).length
    let dashes ← leadingDashes size .empty
    let first ← if dashes == .empty then take? ']' else pure false
    let start := if first then .union dashes (.single ']') else dashes
    let set ← classItems (bracketClass fuel) (size + 1) none start
    let folded := withCase (← flags) set
    if inverted && !(← flags).unicode then refuse
    return if inverted then .complement folded else folded

/-! ### Groups and repetition -/

/-- Sets or clears a flag. -/
def Flags.assign (f : Flags) (value : Bool) : Char → Option Flags
  | 'i' => some { f with caseless := value }
  | 'm' => some { f with multiLine := value }
  | 's' => some { f with dotAll := value }
  | 'U' => some { f with swapGreed := value }
  | 'u' => some { f with unicode := value }
  | 'x' => some { f with verbose := value }
  | _ => none

/-- The flags that a list of letters makes of others; after a dash they are cleared. Each letter
and the dash may stand once, and a dash must clear something. -/
def assignFlags : List Char → Bool → List Char → Flags → Option Flags
  | [], value, seen, f => if !value && seen.head? == some '-' then none else some f
  | '-' :: cs, value, seen, f => if value then assignFlags cs false ('-' :: seen) f else none
  | c :: cs, value, seen, f =>
    if seen.contains c then none
    else (f.assign value c).bind fun g => assignFlags cs value (c :: seen) g

/-- Names of groups start with a letter or an underscore. -/
def isGroupName : List Char → Bool
  | [] => false
  | c :: cs =>
    let letter := fun (x : Char) => (Text.category x).isLetter || x == '_'
    letter c && cs.all fun x => letter x || x == '.' || x == '[' || x == ']' ||
      Text.category x == .nd || Text.category x == .nl || Text.category x == .no

/-- A number in the bounds of a repetition. -/
def bound : ReadM (Option Nat) := do
  let cs ← remaining
  let blanks := cs.takeWhile Text.isSpace
  let digits := (cs.drop blanks.length).takeWhile Char.isDigit
  let after := ((cs.drop blanks.length).drop digits.length).takeWhile Text.isSpace
  skip (blanks.length + digits.length + after.length)
  let n := digits.foldl (fun n c => n * 10 + (c.toNat - 48)) 0
  if digits.isEmpty then return none
  else if n < UInt32.size then return some n
  else refuse

/-- The bounds of a repetition after the opening brace. -/
def bounds : ReadM (Nat × Option Nat) := do
  let some least ← bound | refuse
  let most ← if ← take? ',' then bound else pure (some least)
  if !(← take? '\x7d') then refuse
  match most with
  | some most => if least ≤ most then return (least, some most) else refuse
  | none => return (least, none)

/-- The bounds of the repetition that is next. -/
def repetition? : ReadM (Option (Nat × Option Nat)) := do
  skipSpace
  match ← peek? with
  | some '*' => skip 1; return some (0, none)
  | some '+' => skip 1; return some (1, none)
  | some '?' => skip 1; return some (0, some 1)
  | some '\x7b' => skip 1; return some (← bounds)
  | _ => return none

/-- An expression with the repetitions behind it. -/
def withRepetitions : Nat → Expr → ReadM Expr
  | 0, e => return e
  | fuel + 1, e => do
    match ← repetition? with
    | none => return e
    | some (least, most) =>
      let lazy ← take? '?'
      let greedy := (← flags).swapGreed == lazy
      withRepetitions fuel (.repeat e least most greedy)

/-- An expression for one of a set of characters. -/
def charExpr (f : Flags) (set : CharClass) : Expr := .char (withCase f set)

/-- What stands in a group after its head, with the flags as before behind it. -/
def groupBody (alternatives : ReadM Expr) : ReadM Expr := do
  let before ← flags
  let e ← alternatives
  if !(← take? ')') then refuse
  modify fun s => { s with flags := before }
  return e

/-- A group that takes what it matches. -/
def capturing (alternatives : ReadM Expr) (name : Option String) : ReadM Expr := do
  let index := (← get).groups + 1
  match name with
  | some n =>
    if ((← get).names.lookup n).isSome then refuse
    modify fun s => { s with names := s.names ++ [(n, index)] }
  | none => pure ()
  modify fun s => { s with groups := index }
  return .group index (← groupBody alternatives)

/-- The name of a group up to its closing bracket. -/
def groupName : ReadM String := do
  let cs ← remaining
  let name := cs.takeWhile (· != '>')
  if name.length == cs.length || !isGroupName name then refuse
  skip (name.length + 1)
  return String.ofList name

/-- What stands behind an opening parenthesis: an expression, or nothing but flags. -/
def groupExpr (alternatives : ReadM Expr) : ReadM (Option Expr) := do
  let cs ← remaining
  match cs with
  | '?' :: '=' :: _ | '?' :: '!' :: _ | '?' :: '<' :: '=' :: _ | '?' :: '<' :: '!' :: _ => refuse
  | '?' :: 'P' :: '<' :: _ =>
    skip 3
    return some (← capturing alternatives (some (← groupName)))
  | '?' :: '<' :: _ =>
    skip 2
    return some (← capturing alternatives (some (← groupName)))
  | '?' :: cs =>
    let letters := cs.takeWhile fun c => c != ':' && c != ')'
    skip (letters.length + 1)
    match assignFlags letters true [] (← flags), ← next with
    | some f, ':' =>
      let before ← flags
      modify fun s => { s with flags := f }
      let e ← groupBody alternatives
      modify fun s => { s with flags := before }
      return some e
    | some f, ')' =>
      if letters.isEmpty then refuse
      modify fun s => { s with flags := f }
      return none
    | _, _ => refuse
  | _ => return some (← capturing alternatives none)

/-- One item of a sequence: an expression, or nothing but flags. -/
def item (fuel : Nat) (alternatives : ReadM Expr) : ReadM (Option Expr) := do
  let c ← next
  let f ← flags
  match c with
  | '(' => groupExpr alternatives
  | '[' => return some (.char (← bracketClass fuel))
  | '.' =>
    if !f.unicode then refuse
    return some (.char (if f.dotAll then .any else .complement (.single '\n')))
  | '^' => return some (.look (if f.multiLine then .lineStart else .textStart))
  | '$' => return some (.look (if f.multiLine then .lineEnd else .textEnd))
  | '*' | '+' | '?' | '\x7b' => refuse
  | '\\' =>
    match ← escape with
    | .char c => return some (charExpr f (.single c))
    | .set s => return some (charExpr f s)
    | .look l => return some (.look l)
  | c => return some (charExpr f (.single c))

/-- Items up to the end of an alternative. -/
def items (fuel : Nat) (alternatives : ReadM Expr) : Nat → Expr → ReadM Expr
  | 0, _ => refuse
  | n + 1, done => do
    skipSpace
    match ← peek? with
    | none | some '|' | some ')' => return done
    | _ =>
      match ← item fuel alternatives with
      | some e => items fuel alternatives n (.seq done (← withRepetitions fuel e))
      | none =>
        if (← repetition?).isSome then refuse
        items fuel alternatives n done

/-- Alternatives up to the end of a group. -/
def alternativesFrom (one : ReadM Expr) : Nat → ReadM Expr
  | 0 => refuse
  | n + 1 => do
    let e ← one
    if ← take? '|' then return .alt e (← alternativesFrom one n) else return e

/-- All alternatives of a group, in which groups are nested fewer than `fuel` deep. -/
def readExpr : Nat → ReadM Expr
  | 0 => refuse
  | fuel + 1 =>
    alternativesFrom (items (fuel + 1) (readExpr fuel) (fuel + 1) .nothing) (fuel + 1)

/-- The regular expression of a text. One that would take too much room is refused. -/
def Regex.read? (text : String) : Option Regex :=
  let cs := text.toList
  match readExpr (cs.length + 1) ⟨cs, {}, 0, []⟩ with
  | some (e, s) =>
    if s.rest.isEmpty && e.weight ≤ weightLimit then some ⟨e, s.names⟩ else none
  | none => none

/-- The regular expression of a text that is known to be well formed. -/
def Regex.of (text : String) : Regex := (Regex.read? text).getD .never

end SourceRepair.Pattern
