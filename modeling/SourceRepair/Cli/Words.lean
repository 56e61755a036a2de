/-!
# Words of a command line

Words are switches, values of switches, or stand for themselves. A switch that takes a value has it
attached or in the next word. Switches may be given once each, and what was given is settled when the
next switch or word is seen, so of two faults the earlier one is reported.
-/

namespace SourceRepair.Cli

/-- Why words are not understood. A call for help is answered the same way. -/
inductive Fault where
  | help
  | version
  /-- There are no words at all. -/
  | nothingGiven
  | missingCommand
  | unknownCommand
  | unknownWord
  | missingValue
  | badValue
  /-- A value is attached to a switch that takes none. -/
  | unexpectedValue
  | repeated
  | missingWord
deriving DecidableEq, Repr, Inhabited

/-- What a switch does. -/
inductive SwitchKind where
  | flag
  /-- The switch takes a value, for which the fault is looked up. -/
  | value (faultOf : String → Option Fault)
  /-- The switch ends the reading. -/
  | stop (fault : Fault)

structure Switch where
  name : String
  short : Option Char := none
  kind : SwitchKind

/-- How many words a command takes that are no switches. -/
inductive Arity where
  | none
  | one
  | many
deriving DecidableEq, Repr, Inhabited

/-- What may stand at one level of the command line. -/
structure Level where
  switches : List Switch
  arity : Arity := .none
  /-- The words that start a level of their own. -/
  commands : List String := []

/-- A fault of a value that must not be empty. -/
def emptyFault (value : String) : Option Fault := if value.isEmpty then some .missingValue else none

/-- What was seen last and is not settled. -/
inductive Pending where
  | nothing
  | switch (s : Switch) (faultOf : String → Option Fault) (value : Option String)
  | words (ws : List String)

/-- What was read of a level. -/
structure Reading where
  /-- The switches that are settled, with their values. -/
  given : List (String × Option String) := []
  /-- The words that are settled. -/
  words : List String := []
  pending : Pending := .nothing

namespace Reading

/-- Adds a switch that must not have been given before. -/
def give (r : Reading) (name : String) (value : Option String) : Except Fault Reading :=
  if r.given.any (·.1 == name) then .error .repeated
  else .ok { r with given := r.given ++ [(name, value)] }

/-- Settles a switch with its value. -/
def giveValue (r : Reading) (s : Switch) (faultOf : String → Option Fault) (value : String) :
    Except Fault Reading := do
  let r ← r.give s.name (some value)
  match faultOf value with
  | some fault => .error fault
  | none => return r

/-- Settles what was seen last. -/
def settle (r : Reading) : Except Fault Reading :=
  let settled := { r with pending := .nothing }
  match r.pending with
  | .nothing => .ok r
  | .switch s faultOf (some value) => settled.giveValue s faultOf value
  | .switch _ _ none => .error .missingValue
  | .words ws =>
    match ws.findSome? emptyFault with
    | some fault => .error fault
    | none => .ok { settled with words := r.words ++ ws }

/-- A switch still waits for its value. -/
def awaits (r : Reading) : Bool :=
  match r.pending with
  | .switch _ _ none => true
  | _ => false

/-- Gives its value to the switch that waits for one. -/
def supply (r : Reading) (value : String) : Reading :=
  match r.pending with
  | .switch s faultOf _ => { r with pending := .switch s faultOf (some value) }
  | _ => r

/-- A switch without a value attached. -/
def bare (r : Reading) (s : Switch) : Except Fault Reading := do
  let r ← r.settle
  match s.kind with
  | .flag => r.give s.name none
  | .stop fault => .error fault
  | .value faultOf => return { r with pending := .switch s faultOf none }

/-- A switch with a value attached. -/
def attached (r : Reading) (s : Switch) (value : String) : Except Fault Reading := do
  match s.kind with
  | .value faultOf => (← r.settle).giveValue s faultOf value
  | _ => .error .unexpectedValue

/-- A word with two dashes: a name, perhaps with a value behind an equals sign. -/
def long (l : Level) (r : Reading) (cs : List Char) : Except Fault Reading :=
  let name := String.ofList (cs.takeWhile (· != '='))
  match l.switches.find? (·.name == name), cs.dropWhile (· != '=') with
  | none, _ => .error .unknownWord
  | some s, [] => r.bare s
  | some s, _ :: value => r.attached s (String.ofList value)

/-- A word with one dash: letters of switches. The rest behind one that takes a value is its value. -/
def cluster (l : Level) (r : Reading) : List Char → Except Fault Reading
  | [] => .ok r
  | c :: rest =>
    match l.switches.find? (·.short == some c) with
    | none => .error .unknownWord
    | some s =>
      match s.kind, rest with
      | .value _, '=' :: value => r.attached s (String.ofList value)
      | .value _, _ :: _ => r.attached s (String.ofList rest)
      | _, _ => do (← r.bare s).cluster l rest

/-- The number of words so far. -/
def count (r : Reading) : Nat :=
  r.words.length + match r.pending with
    | .words ws => ws.length
    | _ => 0

/-- The level takes one more word. -/
def hasRoom (l : Level) (r : Reading) : Bool :=
  match l.arity with
  | .none => false
  | .one => r.count = 0
  | .many => true

/-- Why a word has no place. -/
def surplus (l : Level) (escaped : Bool) (w : String) : Fault :=
  if l.commands.isEmpty || (escaped && l.commands.contains w) then .unknownWord else .unknownCommand

/-- A word that is no switch. -/
def word (l : Level) (r : Reading) (escaped : Bool) (w : String) : Except Fault Reading :=
  if !r.hasRoom l then .error (surplus l escaped w)
  else
    match r.pending with
    | .words ws => .ok { r with pending := .words (ws ++ [w]) }
    | _ => do return { ← r.settle with pending := .words [w] }

/-- A word before which no two dashes stood alone. -/
def plain (l : Level) (r : Reading) (w : String) : Except Fault Reading :=
  match w.toList with
  | '-' :: '-' :: cs => r.long l cs
  | '-' :: c :: cs => r.cluster l (c :: cs)
  | _ => if r.awaits then .ok (r.supply w) else r.word l false w

/-- Reads words up to a command of the level, which is returned with the words behind it. Two dashes
that stand alone turn all that follows into plain words. -/
def read (l : Level) : (escaped : Bool) → Reading → List String →
    Except Fault (Reading × Option (String × List String))
  | _, r, [] => .ok (r, none)
  | true, r, w :: rest => do read l true (← r.word l true w) rest
  | false, r, w :: rest =>
    if !r.awaits && l.commands.contains w then .ok (r, some (w, rest))
    else if w == "--" then read l true r rest
    else do read l false (← r.plain l w) rest

/-- The flag was given. -/
def has (r : Reading) (name : String) : Bool := r.given.any (·.1 == name)

/-- The value of a switch. -/
def value? (r : Reading) (name : String) : Option String := (r.given.lookup name).join

end Reading

end SourceRepair.Cli
