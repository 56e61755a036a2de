import SourceRepair.Pattern.Syntax

/-!
# Matching

A match is looked for from left to right, and at each place in the order of the pattern: the first
alternative before the second, and more repetitions before fewer, or fewer before more. The first
way that leads to the end of the pattern wins.
-/

namespace SourceRepair.Pattern

/-- A place in a text: the number of characters before it, the one right before it, and the rest. -/
structure Place where
  index : Nat
  before : Option Char
  rest : List Char
deriving DecidableEq, Repr, Inhabited

/-- The start of a text. -/
def Place.start (text : List Char) : Place := ⟨0, none, text⟩

/-- The place after the next character. -/
def Place.next? (p : Place) : Option Place :=
  match p.rest with
  | [] => none
  | c :: rest => some ⟨p.index + 1, some c, rest⟩

/-- The text between two places. -/
def Place.until (a b : Place) : List Char := a.rest.take (b.index - a.index)

/-- The condition holds at the place. -/
def Look.holds (p : Place) : Look → Bool
  | .textStart => p.before.isNone
  | .textEnd => p.rest.isEmpty
  | .lineStart => p.before.all (· == '\n')
  | .lineEnd => p.rest.head?.all (· == '\n')
  | .wordBoundary => p.before.any Text.isWordChar != p.rest.head?.any Text.isWordChar
  | .noWordBoundary => p.before.any Text.isWordChar == p.rest.head?.any Text.isWordChar
  | .wordStart => !p.before.any Text.isWordChar && p.rest.head?.any Text.isWordChar
  | .wordEnd => p.before.any Text.isWordChar && !p.rest.head?.any Text.isWordChar

/-- The texts that groups have taken, the latest first. -/
abbrev Captures := List (Nat × List Char)

/-- How far a match has come. -/
structure Progress where
  place : Place
  captures : Captures
deriving DecidableEq, Repr, Inhabited

/-- The rest of a match. -/
abbrev Next := Progress → Option Progress

/-- One way first, and the other if it leads nowhere. -/
def either (first second : Unit → Option Progress) : Option Progress :=
  match first () with
  | some p => some p
  | none => second ()

/-- Repeats a step at least once. The first round may take nothing and then ends the repetition;
a later round that takes nothing leads nowhere. -/
def again (step : Progress → Next → Option Progress) (greedy : Bool) (next : Next) :
    Nat → Bool → Progress → Option Progress
  | 0, _, _ => none
  | fuel + 1, first, p =>
    step p fun q =>
      if q.place.index == p.place.index then (if first then next q else none)
      else if greedy then either (fun _ => again step greedy next fuel false q) (fun _ => next q)
      else either (fun _ => next q) (fun _ => again step greedy next fuel false q)

/-- Repeats a step any number of times. -/
def anyTimes (step : Progress → Next → Option Progress) (greedy : Bool) (p : Progress)
    (next : Next) : Option Progress :=
  let more := fun (_ : Unit) => again step greedy next (p.place.rest.length + 1) true p
  if greedy then either more (fun _ => next p) else either (fun _ => next p) more

/-- Repeats a step a fixed number of times. -/
def times (step : Progress → Next → Option Progress) : Nat → Progress → Next → Option Progress
  | 0, p, next => next p
  | n + 1, p, next => step p fun q => times step n q next

/-- Repeats a step at most a number of times. -/
def atMost (step : Progress → Next → Option Progress) (greedy : Bool) :
    Nat → Progress → Next → Option Progress
  | 0, p, next => next p
  | n + 1, p, next =>
    let more := fun (_ : Unit) => step p fun q => atMost step greedy n q next
    if greedy then either more (fun _ => next p) else either (fun _ => next p) more

/-- Repeats a step within bounds. -/
def repeated (step : Progress → Next → Option Progress) (least : Nat) (most : Option Nat)
    (greedy : Bool) (p : Progress) (next : Next) : Option Progress :=
  match most, least with
  | some most, least => times step least p fun q => atMost step greedy (most - least) q next
  | none, 0 => anyTimes step greedy p next
  | none, n + 1 =>
    times step n p fun q => again step greedy next (q.place.rest.length + 1) true q

namespace Expr

/-- Matches the pattern at a place and goes on with the rest of the match. -/
def run : Expr → Progress → Next → Option Progress
  | nothing, p, next => next p
  | char set, p, next =>
    match p.place.rest with
    | [] => none
    | c :: rest =>
      if set.has c then next ⟨⟨p.place.index + 1, some c, rest⟩, p.captures⟩ else none
  | look l, p, next => if l.holds p.place then next p else none
  | seq a b, p, next => a.run p fun q => b.run q next
  | alt a b, p, next => either (fun _ => a.run p next) (fun _ => b.run p next)
  | group i a, p, next =>
    a.run p fun q => next ⟨q.place, (i, p.place.until q.place) :: q.captures⟩
  | .repeat a least most greedy, p, next =>
    repeated (fun q k => a.run q k) least most greedy p next

end Expr

/-- A match: where it starts and ends, its text, and what its groups took. -/
structure Match where
  start : Place
  stop : Place
  captures : Captures
deriving DecidableEq, Repr, Inhabited

namespace Match

def text (m : Match) : List Char := m.start.until m.stop

/-- What a group took; group 0 is the whole match. -/
def group? (m : Match) (i : Nat) : Option (List Char) :=
  if i == 0 then some m.text else m.captures.lookup i

/-- What a group took, or nothing. -/
def group (m : Match) (i : Nat) : List Char := (m.group? i).getD []

end Match

namespace Regex

/-- The match that starts at a place. -/
def matchAt? (r : Regex) (p : Place) : Option Match :=
  (r.expr.run ⟨p, []⟩ some).map fun q => ⟨p, q.place, q.captures⟩

/-- The first match at one of the next `fuel` places. -/
def findFrom? (r : Regex) : Nat → Place → Option Match
  | 0, _ => none
  | fuel + 1, p =>
    match r.matchAt? p with
    | some m => some m
    | none => p.next?.bind (findFrom? r fuel)

/-- The first match at or after a place. -/
def find? (r : Regex) (p : Place) : Option Match := r.findFrom? (p.rest.length + 1) p

/-- The matches from a place on. An empty match right behind the match before it does not count. -/
def matchesFrom (r : Regex) : Nat → Option Nat → Place → List Match
  | 0, _, _ => []
  | fuel + 1, last, p =>
    match r.find? p with
    | none => []
    | some m =>
      if m.start.index == m.stop.index && last == some m.stop.index then
        match p.next? with
        | none => []
        | some q =>
          match r.find? q with
          | none => []
          | some m => m :: matchesFrom r fuel (some m.stop.index) m.stop
      else m :: matchesFrom r fuel (some m.stop.index) m.stop

/-- All matches in a text, from left to right. -/
def allMatches (r : Regex) (text : List Char) : List Match :=
  r.matchesFrom (text.length + 2) none (.start text)

/-- The first match in a text. -/
def first? (r : Regex) (text : List Char) : Option Match := r.find? (.start text)

/-- The pattern matches somewhere in a text. -/
def isMatch (r : Regex) (text : List Char) : Bool := (r.first? text).isSome

end Regex

end SourceRepair.Pattern
