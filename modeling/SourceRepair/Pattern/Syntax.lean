import SourceRepair.Pattern.CharClass

/-!
# Patterns

Regular expressions with groups, lazy repetition and looks at the text around a place.
-/

namespace SourceRepair.Pattern

/-- A condition on the characters around a place. -/
inductive Look where
  | textStart | textEnd | lineStart | lineEnd | wordBoundary | noWordBoundary | wordStart | wordEnd
deriving DecidableEq, Repr, Inhabited

inductive Expr where
  /-- Matches without taking anything. -/
  | nothing
  | char (set : CharClass)
  | look (l : Look)
  | seq (a b : Expr)
  /-- The second is tried where the first does not lead to a match. -/
  | alt (a b : Expr)
  | group (index : Nat) (inner : Expr)
  /-- At least `least` times and at most as often as `most` says; as often as possible when
  `greedy`. -/
  | repeat (inner : Expr) (least : Nat) (most : Option Nat) (greedy : Bool)
deriving DecidableEq, Inhabited

/-- About how many bytes an expression takes when each repetition is written out. -/
def Expr.weight : Expr → Nat
  | nothing => 0
  | char set => 24 + set.weight
  | look _ => 32
  | seq a b => a.weight + b.weight
  | alt a b => 40 + a.weight + b.weight
  | group _ a => 64 + a.weight
  | .repeat a least none _ => 40 + max 1 least * a.weight
  | .repeat a least (some most) _ => most * a.weight + (most - least) * 40

/-- The most bytes that an expression may take. -/
def weightLimit : Nat := 10 * 1024 * 1024

/-- A regular expression with the names of its groups. -/
structure Regex where
  expr : Expr
  names : List (String × Nat)
deriving DecidableEq, Inhabited

/-- The pattern that matches nowhere. -/
def Regex.never : Regex := ⟨.char .empty, []⟩

end SourceRepair.Pattern
