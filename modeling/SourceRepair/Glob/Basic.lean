import SourceRepair.Text.Offset

/-!
# Glob patterns

A star stands for any text without a slash, two stars for any number of whole directories, a question
mark for one character, and brackets for one of a set of characters.
-/

namespace SourceRepair

/-- One item between brackets. -/
inductive GlobRange where
  | single (c : Char)
  | between (low high : Char)
deriving DecidableEq, Repr, Inhabited

inductive GlobToken where
  | char (c : Char)
  | anyChar
  | oneOf (ranges : List GlobRange)
  | noneOf (ranges : List GlobRange)
  /-- Any text without a slash. -/
  | sequence
  /-- Any number of directories with their slashes. -/
  | directories
deriving DecidableEq, Repr, Inhabited

structure Glob where
  source : String
  tokens : List GlobToken
deriving DecidableEq, Repr, Inhabited

/-- Why a text is no glob pattern. -/
inductive GlobFault where
  /-- More than two stars stand together. -/
  | wildcards (position : Nat)
  /-- Two stars stand beside something else than a slash. -/
  | partialDirectories (position : Nat)
  /-- A bracket has no end. -/
  | range (position : Nat)
deriving DecidableEq, Repr, Inhabited

/-- Where the text stops being a pattern. -/
def GlobFault.position : GlobFault → Nat
  | wildcards n | partialDirectories n | range n => n

def GlobFault.reason : GlobFault → String
  | wildcards _ => "wildcards are either regular \x60*\x60 or recursive \x60**\x60"
  | partialDirectories _ => "recursive wildcards must form a single path component"
  | range _ => "invalid range pattern"

def GlobFault.message (f : GlobFault) : String :=
  "Pattern syntax error near position " ++ toString f.position ++ ": " ++ f.reason

namespace Glob

/-! ### Reading -/

/-- The items between brackets. -/
def readRanges : List Char → List GlobRange
  | low :: '-' :: high :: rest => .between low high :: readRanges rest
  | c :: rest => .single c :: readRanges rest
  | [] => []

/-- Cuts before the first closing bracket that is not the first character. -/
def untilBracket? (cs : List Char) : Option (List Char × List Char) :=
  match cs with
  | [] => none
  | first :: rest =>
    let inside := rest.takeWhile (· != ']')
    if inside.length < rest.length then some (first :: inside, rest.drop (inside.length + 1)) else none

/-- The set after an opening bracket, and what follows it. -/
def readSet? : List Char → Option (GlobToken × List Char)
  | '!' :: rest => (untilBracket? rest).map fun (inside, after) => (.noneOf (readRanges inside), after)
  | cs => (untilBracket? cs).map fun (inside, after) => (.oneOf (readRanges inside), after)

/-- Adds the token of two stars, of which no third stands in a row. -/
def addDirectories (done : List GlobToken) : List GlobToken :=
  if 1 < done.length && done.getLast? == some .directories then done else done ++ [.directories]

/-- What stars at a position stand for, the last character of that, and what follows. -/
def readStars (position : Nat) (before : Option Char) (cs : List Char) (done : List GlobToken) :
    Except GlobFault (List GlobToken × Char × List Char) :=
  let count := (cs.takeWhile (· == '*')).length
  let rest := cs.drop count
  if 2 < count then .error (.wildcards (position + 2))
  else if count < 2 then .ok (done ++ [.sequence], '*', rest)
  else if before.all (· == '/') then
    match rest with
    | [] => .ok (addDirectories done, '*', [])
    | '/' :: rest => .ok (addDirectories done, '/', rest)
    | _ => .error (.partialDirectories (position + 2))
  else .error (.partialDirectories (position - 1))

/-- Reads tokens from a position on. There are at most `fuel` of them. -/
def readTokens (length : Nat) :
    (fuel : Nat) → (before : Option Char) → List Char → (done : List GlobToken) →
      Except GlobFault (List GlobToken)
  | 0, _, _, done => .ok done
  | _, _, [], done => .ok done
  | fuel + 1, before, c :: rest, done =>
    let position := length - (rest.length + 1)
    if c == '?' then readTokens length fuel (some c) rest (done ++ [.anyChar])
    else if c == '*' then do
      let (done, last, after) ← readStars position before (c :: rest) done
      readTokens length fuel (some last) after done
    else if c == '[' then
      match readSet? rest with
      | some (set, after) => readTokens length fuel (some ']') after (done ++ [set])
      | none => .error (.range position)
    else readTokens length fuel (some c) rest (done ++ [.char c])

/-- The pattern of a text. -/
def read (source : String) : Except GlobFault Glob := do
  let cs := source.toList
  return ⟨source, ← readTokens cs.length cs.length none cs []⟩

/-! ### Matching -/

def GlobRange.has (c : Char) : GlobRange → Bool
  | .single d => c == d
  | .between low high => low.toNat ≤ c.toNat && c.toNat ≤ high.toNat

/-- The outcome of a comparison. -/
inductive Verdict where
  | matched
  /-- A longer part of the text may still match. -/
  | differs
  /-- The text ended too early, so no longer part of it matches either. -/
  | exhausted
deriving DecidableEq, Repr, Inhabited

/-- A character that a token for one character stands for. -/
def accepts (c : Char) : GlobToken → Bool
  | .char d => c == d
  | .anyChar => c != '/'
  | .oneOf ranges => c != '/' && ranges.any (GlobRange.has c)
  | .noneOf ranges => c != '/' && !ranges.any (GlobRange.has c)
  | .sequence | .directories => false

/-- Lets a wildcard take one character after another until the rest of the pattern matches. Two stars
take whole directories, one star stops at a slash. -/
def extend (whole : Bool) (rest : List Char → Verdict) : List Char → Verdict
  | [] => rest []
  | c :: cs =>
    if whole && c != '/' then extend whole rest cs
    else if !whole && c == '/' then .differs
    else
      match rest cs with
      | .differs => extend whole rest cs
      | verdict => verdict

/-- Compares tokens with a text. -/
def compare : List GlobToken → List Char → Verdict
  | [], [] => .matched
  | [], _ :: _ => .differs
  | .sequence :: ts, cs =>
    match compare ts cs with
    | .differs => extend false (compare ts) cs
    | verdict => verdict
  | .directories :: ts, cs =>
    match compare ts cs with
    | .differs => extend true (compare ts) cs
    | verdict => verdict
  | _ :: _, [] => .exhausted
  | t :: ts, c :: cs => if accepts c t then compare ts cs else .differs

def isMatch (g : Glob) (text : List Char) : Bool := compare g.tokens text == .matched

/-- The character that a token stands for alone. -/
def literalChar? : GlobToken → Option Char
  | .char c => some c
  | _ => none

/-- The text that the pattern stands for, if it has no wildcard. -/
def literal? (g : Glob) : Option String := (g.tokens.mapM literalChar?).map String.ofList

/-- The pattern spans directories. -/
def isDeep (g : Glob) : Bool := g.tokens.contains .directories

end Glob

end SourceRepair
