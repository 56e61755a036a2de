import SourceRepair.Json.Value

/-!
# Reading JSON

A reader takes characters from the front of a text and returns what it read with the rest. Objects
keep repeated keys; whoever uses the value decides what they mean.
-/

namespace SourceRepair.Json

/-- A reader either takes a value off the front of a text or refuses the text. -/
abbrev Reader (α : Type) := List Char → Option (α × List Char)

/-- Blanks between tokens. -/
def isBlank (c : Char) : Bool := c == ' ' || c == '\n' || c == '\t' || c == '\r'

def skipBlanks (cs : List Char) : List Char := cs.dropWhile isBlank

/-! ### Strings -/

def hexValue? (c : Char) : Option Nat :=
  if '0' ≤ c && c ≤ '9' then some (c.toNat - 48)
  else if 'a' ≤ c && c ≤ 'f' then some (c.toNat - 87)
  else if 'A' ≤ c && c ≤ 'F' then some (c.toNat - 55)
  else none

/-- The number of four hexadecimal digits. -/
def hexQuad? (a b c d : Char) : Option Nat := do
  return (((← hexValue? a) * 16 + (← hexValue? b)) * 16 + (← hexValue? c)) * 16 + (← hexValue? d)

def isHighSurrogate (n : Nat) : Bool := 0xD800 ≤ n && n < 0xDC00

def isLowSurrogate (n : Nat) : Bool := 0xDC00 ≤ n && n < 0xE000

/-- The character of an escape with one letter. -/
def shortEscape? : Char → Option Char
  | '"' => some '"'
  | '\\' => some '\\'
  | '/' => some '/'
  | 'b' => some (Char.ofNat 8)
  | 'f' => some (Char.ofNat 12)
  | 'n' => some '\n'
  | 'r' => some '\r'
  | 't' => some '\t'
  | _ => none

/-- The character of an escaped pair of surrogates. -/
def surrogatePair? (high low : Nat) : Option Char :=
  if isHighSurrogate high && isLowSurrogate low then
    some (Char.ofNat (0x10000 + (high - 0xD800) * 0x400 + (low - 0xDC00)))
  else none

/-- The rest of a string after its opening quote; `seen` holds its characters so far, last first. -/
def readStringRest : List Char → List Char → Option (String × List Char)
  | '"' :: rest, seen => some (String.ofList seen.reverse, rest)
  | '\\' :: 'u' :: a :: b :: c :: d :: '\\' :: 'u' :: e :: f :: g :: h :: rest, seen =>
    match hexQuad? a b c d, hexQuad? e f g h with
    | some n, some m =>
      match surrogatePair? n m with
      | some x => readStringRest rest (x :: seen)
      | none =>
        if isHighSurrogate n || isLowSurrogate n then none
        else readStringRest ('\\' :: 'u' :: e :: f :: g :: h :: rest) (Char.ofNat n :: seen)
    | some n, none =>
      if isHighSurrogate n || isLowSurrogate n then none
      else readStringRest ('\\' :: 'u' :: e :: f :: g :: h :: rest) (Char.ofNat n :: seen)
    | none, _ => none
  | '\\' :: 'u' :: a :: b :: c :: d :: rest, seen =>
    match hexQuad? a b c d with
    | some n =>
      if isHighSurrogate n || isLowSurrogate n then none
      else readStringRest rest (Char.ofNat n :: seen)
    | none => none
  | '\\' :: c :: rest, seen =>
    match shortEscape? c with
    | some x => readStringRest rest (x :: seen)
    | none => none
  | c :: rest, seen =>
    if c.toNat < 32 || c == '\\' then none else readStringRest rest (c :: seen)
  | [], _ => none
termination_by cs => cs.length

/-! ### Numbers -/

/-- The largest integer of 64 bits. -/
def maxWord : Nat := UInt64.size - 1

/-- The value of leading digits while they fit a word, the number of digits that were left out
after the first that did not fit, and the number of digits taken. -/
structure Digits where
  value : Nat
  taken : Nat
  dropped : Nat

/-- Adds digits to a number. Once a digit does not fit into a word it and all later ones are
dropped. -/
def Digits.append : Digits → List Char → Digits
  | d, [] => d
  | d, c :: cs =>
    let next := d.value * 10 + (c.toNat - 48)
    if d.dropped == 0 && next ≤ maxWord then Digits.append ⟨next, d.taken + 1, 0⟩ cs
    else Digits.append ⟨d.value, d.taken, d.dropped + 1⟩ cs

/-- Digits of an exponent. It stops growing where it exceeds 31 bits. -/
def exponentValue? (cs : List Char) : Option Nat :=
  cs.foldl (fun acc c => acc.bind fun n =>
    let next := n * 10 + (c.toNat - 48)
    if next < 1 <<< 31 then some next else none) (some 0)

/-- Divides by `10 ^ 308` until the exponent is within reach, then scales once. -/
def scaleFloat : Nat → Float → Int → Option Float
  | 0, _, _ => none
  | fuel + 1, f, e =>
    if e.natAbs ≤ 308 then
      let power := Float.ofScientific 1 false e.natAbs
      if 0 ≤ e then
        let g := f * power
        if g.isFinite then some g else none
      else some (f / power)
    else if f == 0.0 then some f
    else if 0 ≤ e then none
    else scaleFloat fuel (f / 1e308) (e + 308)

/-- The double nearest to a word. -/
def wordFloat (n : Nat) : Float := Float.ofNat n

/-- A double from its sign, its digits and the power of ten behind them. -/
def floatOf (negative : Bool) (significand : Nat) (exponent : Int) : Option Number :=
  (scaleFloat 20 (wordFloat significand) exponent).map fun f =>
    .float (if negative then -f else f)

/-- An exponent too large to hold: a zero stays zero, a small number becomes zero and a large one
is refused. -/
def hugeExponent (negative : Bool) (significand : Nat) (negativeExponent : Bool) : Option Number :=
  if significand == 0 || negativeExponent then some (.float (if negative then -0.0 else 0.0))
  else none

/-- The exponent part of a number, if there is one. -/
def readExponent (negative : Bool) (significand : Nat) (exponent : Int) : Reader Number
  | c :: rest =>
    if c == 'e' || c == 'E' then
      let (down, rest) := match rest with
        | '-' :: r => (true, r)
        | '+' :: r => (false, r)
        | r => (false, r)
      let digits := rest.takeWhile Char.isDigit
      let rest := rest.drop digits.length
      if digits.isEmpty then none
      else
        let number := match exponentValue? digits with
          | some n => floatOf negative significand (if down then exponent - n else exponent + n)
          | none => hugeExponent negative significand down
        number.map (·, rest)
    else (floatOf negative significand exponent).map (·, c :: rest)
  | [] => (floatOf negative significand exponent).map (·, [])

/-- A number after its sign. -/
def readNumber (negative : Bool) (cs : List Char) : Option (Number × List Char) :=
  let whole := cs.takeWhile Char.isDigit
  let rest := cs.drop whole.length
  if whole.isEmpty || (whole.head? == some '0' && 1 < whole.length) then none
  else
    let d := Digits.append ⟨0, 0, 0⟩ whole
    match rest with
    | '.' :: rest =>
      let fraction := rest.takeWhile Char.isDigit
      let rest := rest.drop fraction.length
      if fraction.isEmpty then none
      else
        let f := Digits.append ⟨d.value, 0, 0⟩ fraction
        readExponent negative f.value ((d.dropped : Int) - f.taken) rest
    | rest =>
      if d.dropped != 0 || rest.head?.any (fun c => c == 'e' || c == 'E') then
        readExponent negative d.value d.dropped rest
      else if !negative then some (.int d.value, rest)
      else if d.value == 0 || 1 <<< 63 < d.value then some (.float (-(wordFloat d.value)), rest)
      else some (.int (-(d.value : Int)), rest)

/-! ### Values -/

/-- The rest of a literal word. -/
def readWord (word : String) (v : Value) (cs : List Char) : Option (Value × List Char) :=
  if word.toList.isPrefixOf cs then some (v, cs.drop word.length) else none

/-- Items separated by commas up to the closing bracket. -/
def readItems (item : Reader Value) : Nat → Reader (List Value)
  | 0, _ => none
  | fuel + 1, cs => do
    let (v, rest) ← item (skipBlanks cs)
    match skipBlanks rest with
    | ',' :: rest =>
      let (vs, rest) ← readItems item fuel rest
      return (v :: vs, rest)
    | ']' :: rest => return ([v], rest)
    | _ => none

/-- Members separated by commas up to the closing brace. -/
def readMembers (item : Reader Value) : Nat → Reader (List (String × Value))
  | 0, _ => none
  | fuel + 1, cs => do
    let '"' :: rest := skipBlanks cs | none
    let (key, rest) ← readStringRest rest []
    let ':' :: rest := skipBlanks rest | none
    let (v, rest) ← item (skipBlanks rest)
    match skipBlanks rest with
    | ',' :: rest =>
      let (ms, rest) ← readMembers item fuel rest
      return ((key, v) :: ms, rest)
    | '\x7d' :: rest => return ([(key, v)], rest)
    | _ => none

/-- A value that holds no other value. -/
def readScalar : Reader Value
  | '"' :: rest => (readStringRest rest []).map fun (s, r) => (.string s, r)
  | '-' :: rest => (readNumber true rest).map fun (n, r) => (.number n, r)
  | 'n' :: rest => readWord "ull" .null rest
  | 't' :: rest => readWord "rue" (.bool true) rest
  | 'f' :: rest => readWord "alse" (.bool false) rest
  | cs => (readNumber false cs).map fun (n, r) => (.number n, r)

/-- One value, with lists nested at most `depth` deep. -/
def readValue : Nat → Reader Value
  | 0, cs => readScalar cs
  | depth + 1, '[' :: rest =>
    match skipBlanks rest with
    | ']' :: rest => some (.array [], rest)
    | rest => (readItems (readValue depth) (rest.length + 1) rest).map fun (vs, r) => (.array vs, r)
  | depth + 1, '\x7b' :: rest =>
    match skipBlanks rest with
    | '\x7d' :: rest => some (.object [], rest)
    | rest =>
      (readMembers (readValue depth) (rest.length + 1) rest).map fun (ms, r) => (.object ms, r)
  | _ + 1, cs => readScalar cs

/-- Lists are nested at most this deep. -/
def depthLimit : Nat := 127

/-- The value that a whole text holds, with repeated keys. -/
def read? (text : String) : Option Value :=
  match readValue depthLimit (skipBlanks text.toList) with
  | some (v, rest) => if (skipBlanks rest).isEmpty then some v else none
  | none => none

end SourceRepair.Json
