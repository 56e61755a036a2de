/-!
# Decimals

The decimal with the fewest digits that reads back as a given double, and its text. A finite double
is `m · 2 ^ q`; a decimal reads back as it when it lies in the interval of reals that round to it.

A double can also be rounded to some places after the point. That rounding is of the exact value, and a
half goes to the even neighbour.
-/

namespace SourceRepair.Decimal

/-- The number `digits · 10 ^ exponent`. -/
structure Numeral where
  digits : Nat
  exponent : Int
deriving DecidableEq, Repr, Inhabited

/-- A positive double `m · 2 ^ q`. `narrow` says that the gap below it is half the gap above. -/
structure Binary where
  m : Nat
  q : Int
  narrow : Bool
deriving DecidableEq, Repr, Inhabited

/-- The parts of a finite positive double. -/
def Binary.ofBits (bits : Nat) : Binary :=
  let fraction := bits % (1 <<< 52)
  let biased : Nat := (bits >>> 52) % (1 <<< 11)
  if biased == 0 then ⟨fraction, -1074, false⟩
  else ⟨(1 <<< 52) + fraction, (biased : Int) - 1075, fraction == 0 && 1 < biased⟩

/-- A positive fraction. -/
structure Ratio where
  num : Nat
  den : Nat

/-- `n · 2 ^ e`. -/
def Ratio.scaled (n : Nat) (e : Int) : Ratio := ⟨n <<< e.toNat, 1 <<< (-e).toNat⟩

/-- `n · 10 ^ e`. -/
def Ratio.decimal (n : Nat) (e : Int) : Ratio := ⟨n * Nat.pow 10 e.toNat, Nat.pow 10 (-e).toNat⟩

def Ratio.le (a b : Ratio) : Bool := a.num * b.den ≤ b.num * a.den

def Ratio.lt (a b : Ratio) : Bool := a.num * b.den < b.num * a.den

/-- The whole part of `a / b`. -/
def Ratio.quotient (a b : Ratio) : Nat := a.num * b.den / (a.den * b.num)

/-- The least number of factors ten, up to `fuel`, that lift the fraction to at least one. -/
def Ratio.lift (r : Ratio) : Nat → Nat
  | 0 => 0
  | fuel + 1 => if r.den ≤ r.num then 0 else 1 + Ratio.lift ⟨r.num * 10, r.den⟩ fuel

/-- The power of ten of the first digit of a positive fraction. -/
def Ratio.magnitude (r : Ratio) : Int :=
  if r.den ≤ r.num then ((Nat.toDigits 10 (r.num / r.den)).length : Int) - 1
  else -(r.lift 400 : Int)

/-- The decimal reads back as the double: it lies between the midpoints to its neighbours, which
count when the double is even. -/
def Binary.accepts (b : Binary) (d : Numeral) : Bool :=
  let x := Ratio.decimal d.digits d.exponent
  let low := Ratio.scaled (4 * b.m - if b.narrow then 1 else 2) (b.q - 2)
  let high := Ratio.scaled (4 * b.m + 2) (b.q - 2)
  if b.m % 2 == 0 then low.le x && x.le high else low.lt x && x.lt high

/-- Of two neighbours on a decimal grid, the one nearer to the double, the even one on a tie. -/
def Binary.nearer (b : Binary) (k : Nat) (e : Int) : Nat :=
  let twice := Ratio.scaled (2 * b.m) b.q
  let middle := Ratio.decimal (2 * k + 1) e
  if twice.lt middle then k
  else if middle.lt twice then k + 1
  else if k % 2 == 0 then k else k + 1

/-- The decimal with `n` digits that reads back as the double. -/
def Binary.withDigits (b : Binary) (n : Nat) : Option Numeral :=
  let x := Ratio.scaled b.m b.q
  let e := x.magnitude + 1 - n
  let k := x.quotient (Ratio.decimal 1 e)
  match b.accepts ⟨k, e⟩, b.accepts ⟨k + 1, e⟩ with
  | true, true => some ⟨b.nearer k e, e⟩
  | true, false => some ⟨k, e⟩
  | false, true => some ⟨k + 1, e⟩
  | false, false => none

/-- The decimal without zeros at its end. -/
def Numeral.trim : Nat → Numeral → Numeral
  | 0, d => d
  | fuel + 1, d =>
    if d.digits != 0 && d.digits % 10 == 0 then Numeral.trim fuel ⟨d.digits / 10, d.exponent + 1⟩
    else d

/-- The shortest decimal that reads back as the double, and of those the nearest. Seventeen digits
always suffice. -/
def Binary.shortest (b : Binary) : Numeral :=
  match (List.range 17).findSome? fun n => b.withDigits (n + 1) with
  | some d => d.trim 20
  | none => ⟨0, 0⟩

/-- The text of a positive decimal: with a fraction between `10 ^ -5` and `10 ^ 16`, else with an
exponent and its sign. -/
def Numeral.text (d : Numeral) : String :=
  let digits := Nat.toDigits 10 d.digits
  let n := digits.length
  let point : Int := n + d.exponent
  if 0 ≤ d.exponent && point ≤ 16 then
    String.ofList (digits ++ List.replicate d.exponent.toNat '0') ++ ".0"
  else if 0 < point && point ≤ 16 then
    String.ofList (digits.take point.toNat) ++ "." ++ String.ofList (digits.drop point.toNat)
  else if -5 < point && point ≤ 0 then
    "0." ++ String.ofList (List.replicate (-point).toNat '0' ++ digits)
  else
    let fraction := if n == 1 then "" else "." ++ String.ofList (digits.drop 1)
    let sign := if 0 < point then "+" else ""
    String.ofList (digits.take 1) ++ fraction ++ "e" ++ sign ++ toString (point - 1)

/-- The text of a finite double, always with a fraction or an exponent. -/
def text (x : Float) : String :=
  let bits := x.toBits.toNat
  let sign := if 1 <<< 63 ≤ bits then "-" else ""
  let magnitude := bits % (1 <<< 63)
  if magnitude == 0 then sign ++ "0.0"
  else sign ++ (Binary.ofBits magnitude).shortest.text

/-! ### Fixed places -/

/-- The nearest whole number to a fraction, the even one on a tie. -/
def Ratio.round (r : Ratio) : Nat :=
  let k := r.num / r.den
  let twice := 2 * (r.num % r.den)
  if twice < r.den then k
  else if r.den < twice then k + 1
  else if k % 2 == 0 then k else k + 1

/-- A number of units with `places` digits after the point. -/
def placed (places units : Nat) : String :=
  let digits := Nat.toDigits 10 units
  let digits := List.replicate (places + 1 - digits.length) '0' ++ digits
  let point := digits.length - places
  String.ofList (digits.take point) ++
    if places == 0 then "" else "." ++ String.ofList (digits.drop point)

/-- The text of a double with `places` digits after the point. -/
def fixed (places : Nat) (x : Float) : String :=
  if x.isNaN then "NaN"
  else
    let bits := x.toBits.toNat
    let sign := if 1 <<< 63 ≤ bits then "-" else ""
    if x.isInf then sign ++ "inf"
    else
      let b := Binary.ofBits (bits % (1 <<< 63))
      sign ++ placed places (Ratio.scaled (b.m * Nat.pow 10 places) b.q).round

end SourceRepair.Decimal
