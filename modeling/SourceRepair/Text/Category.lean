/-!
# General categories of characters

The general category of every code point, kept as a run-length table, and the character classes
built from it: identifier characters, word characters, decimal digits and white space.
-/

namespace SourceRepair.Text

/-- General categories, under their two-letter abbreviations. -/
inductive Category where
  | lu | ll | lt | lm | lo | mn | mc | me | nd | nl | no | pc | pd | ps | pe | pi | pf
  | po | sm | sc | sk | so | zs | zl | zp | cc | cf | co | cn | cs
deriving DecidableEq, Inhabited

/-- The letter that stands for a category in the run-length table. -/
def Category.ofLetter : Char → Category
  | 'A' => .lu
  | 'B' => .ll
  | 'C' => .lt
  | 'D' => .lm
  | 'E' => .lo
  | 'F' => .mn
  | 'G' => .mc
  | 'H' => .me
  | 'I' => .nd
  | 'J' => .nl
  | 'K' => .no
  | 'L' => .pc
  | 'M' => .pd
  | 'N' => .ps
  | 'O' => .pe
  | 'P' => .pi
  | 'Q' => .pf
  | 'R' => .po
  | 'S' => .sm
  | 'T' => .sc
  | 'U' => .sk
  | 'V' => .so
  | 'W' => .zs
  | 'X' => .zl
  | 'Y' => .zp
  | 'Z' => .cc
  | '!' => .cf
  | '#' => .co
  | '\x25' => .cn
  | '&' => .cs
  | _ => .cn

/-- Run lengths in base 36 (a missing length is one), each followed by the letter of its category,
from code point zero on. -/
def categoryRuns : List String := [
  "wZW3RT3RNORSRM2RaI2R3S2RqANROULUqBNSOSxZWR4TVRUVEPS!VUVS2KUB2RUKEQ3KRnAS7AoBS8BABABABABABA",
  "BABABABABABABABABABABABABABABABABABABABABABA2BABABABABABABABA2BABABABABABABABABABABABABABA",
  "BABABABABABABABABAB2ABABA3B2ABAB2AB3A2B4AB2AB3A3B2AB2ABABAB2ABA2BAB2AB3ABAB2A2BEA3B4EACBAC",
  "BACBABABABABABABABA2BABABABABABABABABA2BACBAB3ABABABABABABABABABABABABABABABABABABABABABAB",
  "ABABABABABABABA7B2AB2A2BAB4ABABABABA1xB2EqBiD4UcDeU5D7UDUDhU34FABABDUAB2%D3BRA4%2UAR3A%A%2",
  "ABhA%9AzBA2B3A3BABABABABABABABABABABABA5BABSAB2A2B1fA1cBABABABABABABABABABABABABABABABABAB",
  "V5F2HABABABABABABABABABABABABABABABABABABABABABABABABABABAB2ABABABABABABA2BABABABABABABABA",
  "BABABABABABABABABABABABABABABABABABABABABABABABABABABABABABABABABABABABABABABABAB%12A2%D6R",
  "15BRM2%2VT%19FMFR2FR2FRF8%rE4%4E2Rb%6!3S2RT2R2VbFR!3RwEDaElFaI4R2EF2rERE7F!V6F2D2FV4F2EaI3",
  "E2VEeR%!EFuErF2%2hEbFEe%aIxE9F2DV3RD2%F2TmE4FD9FD3FD5F2%fR%pE3F2%R%bE5%oEU7E2!5%9F15EDoF!w",
  "FG1iEFGFE3G8F4GF2GE7FaE2F2RaIRDfEF2G%8E2%2E2%mE%7E%E3%4E2%FE3G4F2%2G2%2GFE8%G4%2E%3E2F2%aI",
  "2E2T6KVTERF2%2FG%6E4%2E2%mE%7E%2E%2E%2E2%F%3G2F4%2F2%3F3%F7%4E%E7%aI2F3EFRa%2FG%9E%3E%mE%7",
  "E%2E%5E2%FE3G5F%2FG%2GF2%Ef%2E2F2%aIRT7%E6F%F2G%8E2%2E2%mE%7E%2E%5E2%FEGFG4F2%2G2%2GF7%2FG",
  "4%2E%3E2F2%aIVE6Ka%FE%6E3%3E%4E3%2E%E%2E3%2E3%3E3%cE4%2GF2G3%3G%3GF2%E6%Ge%aI3K6VTV5%F3GF8",
  "E%3E%nE%gE2%FE3F4G%3F%4F7%2F%3E%2E2%2E2F2%aI7%R7KVEF2GR8E%3E%nE%aE%5E2%FEGF5G%F2G%2G2F7%2G",
  "5%3E%2E2F2%aI%2EGc%2F2G9E%3E%15E2FE3G4F%3G%3GFEV4%3EG7K3E2F2%aI9KV6E%F2G%iE3%oE%9E%E2%7E3%",
  "F4%3G3F%F%8G6%aI2%2GRc%1cEF2E7F4%T6ED8FRaI2R11%2E%E%5E%oE%E%aEF2E9FE2%5E%D%7F%aI2%4Ew%E3Vf",
  "RVR3V2F6VaIaKVFVFVFNONO2G8E%10E4%eFG5FR2F5EbF%10F%8VF6V%2V5R4V2R11%17E2G4FG6FG2F2G2FEaI6R6",
  "E2G2F4E3FE3G2E7G3E4FdEF2G2F6GFEGaI3GF2V12A%A5%A2%17BRD3B95E%4E2%7E%E%4E2%15E%4E2%xE%4E2%7E",
  "%E%4E2%fE%1lE%4E2%1vE2%3F9RkK3%gEaV6%2eA2%6B2%Mh8EVRhEWqENO3%23E3R3J8E7%iE3FG9%jE2FG2R9%iE",
  "2Fc%dE%3E%2Fc%1gE2FG7F8GF2GbF3RD3RTEF2%aI6%aK6%6RM4R3F!FaI6%zED1hE7%5E2FyEFE5%1yEa%vE%3F4G",
  "2F3G4%2GF6G3F4%V3%2RaIuE2%5Eb%18E4%qE6%aIK3%yVnE2F2GF2%2R1hEGFG7F%FGF2G8F6GaF2%FaI6%aI6%7R",
  "D6R2%eFHvF2%cFk%4FG1bEFG5FGF5GF2G8E%2RaI7RaV9F9V3R2FGuEG4F2G2FG3F2EaI18EFG2F3GFG3F2G8%4R10",
  "E8G8F2G2F3%5RaI3%3EaIuE6D2R9BAB5%17A2%3A8R8%3FRdFG7F4EF6EF2EG2FE5%18B1rDdBDyB11D1sFABABABA",
  "BABABABABABABABABABABABABABABABABABABABABABABABABABABABABABABABABABABABABABABABABABABABABA",
  "BABABABABABABABABABABABABABABABABABABABABABABABABABA9BABABABABABABABABABABABABABABABABABAB",
  "ABABABABABABABABABABABABABABABABABABABABABABABABABABABABABABA9B8A6B2%6A2%8B8A8B8A6B2%6A2%8",
  "B%A%A%A%A8B8AeB2%8B8C8B8C8B8C5B%2B4ACUB3U3B%2B4AC3U4B2%2B4A%3U8B5A3U2%3B%2B4AC2U%bW5!6M2RP",
  "QN2PQNP8RXY5!W9RPQ4R2L3RSNObRSRLaRW5!%a!KD2%6K3SNODaK3SNO%dD3%yTe%dF4HF3HcFf%2VA4VA2VB3A2B",
  "3ABVA2VS5A6VAVAVAV4AVB4AB4EB2V2B2A5SA4BVS2VBVgKzJAB4JK2V4%5S5V2S4VS2VS2VS7VSvV2S2VSVSvV7gS",
  "8VNONOkV2S7VNO29VSuVpS14V6S20Vm%bVl%1oK26VmK53VS9VS1iV8S33VS6wVNONONONONONONOuK18V5SNOvSNO",
  "NONONONOgS74V3nSNONONONONONONONONONONO1rSNONOwSNO76S1cVlS2V6S13V2%3uV1cA1cBAB3A2BABABAB4AB",
  "A2BA6B2D3ABABABABABABABABABABABABABABABABABABABABABABABABABABABABABABABABABABABABABABABABA",
  "BABABABABABABABABA2B6VABAB3FAB5%4RK2R12B%B5%B2%1kE7%DRe%FnE9%7E%7E%7E%7E%7E%7E%7E%7E%wF2RP",
  "QPQ3RPQRPQ9RM2RMRPQ2RPQNONONONO5RDaR2M4RMRNdR2V3RNONONONOMy%qV%2hVc%5yVq%gVW3RVDEJNONONONO",
  "NO2VNONONONOMN2OV9J4F2GM5D2V3JDER2V%2eE2%2F2U2DEM2iER3DE5%17E%2mE%2V4KaVwE12V9%VgEvV%aKuV8",
  "KVfKwVaK13VfK8wV534E1sVg7pEDvrE3%1jV9%14E6D2R7gED3RgEaI2Ek%ABABABABABABABABABABABABABABABA",
  "BABABABABABABABEF3HRaFRDABABABABABABABABABABABABABAB2D2F1yEaJ2F6R8%nU9D2UABABABABABABA3BAB",
  "ABABABABABABABABABABABABABABABABABABABABABABABABABABABABABABD8BABAB2ABABABABABD2UABABEABA3",
  "BABABABABABABABABABAB5AB5ABABABABABABABAB4ABAB2ABABABABABABABABAk%4DABE2DB7EF3EF4EFnE2G2FG",
  "4VF3%6K2VTV6%1gE4R8%2G1eEgG2F8%2RaI6%iF6E3RER2EFaIsE8F2RnEbF2Gb%RtE3%3FG1bEF2G4F2G2F3GdR%D",
  "aI4%2R5EFD9EaI5E%15E6F2G2F2G2F9%3EF8EFG2%aI2%4RgED6E3VEGFG1eEFE3F2E2F5E2FEFEo%2ED2RbEG2F2G",
  "2RE2DGFa%6E2%6E2%6E9%7E%7E%17BU4D9BD2U4%28BzE2GF2GF2GRGF2%aI6%8mcEc%nE4%1dE4%1kw&4xs#a6E2%",
  "2yE12%7Bc%5B5%EFaESdE%5E%E%2E%2E%30EhUgVa3EONgV1sE2V1iE8Vw%cET3VgF7RNOR6%gFR2M2LNONONONONO",
  "NONONO2RNO4R3L3R%4RMNONONO3RSM3S%RT2R4%5E%3rE2%!%3RT3RNORSRM2RaI2R3S2RqANROULUqBNSOSNORNO2",
  "RaED19E2DvE3%6E2%6E2%6E2%3E3%2TSUV2T%V4S2Va%3!2V2%cE%qE%jE%2E%fE2%eEy%3fE5%3R4%19K3%9V1hJ4",
  "KhV2K3V%dV3%V1b%19VF3m%tE3%1dEf%FrK4%wE4K9%kEJ8EJ5%12E5F5%uE%R10E4%8ER5J16%14A14B26E2%aI6%",
  "10A4%10B4%14E8%1gEb%RbA%fA%7A%2A%bB%fB%7B%2B3%1gEc%8nE9%mEa%8Eo%6D%16D%9D1x%6E2%E%18E%2E3%",
  "E2%nE%R8KnE2V7KvE8%9K1c%jE%2E5%5KmE6K3%RqE5%RqE12%1kE4%2K2EgK2%1aKE3F%2F5%4F4E%3E%tE2%3F4%",
  "F9K7%9R7%tE2KRtE3Kw%8EVsE2F4%5K7R9%1iE3%7RmE2%8KjE5%8KiE7%4Rc%7K28%21E1j%1fAd%1fB7%6K10E4F",
  "8%aI6%aI4EDEmA3%5FMDmB8%2S5s%vK%16E%2FM2%2Eg%3ED2E8%R8Vx%6FtEaKE8%mEbF4K5Rm%iE4F4R12%lE7Kk",
  "%nE9%GFG1hEfF7R4%kKaIF2E2FE9%3FG19E3G4F2G2F2R!4RFa%!2%pE7%aI6%3F10E5FG8F%aI4RE2GE8%zEF2RE9",
  "%2FG1cE3G9F2G4E4R4FRGFaIERE3R%kKb%iE%pE3G3F2GFG2F6RF2EF1q%7E%E%4E%fE%aER6%1bEF3G8F5%aI6%2F",
  "2G%8E2%2E2%mE%7E%2E%5E%2FE2GF4G2%2G2%3G2%E6%G5%5E2G2%7F3%5Fb%aE%E2%E%12E%E3G6F%G2%G%4G%2GF",
  "GFEFE2R%2R8%2Ft%1hE3G8F2G3FGF4E5RaI2R%RF3Eu%1cE3G6FGF4G2FG2F2ERE8%aI4m%1bE3G4F2%4G2FG2FnR4",
  "E2Fy%1cE3G8F2GFG2F3REb%aI6%dRj%17EFGF2G6FGFER6%aI6%kIs%rE2%FGF2G4FG5F4%aI2K3RV7E55%18E3G9F",
  "G2FR2s%wAwBaI9Kc%8E2%E2%8E%2E%oE6G%2G2%2FGFEGEGF3R9%aI1y%8E2%13E3G4F2%2F4GFEREGr%EaF14E6FG",
  "E4F8RF8%E6F2G3F1aEdFG2F3RE5Rd%21E7%aR2e%FG3FGFG2g%xERe%aI6%9E%11EG7F%6FGFE5Ra%aIjK3%2RuE2%",
  "mF%G7FG2FG2F21%7E%2E%12E6F3%F%2F%7FEF8%aI6%6E%2E%wE5G%2F%2GFGFE7%aI6%15ED2E4%aI6u%jE2F2G2R",
  "7%2FEGdE%yE2G5F3%2GFGFdRaIF2d%Ef%lK8V4ThVd%RpmE2u%33J%5Rb%5gE218%2pE2Rd%tsEg!F6EfFa%32zE5%",
  "g7E5a1%uEcF3G3FaI1c6%ftE7%vE%aI4%2R27E%aI6%uE2%5FRa%1cE7F5R4V4DRVa%aI%7K%lE5%jEc0%3D14E2D3",
  "RaI5i%wAwBnK4R5%pA2%pB18%23E4%FE1jG7%4FdD1s%2DRDFb%2G2D3J9%5p2E15%wE2p%37E6pp%4D%7D%2D%83E",
  "f%Et%3E2%Ee%4E8%b0E1s4%2zE5%dE3%9E7%aE2%V2FR4!318%6oVaI3V3%c4V6%nVf%gVSf%1aF2%nF9%38V1o%6u",
  "Va%13V2%1oV2G3F3V6G8!8F2V7FuV4F1pVl%1uV3FV3e%kKc%kKc%2fV9%pK3r%qAqBqA7B%iBqAqBA%2A2%A2%2A2",
  "%4A%8A4B%B%7B%bBqAqB2A%4A2%8A%7A%qB2A%4A%5A%A3%7A%qBqAqBqAqBqAqBqAqBqAqBqAsB2%pASpBS6BpASp",
  "BS6BpASpBS6BpASpBS6BpASpBS6BAB2%1eIe8V1jF4V1eF8VFeVF2V5Rf%5F%fFuo%aBEkB6%6B5x%7F%hF2%7F%2F",
  "%5F5%1qDx%F34%19E3%7F7D2%aI4%EV8w%uEFh%18E4FaI5%Tcw%rED4FaI5y%uE2FEaI4%R5c%vE%3EF2EF7E2F5E",
  "F8%ED68%7E%4E%2E%fE%5hE2%9K7F15%yAyB7FD4%aI4%2Rlt%1nKV3KT4K24%19KVfK5e%4E%rE%2E%E2%E%aE%4E",
  "%E%E6%E4%E%E%E%3E%2E%E2%E%E%E%E%E%2E%E2%4E%7E%4E%4E%E%aE%hE5%3E%5E%hE1g%2S7i%18V4%2sVc%fV2",
  "%fV%fV%11Va%dK4hV1k%tVd%18V4%9V7%2Ve%6V4a%6zV5Uk9V3%hV3%dV3%62V6%cV4%Vf%cV4%1kV8%aV6%14V8%",
  "uV2%cV4%2Ve%9S13%9kV8%eV2%dV3%bV3%1lV%V4%gV2%cV4%aV7%43V%2kVaIVsl%wyoEw%3dqE2%4geE2%5rlEf%",
  "haE1wi%f2E15u%3t7E5%6juEf5vr%!u%2o!3k%6oF1e6o%1eke#2%1eke#2%"]

/-- The value of a base 36 digit written with a lower-case letter. -/
def base36Digit? (c : Char) : Option Nat :=
  if '0' ≤ c ∧ c ≤ '9' then some (c.toNat - 48)
  else if 'a' ≤ c ∧ c ≤ 'z' then some (c.toNat - 87)
  else none

/-- Reads the runs as pairs of first code point and category, in ascending order. `length?` holds
the digits of the run length read so far. -/
def decodeRuns : List Char → Nat → Option Nat → List (Nat × Category)
  | [], _, _ => []
  | c :: cs, first, length? =>
    match base36Digit? c with
    | some d => decodeRuns cs first (some (length?.getD 0 * 36 + d))
    | none => (first, Category.ofLetter c) :: decodeRuns cs (first + length?.getD 1) none

/-- First code point and category of every run. -/
def categoryTable : Array (Nat × Category) :=
  (decodeRuns (categoryRuns.flatMap String.toList) 0 none).toArray

/-- The last entry of `table` in `[lo, hi)` whose key is at most `key`, by halving. -/
def lastAtMost {α : Type} (table : Array (Nat × α)) (key : Nat) : Nat → Nat → Nat → Option α
  | 0, _, _ => none
  | fuel + 1, lo, hi =>
    if hi ≤ lo then none
    else if hi = lo + 1 then
      (table[lo]?).bind fun entry => if entry.1 ≤ key then some entry.2 else none
    else
      let mid := (lo + hi) / 2
      match table[mid]? with
      | some entry => if entry.1 ≤ key then lastAtMost table key fuel mid hi
        else lastAtMost table key fuel lo mid
      | none => none

/-- The general category of a character. -/
def category (c : Char) : Category :=
  (lastAtMost categoryTable c.toNat categoryTable.size 0 categoryTable.size).getD .cn

def Category.isLetter : Category → Bool
  | .lu | .ll | .lt | .lm | .lo => true
  | _ => false

def Category.isMark : Category → Bool
  | .mn | .mc | .me => true
  | _ => false

/-! ### Character classes -/

/-- White space in the sense of the Unicode property `White_Space`. -/
def isSpace (c : Char) : Bool :=
  let n := c.toNat
  (9 ≤ n && n ≤ 13) || n == 0x20 || n == 0x85 || n == 0xA0 || n == 0x1680 ||
    (0x2000 ≤ n && n ≤ 0x200A) || n == 0x2028 || n == 0x2029 || n == 0x202F || n == 0x205F ||
    n == 0x3000

/-- Decimal digits of any script. -/
def isDecimalDigit (c : Char) : Bool :=
  if c.toNat < 0x80 then c.isDigit else category c == .nd

/-- Word characters: letters, marks, decimal digits, connector punctuation, letter numbers, the
enclosed letters and the two joiners. -/
def isWordChar (c : Char) : Bool :=
  let n := c.toNat
  if n < 0x80 then c.isAlphanum || c == '_'
  else
    let k := category c
    k.isLetter || k.isMark || k == .nd || k == .nl || k == .pc || n == 0x200C || n == 0x200D ||
      (0x24B6 ≤ n && n ≤ 0x24E9) || (0x1F130 ≤ n && n ≤ 0x1F149) ||
      (0x1F150 ≤ n && n ≤ 0x1F169) || (0x1F170 ≤ n && n ≤ 0x1F189)

/-- Characters that may start an identifier of a script. -/
def isIdentifierStart (c : Char) : Bool :=
  let n := c.toNat
  if n < 0x80 then c.isAlpha || c == '_' || c == '$'
  else
    let k := category c
    (k.isLetter && n != 0x2E2F) || k == .nl || n == 0x1885 || n == 0x1886 || n == 0x2118 ||
      n == 0x212E || n == 0x309B || n == 0x309C

/-- Characters that may continue an identifier of a script. -/
def isIdentifierPart (c : Char) : Bool :=
  let n := c.toNat
  if n < 0x80 then c.isAlphanum || c == '_' || c == '$'
  else
    isIdentifierStart c ||
      (let k := category c
       k == .mn || k == .mc || k == .nd || k == .pc) ||
      n == 0xB7 || n == 0x387 || (0x1369 ≤ n && n ≤ 0x1371) || n == 0x19DA || n == 0x200C ||
      n == 0x200D || n == 0x30FB || n == 0xFF65

end SourceRepair.Text
