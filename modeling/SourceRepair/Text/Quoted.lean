import SourceRepair.Text.Category

/-!
# Quoted text

A text in double quotes, as messages show it. Characters that do not show are written by their
number.
-/

namespace SourceRepair.Text

/-- A number in hexadecimal digits. -/
def hexDigits (n : Nat) : List Char := Nat.toDigits 16 n

/-- The character shows and stands alone. -/
def isVisible (c : Char) : Bool :=
  if c.toNat < 0x80 then 32 ≤ c.toNat && c.toNat != 127
  else
    match category c with
    | .cc | .cf | .cs | .co | .cn | .zs | .zl | .zp | .mn | .me => false
    | _ => true

/-- A character of a quoted text. -/
def showChar (c : Char) : List Char :=
  if c == '"' then ['\\', '"']
  else if c == '\\' then ['\\', '\\']
  else if c == '\n' then ['\\', 'n']
  else if c == '\r' then ['\\', 'r']
  else if c == '\t' then ['\\', 't']
  else if c.toNat == 0 then ['\\', '0']
  else if isVisible c then [c]
  else ['\\', 'u', '\x7b'] ++ hexDigits c.toNat ++ ['\x7d']

/-- A text in quotes. -/
def quoted (s : String) : String := String.ofList ('"' :: s.toList.flatMap showChar ++ ['"'])

end SourceRepair.Text
