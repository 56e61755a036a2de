import SourceRepair.Json.Value
import SourceRepair.Decimal

/-!
# Writing JSON

The text of a value, on one line or indented by two blanks a level.
-/

namespace SourceRepair.Json

/-- A hexadecimal digit, in lower case. -/
def hexDigit (n : Nat) : Char := if n < 10 then Char.ofNat (48 + n) else Char.ofNat (87 + n)

/-- A character of a string as it is written between quotes. -/
def escape (c : Char) : List Char :=
  match c with
  | '"' => ['\\', '"']
  | '\\' => ['\\', '\\']
  | '\n' => ['\\', 'n']
  | '\r' => ['\\', 'r']
  | '\t' => ['\\', 't']
  | c =>
    if c.toNat == 8 then ['\\', 'b']
    else if c.toNat == 12 then ['\\', 'f']
    else if c.toNat < 32 then ['\\', 'u', '0', '0', hexDigit (c.toNat / 16), hexDigit (c.toNat % 16)]
    else [c]

/-- A string in quotes. -/
def quote (s : String) : String := String.ofList ('"' :: s.toList.flatMap escape ++ ['"'])

def Number.text : Number → String
  | int n => toString n
  | float x => if x.isFinite then Decimal.text x else "null"

/-- How lists are laid out: the text before an item at a depth, and the text after a key. -/
structure Layout where
  newline : Nat → String
  colon : String

/-- Everything on one line. -/
def Layout.compact : Layout := ⟨fun _ => "", ":"⟩

/-- One item a line, indented by its depth. -/
def Layout.pretty : Layout := ⟨fun depth => "\n" ++ String.ofList (List.replicate (2 * depth) ' '), ": "⟩

/-- The texts of items in a pair of brackets. -/
def Layout.list (layout : Layout) (depth : Nat) (opening closing : String) :
    List String → String
  | [] => opening ++ closing
  | items =>
    opening ++ layout.newline (depth + 1) ++
      String.intercalate ("," ++ layout.newline (depth + 1)) items ++ layout.newline depth ++ closing

mutual

/-- The text of a value at a depth. -/
def Value.render (layout : Layout) (depth : Nat) : Value → String
  | .null => "null"
  | .bool true => "true"
  | .bool false => "false"
  | .number n => n.text
  | .string s => quote s
  | .array items => layout.list depth "[" "]" (renderItems layout (depth + 1) items)
  | .object ms => layout.list depth "\x7b" "\x7d" (renderMembers layout (depth + 1) ms)

def renderItems (layout : Layout) (depth : Nat) : List Value → List String
  | [] => []
  | v :: vs => v.render layout depth :: renderItems layout depth vs

def renderMembers (layout : Layout) (depth : Nat) : List (String × Value) → List String
  | [] => []
  | (k, v) :: rest =>
    (quote k ++ layout.colon ++ v.render layout depth) :: renderMembers layout depth rest

end

/-- The text of a value on one line. -/
def Value.compact (v : Value) : String := v.render .compact 0

/-- The indented text of a value. -/
def Value.pretty (v : Value) : String := v.render .pretty 0

end SourceRepair.Json
