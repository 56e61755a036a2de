import SourceRepair.Json.Decode
import SourceRepair.Text.Line

/-!
# Layers

The seven layers of repairs, in the order in which they run.
-/

namespace SourceRepair

inductive LayerId where
  | config | patterns | components | hydration | framework | testing | adaptive
deriving DecidableEq, Repr, Inhabited

namespace LayerId

/-- All layers in the order in which they run. -/
def all : List LayerId :=
  [config, patterns, components, hydration, framework, testing, adaptive]

/-- The number of a layer, from one on. -/
def number : LayerId → Nat
  | config => 1
  | patterns => 2
  | components => 3
  | hydration => 4
  | framework => 5
  | testing => 6
  | adaptive => 7

def ofNumber? (n : Nat) : Option LayerId := all.find? (·.number == n)

def name : LayerId → String
  | config => "config"
  | patterns => "patterns"
  | components => "components"
  | hydration => "hydration"
  | framework => "framework"
  | testing => "testing"
  | adaptive => "adaptive"

/-- What a layer does. -/
def description : LayerId → String
  | config => "project configuration normalization"
  | patterns => "entity decoding, diagnostic removal, var to let"
  | components => "keys, required attributes, imports, effect cleanup"
  | hydration => "typeof guards around browser globals"
  | framework => "client directive and framework API migrations"
  | testing => "testing library imports and async tests"
  | adaptive => "learned rewrite rules"

/-- The number with the name. -/
def label (id : LayerId) : String := toString id.number ++ " (" ++ id.name ++ ")"

/-- The bit of a layer in a set of layers. -/
def flag (id : LayerId) : Nat := 1 <<< (id.number - 1)

end LayerId

/-- What a number that is no layer is answered with. -/
def unknownLayer (n : Nat) : String := "unknown layer " ++ toString n

/-- The layer of a number. -/
def LayerId.ofNumber (n : Nat) : Except String LayerId :=
  match LayerId.ofNumber? n with
  | some id => .ok id
  | none => .error (unknownLayer n)

/-- The layer in a document. -/
def LayerId.decode : Json.Decoder LayerId := fun v => do LayerId.ofNumber (← Json.Decode.byte v)

/-- The layers that a request runs: chosen by what the file holds, or listed. -/
inductive Selection where
  | auto
  | explicit (ids : List LayerId)
deriving DecidableEq, Repr, Inhabited

namespace Selection

/-- A number below 256, perhaps with a plus sign. -/
def byte? (cs : List Char) : Option Nat :=
  let digits := match cs with
    | '+' :: rest => rest
    | cs => cs
  if digits.isEmpty || !digits.all Char.isDigit then none
  else
    let n := digits.foldl (fun n c => n * 10 + (c.toNat - 48)) 0
    if n < 256 then some n else none

/-- The layer of a word in a list. -/
def word (cs : List Char) : Except String LayerId :=
  match (byte? cs).bind LayerId.ofNumber? with
  | some id => .ok id
  | none => .error ("unknown layer \x27" ++ String.ofList cs ++ "\x27")

/-- The selection of a text: `auto`, `all`, or numbers between commas. -/
def ofText (text : String) : Except String Selection :=
  let cs := Text.trim text.toList
  match String.ofList (cs.map Char.toLower) with
  | "auto" => .ok .auto
  | "all" => .ok (.explicit LayerId.all)
  | _ =>
    let words := ((Text.pieces ',' cs).map Text.trim).filter (!·.isEmpty)
    match words.mapM word with
    | .error e => .error e
    | .ok [] => .error "empty layer selection"
    | .ok ids => .ok (.explicit ids)

end Selection

end SourceRepair
