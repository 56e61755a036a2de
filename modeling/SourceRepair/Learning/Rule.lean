import SourceRepair.Json.Value
import SourceRepair.Layer.Id
import SourceRepair.Learning.Dialect

/-!
# Learned rules

A rule with the confidence that it has gained. Each time a rule is observed again its confidence
rises by a fixed amount, up to one.
-/

namespace SourceRepair.Learning

structure Rule where
  /-- The source and the flags; rules with the same pattern are the same rule. -/
  pattern : String
  replacement : String
  confidence : Float
  /-- How often the rule was observed, counted in a word of 32 bits. -/
  frequency : UInt32
  layer : LayerId
  description : String
deriving DecidableEq, Inhabited

/-- The nearest number from zero to one. -/
def clampUnit (x : Float) : Float := if x < 0.0 then 0.0 else if 1.0 < x then 1.0 else x

/-- A rule that was observed once. -/
def Rule.observed (pattern replacement : String) (confidence : Float) (layer : LayerId)
    (description : String) : Rule :=
  ⟨pattern, replacement, clampUnit confidence, 1, layer, description⟩

/-- Raises a confidence, rounded to two places and at most one. -/
def reinforce (confidence delta : Float) : Float :=
  let raised := ((confidence + delta) * 100.0).round / 100.0
  if raised < 1.0 then raised else 1.0

def Rule.toJson (r : Rule) : Json.Value :=
  .object [("pattern", .string r.pattern), ("replacement", .string r.replacement),
    ("confidence", .float r.confidence), ("frequency", .nat r.frequency.toNat),
    ("layer", .nat r.layer.number), ("description", .string r.description)]

def Rule.check (key : String) (v : Json.Value) : Except String Unit :=
  match key with
  | "confidence" => discard (Json.Decode.float v)
  | "frequency" => discard (Json.Decode.word32 v)
  | "layer" => discard (LayerId.decode v)
  | _ => discard (Json.Decode.string v)

/-- The rule in a document. -/
def Rule.decode : Json.Decoder Rule :=
  Json.record "LearnedRule"
    ["pattern", "replacement", "confidence", "frequency", "layer", "description"] Rule.check
    fun f => do
      return {
        pattern := ← f.required "pattern" Json.Decode.string
        replacement := ← f.required "replacement" Json.Decode.string
        confidence := ← f.required "confidence" Json.Decode.float
        frequency := UInt32.ofNat (← f.required "frequency" Json.Decode.word32)
        layer := ← f.required "layer" LayerId.decode
        description := ← f.required "description" Json.Decode.string }

end SourceRepair.Learning
