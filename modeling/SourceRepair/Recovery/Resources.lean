import SourceRepair.Json.Decode
import SourceRepair.Json.Read
import SourceRepair.Text.Offset

/-!
# Resources

How much memory and time a machine has left, as the tables show it that the system keeps as text. Work is
not repeated on a machine under pressure.
-/

namespace SourceRepair.Recovery

/-- One look at the machine; what cannot be measured counts as healthy. -/
structure Snapshot where
  processMemory : Option Float := none
  systemMemory : Option Float := none
  load : Option Float := none
deriving DecidableEq, Inhabited

/-- The most that is healthy. -/
structure Limits where
  processMemory : Float := 0.8
  systemMemory : Float := 0.9
  load : Float := 2.0
deriving DecidableEq, Inhabited

/-- The value is known to exceed no limit. -/
def within (value : Option Float) (limit : Float) : Bool := value.all (· ≤ limit)

def Snapshot.isHealthy (s : Snapshot) (l : Limits) : Bool :=
  within s.processMemory l.processMemory && within s.systemMemory l.systemMemory &&
    within s.load l.load

open Json in
/-- Limits from a document; what is missing takes its default. -/
def Limits.decode : Decoder Limits :=
  record "ResourceLimits" ["maxProcessMemoryRatio", "maxSystemMemoryRatio", "maxLoadPerCpu"]
    (fun _ v => discard (Decode.float v)) fun f => do
      return ⟨← f.withDefault "maxProcessMemoryRatio" Decode.float 0.8,
        ← f.withDefault "maxSystemMemoryRatio" Decode.float 0.9,
        ← f.withDefault "maxLoadPerCpu" Decode.float 2.0⟩

open Json in
/-- A look at the machine from a document. -/
def Snapshot.decode : Decoder Snapshot :=
  record "ResourceSnapshot" ["processMemoryRatio", "systemMemoryRatio", "loadPerCpu"]
    (fun _ v => discard (Decode.option Decode.float v)) fun f => do
      return ⟨← f.optional "processMemoryRatio" Decode.float,
        ← f.optional "systemMemoryRatio" Decode.float, ← f.optional "loadPerCpu" Decode.float⟩

def Limits.toJson (l : Limits) : Json.Value :=
  .object [("maxProcessMemoryRatio", .float l.processMemory),
    ("maxSystemMemoryRatio", .float l.systemMemory), ("maxLoadPerCpu", .float l.load)]

/-! ### Tables -/

/-- The words of a line. -/
def wordsOf (line : List Char) : List (List Char) :=
  (line.splitBy fun a b => a.isWhitespace == b.isWhitespace).filter fun w => !w.any Char.isWhitespace

/-- The number that a word writes. -/
def numberOf? (word : List Char) : Option Float :=
  match (Json.read? (String.ofList word)).map Json.Decode.float with
  | some (.ok x) => some x
  | _ => none

/-- The first number behind a key in a table. -/
def field? (table key : String) : Option Float := do
  let line ← (Text.pieces '\n' table.toList).find? key.toList.isPrefixOf
  numberOf? (← (wordsOf (line.drop key.length)).head?)

/-- The share of a part in a whole, which must not be empty. -/
def share? (part whole : Option Float) : Option Float :=
  match part, whole with
  | some part, some whole => if 0.0 < whole then some (part / whole) else none
  | _, _ => none

/-- A look at the machine from the tables of memory, of the process and of the load. -/
def Snapshot.ofTables (memory process load : String) (processors : Nat) : Snapshot where
  processMemory := share? (field? process "VmRSS:") (field? memory "MemTotal:")
  systemMemory := (share? (field? memory "MemAvailable:") (field? memory "MemTotal:")).map (1.0 - ·)
  load := ((wordsOf load.toList).head?.bind numberOf?).map (· / Float.ofNat (max 1 processors))

end SourceRepair.Recovery
