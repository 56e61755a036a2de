import SourceRepair.Json.Value
import SourceRepair.Recovery.Category

/-!
# Plans of recovery

Every category of failures has a first remedy, and a second one for when the first is used up.
-/

namespace SourceRepair.Recovery

/-- What is done instead of the operation that failed. -/
inductive Detour where
  /-- Work on the contents piece by piece. -/
  | stream
  /-- Write without compression. -/
  | uncompressed
  /-- Write to the other location. -/
  | alternateLocation
deriving DecidableEq, Repr, Inhabited

inductive Remedy where
  | retry (limit : Nat)
  | fallback (detour : Detour)
  | skip
  | abort
  | escalate
  | manualIntervention
deriving DecidableEq, Repr, Inhabited

structure Plan where
  primary : Remedy
  secondary : Remedy
deriving DecidableEq, Repr, Inhabited

namespace Detour

def name : Detour → String
  | stream => "stream"
  | uncompressed => "uncompressed"
  | alternateLocation => "alternate-location"

/-- The name as one word. -/
def label : Detour → String
  | stream => "Stream"
  | uncompressed => "Uncompressed"
  | alternateLocation => "AlternateLocation"

/-- The detour that takes the place of a retry on a machine under pressure. -/
def underPressure : Category → Detour
  | .memory => stream
  | .compression => uncompressed
  | _ => alternateLocation

end Detour

namespace Remedy

def label : Remedy → String
  | retry limit => "retry(x" ++ toString limit ++ ")"
  | fallback detour => "fallback(" ++ detour.label ++ ")"
  | skip => "skip"
  | abort => "abort"
  | escalate => "escalate"
  | manualIntervention => "manual-intervention"

def toJson : Remedy → Json.Value
  | retry limit => .object [("kind", .string "retry"), ("max_attempts", .nat limit)]
  | fallback detour => .object [("kind", .string "fallback"), ("action", .string detour.name)]
  | remedy => .object [("kind", .string remedy.label)]

end Remedy

/-- The plan of a category. -/
def Category.plan : Category → Plan
  | .io => ⟨.retry 3, .fallback .alternateLocation⟩
  | .network => ⟨.retry 5, .skip⟩
  | .crypto => ⟨.abort, .escalate⟩
  | .compression => ⟨.fallback .uncompressed, .skip⟩
  | .validation => ⟨.skip, .abort⟩
  | .permission => ⟨.fallback .alternateLocation, .manualIntervention⟩
  | .capacity => ⟨.fallback .alternateLocation, .escalate⟩
  | .memory => ⟨.fallback .stream, .abort⟩
  | .timeout => ⟨.retry 3, .skip⟩
  | .dataIntegrity => ⟨.abort, .escalate⟩
  | .unknown => ⟨.retry 1, .escalate⟩

/-- No plan retries more often than this. -/
def retryLimit : Nat := 5

end SourceRepair.Recovery
