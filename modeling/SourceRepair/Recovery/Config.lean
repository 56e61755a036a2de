import SourceRepair.Recovery.Resources

/-!
# How failures are handled

When a breaker opens and for how long, how long to wait before a retry, and what a machine under
pressure is.
-/

namespace SourceRepair.Recovery

/-- How failures are handled. Times are in milliseconds. -/
structure Config where
  failureThreshold : Nat := 5
  recoveryTimeout : Nat := 60000
  monitoringWindow : Nat := 300000
  baseDelay : Nat := 100
  maxDelay : Nat := 5000
  limits : Limits := {}
deriving DecidableEq, Inhabited

open Json

def Config.check (key : String) (v : Value) : Except String Unit :=
  match key with
  | "failureThreshold" => discard (Decode.size v)
  | "resourceLimits" => discard (Limits.decode v)
  | _ => discard (Decode.word64 v)

/-- How failures are handled, from a document. -/
def Config.decode : Decoder Config :=
  record "RecoveryConfig" ["failureThreshold", "recoveryTimeoutMs", "monitoringWindowMs",
    "baseDelayMs", "maxDelayMs", "resourceLimits"] Config.check fun f => do
      return {
        failureThreshold := ← f.withDefault "failureThreshold" Decode.size 5
        recoveryTimeout := ← f.withDefault "recoveryTimeoutMs" Decode.word64 60000
        monitoringWindow := ← f.withDefault "monitoringWindowMs" Decode.word64 300000
        baseDelay := ← f.withDefault "baseDelayMs" Decode.word64 100
        maxDelay := ← f.withDefault "maxDelayMs" Decode.word64 5000
        limits := ← f.withDefault "resourceLimits" Limits.decode {} }

def Config.toJson (c : Config) : Value :=
  .object [("failureThreshold", .nat c.failureThreshold),
    ("recoveryTimeoutMs", .nat c.recoveryTimeout), ("monitoringWindowMs", .nat c.monitoringWindow),
    ("baseDelayMs", .nat c.baseDelay), ("maxDelayMs", .nat c.maxDelay),
    ("resourceLimits", c.limits.toJson)]

end SourceRepair.Recovery
