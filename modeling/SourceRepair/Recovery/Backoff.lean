/-!
# Delays before a retry

The delay doubles with every attempt up to a maximum. A random part of at most a quarter is added, so
that callers that failed together do not come back together.
-/

namespace SourceRepair.Recovery

/-- A first delay and the longest one, in milliseconds. -/
structure Backoff where
  base : Nat
  longest : Nat
deriving DecidableEq, Repr, Inhabited

namespace Backoff

/-- The largest number of milliseconds that is counted to. -/
def ceiling : Nat := UInt64.size - 1

/-- The factor of an attempt, without ever computing a number of more than 64 bits. -/
def factor (attempt : Nat) : Nat := if attempt < 64 then 1 <<< attempt else ceiling

/-- The delay before attempt number `attempt` is repeated, without its random part. -/
def baseDelay (b : Backoff) (attempt : Nat) : Nat :=
  min (min (b.base * factor attempt) ceiling) b.longest

/-- The largest random part of a delay. -/
def spread (b : Backoff) (attempt : Nat) : Nat := b.baseDelay attempt / 4

/-- The delay with a random part. -/
def delay (b : Backoff) (attempt jitter : Nat) : Nat :=
  min (min (b.baseDelay attempt + jitter) ceiling) b.longest

end Backoff

end SourceRepair.Recovery
