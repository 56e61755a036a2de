/-!
# Categories of failures

What a failure is about decides how grave it is and what is done about it.
-/

namespace SourceRepair.Recovery

inductive Category where
  | io | network | crypto | compression | validation | permission | capacity | memory | timeout
  | dataIntegrity | unknown
deriving DecidableEq, Repr, Inhabited

inductive Severity where
  | low | medium | high | critical
deriving DecidableEq, Repr, Inhabited

namespace Category

/-- All categories, in the order of their declaration. -/
def all : List Category :=
  [io, network, crypto, compression, validation, permission, capacity, memory, timeout,
    dataIntegrity, unknown]

def name : Category → String
  | io => "io"
  | network => "network"
  | crypto => "crypto"
  | compression => "compression"
  | validation => "validation"
  | permission => "permission"
  | capacity => "capacity"
  | memory => "memory"
  | timeout => "timeout"
  | dataIntegrity => "data-integrity"
  | unknown => "unknown"

/-- The category of a name. -/
def ofName? (s : String) : Option Category := all.find? (·.name == s)

/-- How grave failures of the category are. -/
def severity : Category → Severity
  | validation => .low
  | io | network | compression | timeout | unknown => .medium
  | permission | capacity => .high
  | crypto | memory | dataIntegrity => .critical

end Category

def Severity.name : Severity → String
  | low => "low"
  | medium => "medium"
  | high => "high"
  | critical => "critical"

end SourceRepair.Recovery
