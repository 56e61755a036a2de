/-!
# Spans

Ranges of a text, given by UTF-8 byte offsets.
-/

namespace SourceRepair

/-- The half-open range of byte offsets from `start` to `stop`. -/
structure Span where
  start : Nat
  stop : Nat
deriving DecidableEq, Repr, Inhabited

namespace Span

/-- The span covers `inner`. -/
def covers (outer inner : Span) : Bool := outer.start ≤ inner.start && inner.stop ≤ outer.stop

/-- The empty span at an offset. -/
def point (offset : Nat) : Span := ⟨offset, offset⟩

end Span

end SourceRepair
