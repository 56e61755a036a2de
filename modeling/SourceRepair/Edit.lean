import SourceRepair.Change
import SourceRepair.Failure

/-!
# Edits

Edits replace ranges of a text or insert at offsets; they never move text. Where several edits meet
at one offset, the texts that close a wrapper come first, then plain insertions, then the texts that
open a wrapper, then the replacement that starts there. Wrappers nest by depth: the outer one opens
before and closes after the inner one.
-/

namespace SourceRepair

/-- The part an edit has at its offset, in the order of the parts. -/
inductive Anchor where
  | closing | plain | opening | replacing
deriving DecidableEq, Repr, Inhabited

def Anchor.rank : Anchor → Nat
  | closing => 0
  | plain => 1
  | opening => 2
  | replacing => 3

/-- Text that takes the place of a span. -/
structure Edit where
  span : Span
  text : String
  anchor : Anchor
  depth : Nat
deriving DecidableEq, Repr, Inhabited

namespace Edit

/-- Puts text in the place of a span. -/
def replace (span : Span) (text : String) : Edit :=
  ⟨span, text, if span.start == span.stop then .plain else .replacing, 0⟩

/-- Takes away a span. -/
def remove (span : Span) : Edit := replace span ""

/-- Puts text at an offset. -/
def insert (offset : Nat) (text : String) : Edit := ⟨.point offset, text, .plain, 0⟩

/-- Puts texts before and after a span. The depth of the wrapped node in its tree decides how
wrappers nest. -/
def wrap (span : Span) (before after : String) (depth : Nat) : List Edit :=
  [⟨.point span.start, before, .opening, depth⟩, ⟨.point span.stop, after, .closing, depth⟩]

/-- Of two edits at one offset with the same part, the first in the text is the one recorded first,
but among openings the outer one and among closings the inner one. -/
def tieLe (a b : Edit × Nat) : Bool :=
  match a.1.anchor with
  | .closing => b.1.depth < a.1.depth || (a.1.depth == b.1.depth && b.2 ≤ a.2)
  | .opening => a.1.depth < b.1.depth || (a.1.depth == b.1.depth && a.2 ≤ b.2)
  | _ => a.2 ≤ b.2

/-- The first edit comes no later in the text than the second. Each has its number among the
recorded edits. -/
def le (a b : Edit × Nat) : Bool :=
  a.1.span.start < b.1.span.start ||
    (a.1.span.start == b.1.span.start &&
      (a.1.anchor.rank < b.1.anchor.rank || (a.1.anchor.rank == b.1.anchor.rank && tieLe a b)))

/-- The edits in the order of the text. -/
def sorted (edits : List Edit) : List Edit := (edits.zipIdx.mergeSort le).map Prod.fst

/-- Splices sorted edits into the rest of a text, which starts at `cursor`. -/
def splice : List Edit → Nat → List Char → Except Failure (List Char)
  | [], _, rest => .ok rest
  | e :: es, cursor, rest =>
    if e.span.start < cursor then .error (.editConflict e.span.start)
    else
      match Text.cut? (e.span.start - cursor) rest with
      | none => .error (.editConflict e.span.start)
      | some (kept, rest) =>
        match Text.cut? (e.span.stop - e.span.start) rest with
        | none => .error (.editConflict e.span.start)
        | some (_, rest) => do
          let done ← splice es e.span.stop rest
          return kept ++ e.text.toList ++ done

/-- The text with all edits made. Two edits conflict when one starts inside the other, and an edit
must start and end between characters. -/
def applyAll (edits : List Edit) (source : String) : Except Failure String := do
  return String.ofList (← splice (sorted edits) 0 source.toList)

end Edit

/-- What a pass found: edits, changes with their offsets, and warnings. -/
structure Draft where
  edits : List Edit := []
  changes : List (ChangeKind × String × Nat) := []
  warnings : List String := []
deriving DecidableEq, Repr, Inhabited

namespace Draft

instance : Append Draft where
  append a b := ⟨a.edits ++ b.edits, a.changes ++ b.changes, a.warnings ++ b.warnings⟩

/-- All drafts, one after the other. -/
def join (ds : List Draft) : Draft :=
  ⟨ds.flatMap Draft.edits, ds.flatMap Draft.changes, ds.flatMap Draft.warnings⟩

/-- Some edits that make one change. -/
def change (edits : List Edit) (kind : ChangeKind) (description : String) (offset : Nat) : Draft :=
  ⟨edits, [(kind, description, offset)], []⟩

/-- The rewritten text with the locations of its changes. -/
def finish (d : Draft) (text : String) : Except Failure Rewrite := do
  let code ← if d.edits.isEmpty then .ok text else Edit.applyAll d.edits text
  let changes := d.changes.map fun (kind, description, offset) =>
    ⟨kind, description, some (Text.location text.toList offset)⟩
  return ⟨code, changes, d.warnings⟩

end Draft

end SourceRepair
