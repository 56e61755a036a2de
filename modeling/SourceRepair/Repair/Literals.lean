import SourceRepair.Repair.Basic
import SourceRepair.Script.Walk
import SourceRepair.Text.Entity

/-!
# Entities in string literals

A string literal that holds HTML entities is written with the characters they stand for.
-/

namespace SourceRepair.Repair

/-- The spans of string literals that stand as expressions. -/
def literalSpans (p : Script.Program) : List Span :=
  p.walk.filterMap fun v =>
    match v.node with
    | .tree .expression (.string _ span) => some span
    | _ => none

def decodeEntities : Repair where
  name := "decode-entities"
  draft src :=
    .join ((literalSpans src.program).filterMap fun span =>
      (Text.decodeLiteral? (Text.slice src.text span)).map fun decoded =>
        .change [.replace span (String.ofList decoded)] .entityDecoded
          "decoded HTML entities in a string literal" span.start)

end SourceRepair.Repair
