import SourceRepair.Json.Value
import SourceRepair.Text.Line

/-!
# Changes

What a repair did, where, and the text that came of it.
-/

namespace SourceRepair

inductive ChangeKind where
  | configNormalized | entityDecoded | diagnosticRemoved | keyAdded | attributeAdded | importAdded
  | importMerged | cleanupAdded | guardAdded | directivePlaced | apiMigrated | testScaffold
  | ruleApplied
deriving DecidableEq, Repr, Inhabited

namespace ChangeKind

/-- All kinds, in the order of their declaration. -/
def all : List ChangeKind :=
  [configNormalized, entityDecoded, diagnosticRemoved, keyAdded, attributeAdded, importAdded,
    importMerged, cleanupAdded, guardAdded, directivePlaced, apiMigrated, testScaffold, ruleApplied]

def name : ChangeKind → String
  | configNormalized => "config-normalized"
  | entityDecoded => "entity-decoded"
  | diagnosticRemoved => "diagnostic-removed"
  | keyAdded => "key-added"
  | attributeAdded => "attribute-added"
  | importAdded => "import-added"
  | importMerged => "import-merged"
  | cleanupAdded => "cleanup-added"
  | guardAdded => "guard-added"
  | directivePlaced => "directive-placed"
  | apiMigrated => "api-migrated"
  | testScaffold => "test-scaffold"
  | ruleApplied => "rule-applied"

end ChangeKind

/-- One entry of the record of changes. -/
structure Change where
  kind : ChangeKind
  description : String
  location : Option Text.Location
deriving DecidableEq, Repr, Inhabited

def locationJson (l : Text.Location) : Json.Value :=
  .object [("line", .nat l.line), ("column", .nat l.column)]

def Change.toJson (c : Change) : Json.Value :=
  .object ([("type", .string c.kind.name), ("description", .string c.description)] ++
    match c.location with
    | some l => [("location", locationJson l)]
    | none => [])

/-- What came of a pass over a text. -/
structure Rewrite where
  code : String
  changes : List Change := []
  warnings : List String := []
deriving DecidableEq, Repr, Inhabited

def Rewrite.toJson (r : Rewrite) : Json.Value :=
  .object [("code", .string r.code), ("changes", .array (r.changes.map Change.toJson)),
    ("warnings", .array (r.warnings.map .string))]

end SourceRepair
