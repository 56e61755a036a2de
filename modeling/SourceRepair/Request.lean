import SourceRepair.Json.Decode
import SourceRepair.Layer.Basic

/-!
# Requests and responses

What a caller asks for a file, and what the caller is told.
-/

namespace SourceRepair

open Json

structure Request where
  /-- The text to work on; the file is read when there is none. -/
  sourceText : Option String := none
  filePath : Path
  selection : Selection := .auto
  dryRun : Bool := false
  /-- Without this, changes are only reported. -/
  applyFixes : Bool := true
  verbose : Bool := false
deriving DecidableEq, Repr, Inhabited

structure Response where
  success : Bool
  filePath : Path
  code : String
  changeCount : Nat
  changes : List Change
  warnings : List String
  layers : List LayerResult
  error : Option FailureNote
deriving DecidableEq, Repr, Inhabited

/-- A response that only reports a failure. -/
def Response.failure (filePath : Path) (code : String) (error : FailureNote) : Response :=
  ⟨false, filePath, code, 0, [], [], [], some error⟩

/-! ### Decoding -/

/-- What is said of a selection that is neither words nor numbers. -/
def Selection.mismatch : String :=
  "data did not match any variant of untagged enum SelectionRepr"

/-- The layers that a document selects: words, or a list of numbers. -/
def Selection.decode : Decoder Selection
  | .string s => Selection.ofText s
  | .array vs =>
    match vs.mapM Decode.byte with
    | .error _ => .error Selection.mismatch
    | .ok ns => (ns.mapM LayerId.ofNumber).map Selection.explicit
  | _ => .error Selection.mismatch

def Request.check (key : String) (v : Value) : Except String Unit :=
  match key with
  | "sourceText" => discard (Decode.option Decode.string v)
  | "filePath" => discard (Decode.path v)
  | "layerSelection" => discard (Selection.decode v)
  | _ => discard (Decode.bool v)

/-- The request in a document. -/
def Request.decode : Decoder Request :=
  record "TransformRequest"
    ["sourceText", "filePath", "layerSelection", "dryRun", "applyFixes", "verbose"] Request.check
    fun f => do
      return {
        sourceText := ← f.withDefault "sourceText" (Decode.option Decode.string) none
        filePath := ← f.required "filePath" Decode.path
        selection := ← f.withDefault "layerSelection" Selection.decode .auto
        dryRun := ← f.withDefault "dryRun" Decode.bool false
        applyFixes := ← f.withDefault "applyFixes" Decode.bool true
        verbose := ← f.withDefault "verbose" Decode.bool false }

def locationDecode : Decoder Text.Location :=
  record "Location" ["line", "column"] (fun _ v => discard (Decode.word32 v)) fun f => do
    return ⟨← f.required "line" Decode.word32, ← f.required "column" Decode.word32⟩

def ChangeKind.decode : Decoder ChangeKind := Decode.variant ChangeKind.all ChangeKind.name

def Change.check (key : String) (v : Value) : Except String Unit :=
  match key with
  | "type" => discard (ChangeKind.decode v)
  | "description" => discard (Decode.string v)
  | _ => discard (Decode.option locationDecode v)

def Change.decode : Decoder Change :=
  record "Change" ["type", "description", "location"] Change.check fun f => do
    return ⟨← f.required "type" ChangeKind.decode, ← f.required "description" Decode.string,
      ← f.withDefault "location" (Decode.option locationDecode) none⟩

def FailureNote.decode : Decoder FailureNote :=
  record "ErrorInfo" ["kind", "message"] (fun _ v => discard (Decode.string v)) fun f => do
    return ⟨← f.required "kind" Decode.string, ← f.required "message" Decode.string⟩

def Strategy.decode : Decoder Strategy := Decode.variant Strategy.all Strategy.name

def LayerResult.check (key : String) (v : Value) : Except String Unit :=
  match key with
  | "layer" => discard (LayerId.decode v)
  | "success" => discard (Decode.bool v)
  | "changeCount" => discard (Decode.size v)
  | "changes" => discard (Decode.list Change.decode v)
  | "warnings" => discard (Decode.list Decode.string v)
  | "strategy" => discard (Strategy.decode v)
  | "error" => discard (Decode.option FailureNote.decode v)
  | "backupPath" => discard (Decode.option Decode.path v)
  | _ => discard (Decode.string v)

def LayerResult.decode : Decoder LayerResult :=
  record "LayerResult" ["layer", "name", "success", "code", "originalCode", "changeCount",
    "changes", "warnings", "strategy", "error", "backupPath"] LayerResult.check fun f => do
      return {
        layer := ← f.required "layer" LayerId.decode
        name := ← f.required "name" Decode.string
        success := ← f.required "success" Decode.bool
        code := ← f.required "code" Decode.string
        originalCode := ← f.required "originalCode" Decode.string
        changeCount := ← f.required "changeCount" Decode.size
        changes := ← f.required "changes" (Decode.list Change.decode)
        warnings := ← f.required "warnings" (Decode.list Decode.string)
        strategy := ← f.required "strategy" Strategy.decode
        error := ← f.withDefault "error" (Decode.option FailureNote.decode) none
        backupPath := ← f.withDefault "backupPath" (Decode.option Decode.path) none }

def Response.check (key : String) (v : Value) : Except String Unit :=
  match key with
  | "success" => discard (Decode.bool v)
  | "filePath" => discard (Decode.path v)
  | "code" => discard (Decode.string v)
  | "changeCount" => discard (Decode.size v)
  | "changes" => discard (Decode.list Change.decode v)
  | "warnings" => discard (Decode.list Decode.string v)
  | "layers" => discard (Decode.list LayerResult.decode v)
  | _ => discard (Decode.option FailureNote.decode v)

/-- The response in a document. -/
def Response.decode : Decoder Response :=
  record "TransformResponse" ["success", "filePath", "code", "changeCount", "changes", "warnings",
    "layers", "error"] Response.check fun f => do
      return {
        success := ← f.required "success" Decode.bool
        filePath := ← f.required "filePath" Decode.path
        code := ← f.required "code" Decode.string
        changeCount := ← f.required "changeCount" Decode.size
        changes := ← f.required "changes" (Decode.list Change.decode)
        warnings := ← f.required "warnings" (Decode.list Decode.string)
        layers := ← f.required "layers" (Decode.list LayerResult.decode)
        error := ← f.withDefault "error" (Decode.option FailureNote.decode) none }

/-! ### Encoding -/

def Selection.toJson : Selection → Value
  | .auto => .string "auto"
  | .explicit ids => .array (ids.map fun id => .nat id.number)

/-- The document of a request. -/
def Request.toJson (r : Request) : Value :=
  .object [("sourceText", Value.ofOption .string r.sourceText),
    ("filePath", .string r.filePath.text), ("layerSelection", r.selection.toJson),
    ("dryRun", .bool r.dryRun), ("applyFixes", .bool r.applyFixes), ("verbose", .bool r.verbose)]

/-- The document of a response. -/
def Response.toJson (r : Response) : Value :=
  .object ([("success", .bool r.success), ("filePath", .string r.filePath.text),
    ("code", .string r.code), ("changeCount", .nat r.changeCount),
    ("changes", .array (r.changes.map Change.toJson)),
    ("warnings", .array (r.warnings.map .string)),
    ("layers", .array (r.layers.map LayerResult.toJson))] ++
    r.error.toList.map fun e => ("error", e.toJson))

end SourceRepair
