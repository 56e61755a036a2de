import SourceRepair.Digest
import SourceRepair.Failure
import SourceRepair.Json.Decode
import SourceRepair.Json.Read

/-!
# Records of backups

A backup is a document that holds the content of a file with its digest. A record whose content has
another digest is never restored.
-/

namespace SourceRepair.Backup

open Json

structure Record where
  originalPath : Path
  /-- Milliseconds of the calendar. -/
  timestamp : Nat
  hash : String
  /-- What the backup was made for. -/
  operation : String
  content : String
deriving DecidableEq, Repr, Inhabited

/-- A backup without its content. -/
structure Info where
  path : Path
  timestamp : Nat
  hash : String
deriving DecidableEq, Repr, Inhabited

namespace Record

/-- The record of a content. -/
def ofContent (originalPath : Path) (timestamp : Nat) (operation content : String) : Record :=
  ⟨originalPath, timestamp, Digest.ofText content, operation, content⟩

/-- The content is the one that the digest was taken of. -/
def isIntact (r : Record) : Bool := Digest.ofText r.content == r.hash

def toJson (r : Record) : Value :=
  .object [("originalPath", .string r.originalPath.text), ("timestamp", .nat r.timestamp),
    ("hash", .string r.hash), ("operation", .string r.operation), ("content", .string r.content)]

def check (key : String) (v : Value) : Except String Unit :=
  match key with
  | "originalPath" => discard (Decode.path v)
  | "timestamp" => discard (Decode.word64 v)
  | _ => discard (Decode.string v)

def decode : Decoder Record :=
  record "BackupRecord" ["originalPath", "timestamp", "hash", "operation", "content"] check
    fun f => do
      return ⟨← f.required "originalPath" Decode.path, ← f.required "timestamp" Decode.word64,
        ← f.required "hash" Decode.string, ← f.required "operation" Decode.string,
        ← f.required "content" Decode.string⟩

/-- The text of a record on the disk. -/
def text (r : Record) : String := r.toJson.pretty

/-- The record of a text on the disk. -/
def ofText (s : String) : Except Failure Record :=
  match read? s with
  | none => .error (.serialization "the text is no JSON document")
  | some v =>
    match decode v with
    | .ok r => .ok r
    | .error message => .error (.serialization message)

end Record

def Info.toJson (i : Info) : Value :=
  .object [("backupPath", .string i.path.text), ("timestamp", .nat i.timestamp),
    ("hash", .string i.hash)]

end SourceRepair.Backup
