import SourceRepair.Json.Write
import SourceRepair.Path
import SourceRepair.Text.Quoted

/-!
# Decoding JSON documents

A decoder turns a value into data or says what it expected. A record is decoded from an object, whose
unknown keys do not matter, or from an array that lists its fields.
-/

namespace SourceRepair.Json

abbrev Decoder (α : Type) := Value → Except String α

/-- What a value is, in the words of a message. -/
def Value.describe : Value → String
  | .null => "null"
  | .bool b => "boolean \x60" ++ (if b then "true" else "false") ++ "\x60"
  | .number (.int n) => "integer \x60" ++ toString n ++ "\x60"
  | .number (.float x) => "floating point \x60" ++ (Number.float x).text ++ "\x60"
  | .string s => "string " ++ Text.quoted s
  | .array _ => "sequence"
  | .object _ => "map"

/-- The value is of another type than expected. -/
def invalidType (v : Value) (expected : String) : String :=
  "invalid type: " ++ v.describe ++ ", expected " ++ expected

namespace Decode

def bool : Decoder Bool
  | .bool b => .ok b
  | v => .error (invalidType v "a boolean")

def string : Decoder String
  | .string s => .ok s
  | v => .error (invalidType v "a string")

def path : Decoder Path
  | .string s => .ok ⟨s⟩
  | v => .error (invalidType v "path string")

/-- An integer from zero up to a bound. -/
def nat (kind : String) (below : Nat) : Decoder Nat
  | .number (.int n) =>
    if 0 ≤ n && n < below then .ok n.toNat
    else
      .error ("invalid value: integer \x60" ++ toString n ++ "\x60, expected " ++ kind)
  | v => .error (invalidType v kind)

def size : Decoder Nat := nat "usize" UInt64.size

def word64 : Decoder Nat := nat "u64" UInt64.size

def word32 : Decoder Nat := nat "u32" UInt32.size

def byte : Decoder Nat := nat "u8" 256

def float : Decoder Float
  | .number (.float x) => .ok x
  | .number (.int n) => .ok (if 0 ≤ n then Float.ofNat n.toNat else -(Float.ofNat (-n).toNat))
  | v => .error (invalidType v "f64")

def option {α : Type} (decode : Decoder α) : Decoder (Option α)
  | .null => .ok none
  | v => (decode v).map some

def list {α : Type} (decode : Decoder α) : Decoder (List α)
  | .array vs => vs.mapM decode
  | v => .error (invalidType v "a sequence")

/-- The value of a name. -/
def ofName {α : Type} (all : List α) (name : α → String) (s : String) : Except String α :=
  match all.find? (name · == s) with
  | some a => .ok a
  | none =>
    let names := all.map fun a => "\x60" ++ name a ++ "\x60"
    .error ("unknown variant \x60" ++ s ++ "\x60, expected one of " ++ String.intercalate ", " names)

/-- One of some names. -/
def variant {α : Type} (all : List α) (name : α → String) : Decoder α
  | .string s => ofName all name s
  | .object [(s, .null)] => ofName all name s
  | .object [(_, v)] => .error (invalidType v "unit")
  | .object _ => .error "invalid value: map, expected map with a single key"
  | v => .error (invalidType v "string or map")

end Decode

/-- The fields of a record in a document: an object, or an array in the order of the names. -/
structure Fields where
  record : String
  names : List String
  members : Members
  fromArray : Bool

namespace Fields

/-- What is said of a field that is missing. -/
def missing (f : Fields) (key : String) : String :=
  if f.fromArray then
    "invalid length " ++ toString (f.names.idxOf key) ++ ", expected struct " ++ f.record ++ " with " ++
      toString f.names.length ++ " elements"
  else "missing field \x60" ++ key ++ "\x60"

/-- The value of a field that must be there. -/
def required {α : Type} (f : Fields) (key : String) (decode : Decoder α) : Except String α :=
  match f.members.get? key with
  | some v => decode v
  | none => .error (f.missing key)

/-- The value of a field, or another value when it is missing. -/
def withDefault {α : Type} (f : Fields) (key : String) (decode : Decoder α) (fallback : α) :
    Except String α :=
  match f.members.get? key with
  | some v => decode v
  | none => .ok fallback

/-- The value of a field that an object may leave out. -/
def optional {α : Type} (f : Fields) (key : String) (decode : Decoder α) :
    Except String (Option α) :=
  if f.fromArray then f.required key (Decode.option decode)
  else f.withDefault key (Decode.option decode) none

end Fields

/-- The first complaint about the members of an object, in their order. -/
def firstComplaint (names : List String) (check : String → Value → Except String Unit) :
    List String → Members → Except String Unit
  | _, [] => .ok ()
  | seen, (key, v) :: rest =>
    if !names.contains key then firstComplaint names check seen rest
    else if seen.contains key then .error ("duplicate field \x60" ++ key ++ "\x60")
    else
      match check key v with
      | .ok () => firstComplaint names check (key :: seen) rest
      | .error e => .error e

/-- Decodes a record. Members are checked in the order of the document; only then fields that are
missing are complained about. -/
def record {α : Type} (name : String) (names : List String)
    (check : String → Value → Except String Unit) (build : Fields → Except String α) : Decoder α
  | .object ms => do
    firstComplaint names check [] ms
    build ⟨name, names, ms, false⟩
  | .array vs => do
    let ms := names.zip vs
    firstComplaint names check [] ms
    let built ← build ⟨name, names, ms, true⟩
    if names.length < vs.length then
      .error ("invalid length " ++ toString vs.length ++ ", expected fewer elements in array")
    else return built
  | v => .error (invalidType v ("struct " ++ name))

end SourceRepair.Json
