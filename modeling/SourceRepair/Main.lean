import SourceRepair.Cli.Usage
import SourceRepair.Recovery.Resources
import Std.Time.DateTime.Timestamp

/-!
# The program

Programs run on the real machine, and the command line around them.
-/

namespace SourceRepair

open Disk

/-- The fault of an error number, which some calls give with a minus sign. -/
def faultOfCode (code : UInt32) : Fault :=
  .system (if 1 <<< 31 ≤ code.toNat then UInt32.size - code.toNat else code.toNat)

/-- The fault of an error of the system. -/
def faultOf : IO.Error → Fault
  | .alreadyExists _ code _ | .noFileOrDirectory _ code _ | .inappropriateType _ code _
  | .permissionDenied _ code _ | .resourceExhausted _ code _ | .invalidArgument _ code _
  | .noSuchThing _ code _ => faultOfCode code
  | .otherError code _ | .resourceBusy code _ | .resourceVanished code _
  | .unsupportedOperation code _ | .hardwareFault code _ | .unsatisfiedConstraints code _
  | .illegalOperation code _ | .protocolError code _ | .timeExpired code _ => faultOfCode code
  | .interrupted _ code _ => faultOfCode code
  | .unexpectedEof => .custom .unexpectedEof "unexpected end of file"
  | .userError message => .custom .other message

/-- Work whose error is a fault. -/
def attempting {α : Type} (work : IO α) : IO (Except Fault α) := do
  match ← work.toBaseIO with
  | .ok a => return .ok a
  | .error e => return .error (faultOf e)

/-- The text of a file of the system; none is empty. -/
def tableAt (path : String) : IO String := do
  match ← (IO.FS.readFile path).toBaseIO with
  | .ok text => return text
  | .error _ => return ""

/-- A look at the machine. -/
def sampleMachine : IO Recovery.Snapshot := do
  let processors := ((← tableAt "/proc/cpuinfo").splitOn "processor\t").length - 1
  return .ofTables (← tableAt "/proc/meminfo") (← tableAt "/proc/self/status")
    (← tableAt "/proc/loadavg") processors

/-- Text of 32 digits that nobody else makes up. -/
def makeNonce : IO String := do
  let bytes ← IO.getRandomBytes 16
  return String.ofList (bytes.toList.flatMap fun b =>
    [Nat.digitChar (b.toNat / 16), Nat.digitChar (b.toNat % 16)])

/-- What stands at a path. -/
def kindAt (path : String) : IO (Option NodeKind) := do
  let directory ← IO.currentDir
  match ← (directory / path).metadata.toBaseIO with
  | .error _ => return none
  | .ok found => return some (match found.type with | .dir => .directory | _ => .file)

/-- The names in a directory. -/
def namesAt (path : String) : IO (List String) := do
  let directory ← IO.currentDir
  return ((← (directory / path).readDir).map (·.fileName)).toList

/-- Performs an action on the real machine. -/
def performReal : (action : Action) → IO action.Reply
  | .now => IO.monoNanosNow
  | .calendar => do return (← Std.Time.Timestamp.now).toMillisecondsSinceUnixEpoch.val.toNat
  | .sample => sampleMachine
  | .random most => IO.rand 0 most
  | .pause milliseconds => IO.sleep milliseconds.toUInt32
  | .nonce => makeNonce
  | .currentDirectory => do return ⟨(← IO.currentDir).toString⟩
  | .kind path => kindAt path.text
  | .read path => attempting (IO.FS.readBinFile path.text)
  | .list path => attempting (namesAt path.text)
  | .makeDirectory path => attempting (IO.FS.createDir path.text)
  | .create path => attempting (IO.FS.writeBinFile path.text .empty)
  | .write path bytes => attempting (IO.FS.writeBinFile path.text bytes)
  | .sync _ => return .ok ()
  | .rename source target => attempting (IO.FS.rename source.text target.text)
  | .remove path => attempting (IO.FS.removeFile path.text)

/-- Runs a program on the real machine. -/
def runReal {α : Type} : Program α → IO α
  | .done a => return a
  | .step action next => do runReal (next (← performReal action))

/-- Runs the command line that some words write. -/
def runWords (words : List String) : IO UInt32 := do
  match Cli.Invocation.ofWords words with
  | .error fault =>
    if fault.exitCode = 0 then IO.print fault.message else IO.eprint fault.message
    return fault.exitCode.toUInt32
  | .ok invocation =>
    let temporary : Path := ⟨(← IO.getEnv "TMPDIR").getD "/tmp"⟩
    match ← runReal (invocation.run temporary).run with
    | .ok output =>
      IO.print output.text
      return output.code.toUInt32
    | .error trouble =>
      IO.eprint trouble.text
      return 2

end SourceRepair

def main (words : List String) : IO UInt32 := SourceRepair.runWords words
