import SourceRepair.Failure
import SourceRepair.Pattern.Match
import SourceRepair.Pattern.Read

/-!
# The category of a failure

What is known about a failure from its kind comes first; its message is only searched for telling
words when the kind says nothing.
-/

namespace SourceRepair.Recovery

open Pattern

/-- Words that tell the category of a message, and their category. The first entry that occurs
decides. -/
def tellingWords : List (List String × Category) := [
  (["enospc", "no space left", "disk full", "quota exceeded"], .capacity),
  (["eacces", "eperm", "permission denied", "access denied", "read-only file system"], .permission),
  (["enomem", "out of memory", "heap limit", "allocation failed"], .memory),
  (["etimedout", "timed out", "timeout", "deadline exceeded"], .timeout),
  (["econnrefused", "econnreset", "ehostunreach", "enotfound", "network", "socket", "dns"],
    .network),
  (["checksum", "hash mismatch", "integrity", "corrupt"], .dataIntegrity),
  (["decrypt", "encrypt", "cipher", "signature", "certificate", "crypto"], .crypto),
  (["gzip", "deflate", "zlib", "brotli", "compress", "decompress"], .compression),
  (["invalid", "validation", "parse", "syntax", "unexpected token", "malformed"], .validation),
  (["enoent", "eexist", "eisdir", "enotdir", "ebusy", "emfile", "no such file", "i/o error"], .io)]

/-- One of the words, at the start of a word and in any case. -/
def wordsRegex (words : List String) : Regex :=
  .of ("(?i)\\b(" ++ String.intercalate "|" words ++ ")")

/-- The patterns of the telling words. -/
def messagePatterns : List (Regex × Category) :=
  tellingWords.map fun (words, category) => (wordsRegex words, category)

/-- The category that a message speaks of. -/
def categoryOfMessage (message : String) : Category :=
  match messagePatterns.find? fun (regex, _) => regex.isMatch message.toList with
  | some (_, category) => category
  | none => .unknown

/-- The category that a kind of fault belongs to by itself. -/
def categoryOfKind? : Disk.FaultKind → Option Category
  | .permissionDenied => some .permission
  | .timedOut => some .timeout
  | .outOfMemory => some .memory
  | .invalidData => some .dataIntegrity
  | .connectionRefused | .connectionReset | .connectionAborted | .notConnected | .addrInUse
  | .addrNotAvailable => some .network
  | .notFound | .alreadyExists | .interrupted | .unexpectedEof | .writeZero | .brokenPipe
  | .wouldBlock => some .io
  | _ => none

/-- The category of a fault of the disk: at least it is one of input and output. -/
def categoryOfFault (cause : Disk.Fault) : Category :=
  match categoryOfKind? cause.kind with
  | some category => category
  | none =>
    match categoryOfMessage cause.message with
    | .unknown => .io
    | category => category

/-- The category of a failure. -/
def categoryOf : Failure → Category
  | .permission _ _ => .permission
  | .capacity _ _ => .capacity
  | .integrity _ _ _ => .dataIntegrity
  | .parse _ _ | .validation _ _ | .editConflict _ | .serialization _ => .validation
  | .circuitOpen category => category
  | .filesystem _ cause => categoryOfFault cause
  | failure => categoryOfMessage failure.message

end SourceRepair.Recovery
