import SourceRepair.Disk.Program

/-!
# A model of the disk

Files and directories by their location, and the directory in which relative paths start. Each
operation fails in the way the operating system does.
-/

namespace SourceRepair.Disk

/-- The names that lead from the root of the disk to a file or directory. -/
abbrev Location := List String

inductive Node where
  | file (bytes : ByteArray)
  | directory
deriving DecidableEq, Inhabited

def Node.kind : Node → NodeKind
  | file _ => .file
  | directory => .directory

structure Files where
  nodes : List (Location × Node) := []
  current : Location := []
deriving DecidableEq, Inhabited

namespace Files

/-- What stands at a location. The root is always a directory. -/
def get? (fs : Files) (l : Location) : Option Node :=
  if l.isEmpty then some .directory else fs.nodes.lookup l

/-- Nothing at a location any more. -/
def erase (fs : Files) (l : Location) : Files :=
  { fs with nodes := fs.nodes.filter fun e => e.1 != l }

/-- Puts a node at a location, in place of an earlier one. -/
def put (fs : Files) (l : Location) (n : Node) : Files :=
  { fs.erase l with nodes := (fs.erase l).nodes ++ [(l, n)] }

/-! ### Finding what a path means -/

/-- The longest name of a file, in bytes. -/
def nameLimit : Nat := 255

/-- One step from a directory. -/
def stepTo (l : Location) (piece : String) : Location :=
  if piece == "." then l else if piece == ".." then l.dropLast else l ++ [piece]

/-- Follows the pieces of a path. All but the last must be directories. -/
def follow (fs : Files) : Location → List String → Except Fault Location
  | l, [] => .ok l
  | l, piece :: rest =>
    match fs.get? l with
    | none => .error .notFound
    | some (.file _) => .error .notADirectory
    | some .directory =>
      if nameLimit < piece.utf8ByteSize then .error .nameTooLong
      else fs.follow (stepTo l piece) rest

/-- The pieces of a path between its slashes. -/
def piecesOf (p : Path) : List String :=
  ((Text.pieces '/' p.text.toList).filter (!·.isEmpty)).map String.ofList

/-- The location that a path means, whether or not there is something. -/
def locate (fs : Files) (p : Path) : Except Fault Location :=
  if p.text.isEmpty then .error .notFound
  else if p.text.toList.any (·.toNat == 0) then .error .nulInName
  else fs.follow (if p.isAbsolute then [] else fs.current) (piecesOf p)

/-- The path ends in a slash, so it can only mean a directory. -/
def endsInSlash (p : Path) : Bool := p.text.toList.getLast? == some '/'

/-- What stands at a path. -/
def find (fs : Files) (p : Path) : Except Fault (Location × Node) := do
  let l ← fs.locate p
  match fs.get? l with
  | none => .error .notFound
  | some (.file bytes) =>
    if endsInSlash p then .error .notADirectory else return (l, .file bytes)
  | some .directory => return (l, .directory)

/-! ### Operations -/

def kindAt (fs : Files) (p : Path) : Option NodeKind :=
  match fs.find p with
  | .ok (_, n) => some n.kind
  | .error _ => none

def read (fs : Files) (p : Path) : Except Fault ByteArray := do
  match (← fs.find p).2 with
  | .file bytes => return bytes
  | .directory => .error .isADirectory

/-- The names of what lies directly in a location. -/
def namesIn (fs : Files) (l : Location) : List String :=
  fs.nodes.filterMap fun (m, _) => if m.dropLast == l then m.getLast? else none

def list (fs : Files) (p : Path) : Except Fault (List String) := do
  match ← fs.find p with
  | (l, .directory) => return fs.namesIn l
  | (_, .file _) => .error .notADirectory

def makeDirectory (fs : Files) (p : Path) : Except Fault Files := do
  let l ← fs.locate p
  if (fs.get? l).isSome then .error .alreadyExists else return fs.put l .directory

def create (fs : Files) (p : Path) : Except Fault Files := do
  let l ← fs.locate p
  match fs.get? l with
  | some .directory => .error .isADirectory
  | some (.file _) => if endsInSlash p then .error .notADirectory else return fs.put l (.file .empty)
  | none => if endsInSlash p then .error .isADirectory else return fs.put l (.file .empty)

/-- Stores bytes in a file that is there. -/
def write (fs : Files) (p : Path) (bytes : ByteArray) : Except Fault Files := do
  match ← fs.find p with
  | (l, .file _) => return fs.put l (.file bytes)
  | (_, .directory) => .error .isADirectory

/-- The path ends in no name of its own. -/
def endsInDots (p : Path) : Bool :=
  match (piecesOf p).getLast? with
  | none => true
  | some piece => piece == "." || piece == ".."

/-- Moves a file to a path in one step, in place of a file that is there. -/
def rename (fs : Files) (source target : Path) : Except Fault Files := do
  let m ← fs.locate target
  if endsInDots target then .error .busy
  match ← fs.find source with
  | (_, .directory) => .error .busy
  | (l, .file bytes) =>
    if endsInSlash target then .error .notADirectory
    match fs.get? m with
    | some .directory => .error .isADirectory
    | _ => return if l == m then fs else (fs.erase l).put m (.file bytes)

def remove (fs : Files) (p : Path) : Except Fault Files := do
  match ← fs.find p with
  | (l, .file _) => return fs.erase l
  | (_, .directory) => .error .isADirectory

/-! ### Whole trees -/

/-- Removes a location and all that lies in it. -/
def eraseTree (fs : Files) (l : Location) : Files :=
  { fs with nodes := fs.nodes.filter fun e => !l.isPrefixOf e.1 }

/-- Makes all directories on the way to a location. -/
def ensure (fs : Files) (l : Location) : Files :=
  (List.range (l.length + 1)).foldl
    (fun fs n => if (fs.get? (l.take n)).isSome then fs else fs.put (l.take n) .directory) fs

/-- The files in a location, each by the names that lead to it from there. -/
def filesIn (fs : Files) (l : Location) : List (Location × ByteArray) :=
  fs.nodes.filterMap fun
    | (m, .file bytes) => if l.isPrefixOf m then some (m.drop l.length, bytes) else none
    | (_, .directory) => none

end Files

end SourceRepair.Disk
