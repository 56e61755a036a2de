import SourceRepair.Text.Offset

/-!
# Paths

A path is kept as it was written. Its components are what it means: repeated slashes and dots in the
middle say nothing, and two dots stay, because what they lead to depends on the disk.
-/

namespace SourceRepair

structure Path where
  text : String
deriving DecidableEq, Repr, Inhabited

/-- One step of a path. -/
inductive Component where
  | root
  /-- A single dot at the start of a relative path. -/
  | here
  | up
  | name (text : String)
deriving DecidableEq, Repr, Inhabited

def Component.text : Component → String
  | root => "/"
  | here => "."
  | up => ".."
  | name s => s

/-- Where a component stands among the other kinds. -/
def Component.rank : Component → Nat
  | root => 0
  | here => 1
  | up => 2
  | name _ => 3

/-- The order of components: by kind, then by name. -/
def Component.order (a b : Component) : Ordering :=
  (compare a.rank b.rank).then (compare a.text b.text)

namespace Path

/-- The component that a piece stands for, unless it says nothing. -/
def component? (piece : List Char) : Option Component :=
  if piece == [] || piece == ['.'] then none
  else if piece == ['.', '.'] then some .up
  else some (.name (String.ofList piece))

def isAbsolute (p : Path) : Bool := p.text.toList.head? == some '/'

/-- The components of a path, from the left. -/
def components (p : Path) : List Component :=
  let ps := Text.pieces '/' p.text.toList
  let rest := ps.filterMap component?
  if p.isAbsolute then .root :: rest
  else if ps.head? == some ['.'] then .here :: rest
  else rest

/-- The path of some components. -/
def ofComponents : List Component → Path
  | .root :: rest => ⟨"/" ++ String.intercalate "/" (rest.map Component.text)⟩
  | cs => ⟨String.intercalate "/" (cs.map Component.text)⟩

/-- The name at the end of the path. -/
def fileName? (p : Path) : Option String :=
  match p.components.getLast? with
  | some (.name s) => some s
  | _ => none

/-- A piece of a path that says nothing. -/
def isVoid (piece : List Char) : Bool := piece == [] || piece == ['.']

/-- The pieces up to the last that says something. -/
def trimVoid (ps : List (List Char)) : List (List Char) := (ps.reverse.dropWhile isVoid).reverse

/-- The pieces without the last that says something. -/
def dropLastPiece (ps : List (List Char)) : List (List Char) := trimVoid (trimVoid ps).dropLast

/-- Pieces with slashes between them. -/
def joinPieces (ps : List (List Char)) : String := String.ofList (List.intercalate ['/'] ps)

/-- The path without its last component, as it was written. -/
def parent? (p : Path) : Option Path :=
  match p.components.getLast?, Text.pieces '/' p.text.toList with
  | none, _ | some .root, _ | _, [] => none
  | some .here, _ => some ⟨""⟩
  | some _, first :: rest =>
    if p.isAbsolute then some ⟨"/" ++ joinPieces (dropLastPiece rest)⟩
    else if first == ['.'] then some ⟨joinPieces (first :: dropLastPiece rest)⟩
    else some ⟨joinPieces (dropLastPiece (first :: rest))⟩

/-- Up to `limit` times the parent, as long as it says something. -/
def parents : Nat → Path → List Path
  | 0, _ => []
  | limit + 1, p =>
    match p.parent? with
    | none => []
    | some q => if q.text == "" then [] else q :: parents limit q

/-- The path and what it lies in, from the inside. -/
def enclosing (p : Path) : List Path :=
  if p.text == "" then [] else p :: parents p.components.length p

/-- A name cut at its last dot, which must not be its first character. -/
def splitName (name : String) : String × Option String :=
  let cs := name.toList
  let back := cs.reverse
  let after := back.takeWhile (· != '.')
  let before := (back.drop (after.length + 1)).reverse
  if name == ".." || after.length == back.length || before.isEmpty then (name, none)
  else (String.ofList before, some (String.ofList after.reverse))

/-- The part of the name before its last dot. -/
def stem? (p : Path) : Option String := p.fileName?.map fun n => (splitName n).1

/-- The part of the name after its last dot. -/
def extension? (p : Path) : Option String := p.fileName?.bind fun n => (splitName n).2

/-- What `p` means inside the directory `base`. -/
def join (base p : Path) : Path :=
  if p.isAbsolute || base.text == "" then p
  else if base.text.toList.getLast? == some '/' then ⟨base.text ++ p.text⟩
  else ⟨base.text ++ "/" ++ p.text⟩

/-- The path from the directory `base` to `p`, which must lie in it. -/
def relativeTo? (p base : Path) : Option Path :=
  let cs := p.components
  let bs := base.components
  if bs.isPrefixOf cs then some (ofComponents (cs.drop bs.length)) else none

/-- The order of two lists of components. -/
def orderComponents : List Component → List Component → Ordering
  | [], [] => .eq
  | [], _ :: _ => .lt
  | _ :: _, [] => .gt
  | a :: as, b :: bs => (a.order b).then (orderComponents as bs)

/-- The order of paths, component by component. -/
def order (p q : Path) : Ordering := orderComponents p.components q.components

/-- Paths in order; those that mean the same stay as they stood. -/
def sort (ps : List Path) : List Path := ps.mergeSort fun p q => (p.order q).isLE

/-- Leaves out what means the same as the path before it. -/
def dropRepeats : List Path → List Path
  | [] => []
  | p :: ps => p :: (dropRepeats ps).dropWhile fun q => q.components == p.components

end Path

end SourceRepair
