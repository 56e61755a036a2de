import SourceRepair.Text.Category
import SourceRepair.Text.Offset

/-!
# Lines

Lines end with a newline character. Offsets into a text are turned into lines and columns, and the
range that takes a statement away is widened to its line where it stands there alone.
-/

namespace SourceRepair.Text

/-- A line and a column, both counted from one; a column counts characters. -/
structure Location where
  line : Nat
  column : Nat
deriving DecidableEq, Repr, Inhabited

/-- The characters after the last newline. -/
def lastLine (cs : List Char) : List Char := (cs.reverse.takeWhile (· != '\n')).reverse

/-- The characters before the first newline. -/
def firstLine (cs : List Char) : List Char := cs.takeWhile (· != '\n')

/-- Blanks and tabs. -/
def isIndent (c : Char) : Bool := c == ' ' || c == '\t'

/-- All characters are white space. -/
def isBlank (cs : List Char) : Bool := cs.all isSpace

/-- The text without white space at its ends. -/
def trim (cs : List Char) : List Char :=
  ((cs.dropWhile isSpace).reverse.dropWhile isSpace).reverse

/-! ### Locations -/

/-- The offsets of the lines that start behind the newlines of a text that stands at an offset. -/
def startsBehind : Nat → List Char → List Nat
  | _, [] => []
  | n, c :: cs =>
    let next := n + c.utf8Size
    if c == '\n' then next :: startsBehind next cs else startsBehind next cs

/-- The offsets at which the lines of a text start, in ascending order. -/
structure LineIndex where
  starts : Array Nat
deriving DecidableEq, Repr, Inhabited

namespace LineIndex

def ofText (cs : List Char) : LineIndex := ⟨(0 :: startsBehind 0 cs).toArray⟩

/-- The start of a line, counted from zero. -/
def start (index : LineIndex) (line : Nat) : Nat := index.starts.getD line 0

/-- Halves the lines from `base` on, `size` of them, until one is left: the last of them that does not
start behind the offset, unless that is the case for all. -/
def narrow (index : LineIndex) (offset base size : Nat) : Nat :=
  if size ≤ 1 then base
  else
    let half := size / 2
    index.narrow offset (if offset < index.start (base + half) then base else base + half) (size - half)
termination_by size

/-- The line that starts at the offset, or else the place among the lines where such a line would have to
stand. -/
def search (index : LineIndex) (offset : Nat) : Except Nat Nat :=
  if index.starts.isEmpty then .error 0
  else
    let line := index.narrow offset 0 index.starts.size
    if index.start line == offset then .ok line
    else .error (if index.start line < offset then line + 1 else line)

/-- The line of an offset, counted from zero. -/
def line (index : LineIndex) (offset : Nat) : Nat :=
  match index.search offset with
  | .ok line => line
  | .error place => place - 1

/-- The location of an offset. An offset inside a character is put into the first column, and one behind
the text is put at its end. -/
def location (index : LineIndex) (cs : List Char) (offset : Nat) : Location :=
  let line := index.line offset
  let front := slice cs ⟨index.start line, min offset (byteLength cs)⟩
  ⟨line + 1, front.length + 1⟩

end LineIndex

/-- The location of an offset in a text. -/
def location (cs : List Char) (offset : Nat) : Location := (LineIndex.ofText cs).location cs offset

/-! ### Lines around an offset -/

/-- The offset at which the line of an offset starts. -/
def lineStart (cs : List Char) (offset : Nat) : Nat :=
  offset - byteLength (lastLine (splitAt offset cs).1)

/-- The blanks and tabs at the start of the line of an offset. -/
def lineIndent (cs : List Char) (offset : Nat) : List Char :=
  (splitAt (lineStart cs offset) cs).2.takeWhile isIndent

/-- The offset after the newline that ends the line of an offset. -/
def lineEndAfter (cs : List Char) (offset : Nat) : Nat :=
  let back := (splitAt offset cs).2
  let line := firstLine back
  offset + byteLength line + if line.length < back.length then 1 else 0

/-- The range to take away with a statement: the whole line of a statement that stands there
alone, and otherwise the statement with the blanks after it. -/
def removalRange (cs : List Char) (span : Span) : Span :=
  let before := lastLine (splitAt span.start cs).1
  let after := firstLine (splitAt span.stop cs).2
  if isBlank before && isBlank after then
    ⟨lineStart cs span.start, lineEndAfter cs span.stop⟩
  else ⟨span.start, span.stop + byteLength (after.takeWhile isIndent)⟩

end SourceRepair.Text
