import SourceRepair.Text.Span

/-!
# Byte offsets

Texts are lists of characters; places in them are counted in UTF-8 bytes. Only some offsets lie
between two characters.
-/

namespace SourceRepair.Text

/-- The length of a text in bytes. -/
def byteLength (cs : List Char) : Nat := cs.foldl (fun n c => n + c.utf8Size) 0

/-- Splits a text after the characters that lie wholly before an offset. -/
def splitAt : Nat → List Char → List Char × List Char
  | _, [] => ([], [])
  | n, c :: cs =>
    if c.utf8Size ≤ n then
      let (front, back) := splitAt (n - c.utf8Size) cs
      (c :: front, back)
    else ([], c :: cs)

/-- Splits a text at an offset that lies between two characters or at an end of the text. -/
def cut? (n : Nat) (cs : List Char) : Option (List Char × List Char) :=
  let parts := splitAt n cs
  if byteLength parts.1 == n then some parts else none

/-- The part of a text in a span, which is empty unless the span starts and ends between
characters. -/
def slice (cs : List Char) (span : Span) : List Char :=
  if span.start ≤ span.stop then
    match cut? span.start cs with
    | some (_, back) =>
      match cut? (span.stop - span.start) back with
      | some (part, _) => part
      | none => []
    | none => []
  else []

/-- `needle` stands somewhere in the text. -/
def holds (needle : List Char) : List Char → Bool
  | [] => needle.isEmpty
  | c :: cs => needle.isPrefixOf (c :: cs) || holds needle cs

/-- The pieces of a text between separators. -/
def pieces (sep : Char) : List Char → List (List Char)
  | [] => [[]]
  | c :: cs =>
    if c == sep then [] :: pieces sep cs
    else
      match pieces sep cs with
      | p :: ps => (c :: p) :: ps
      | [] => [[c]]

end SourceRepair.Text
