/-!
# HTML entities

The entities of quotes and ampersands, and what they stand for.
-/

namespace SourceRepair.Text

/-- Replaces each entity, from left to right and each once. -/
def decodeEntities : List Char → List Char
  | '&' :: 'q' :: 'u' :: 'o' :: 't' :: ';' :: cs => '"' :: decodeEntities cs
  | '&' :: '#' :: 'x' :: '2' :: '7' :: ';' :: cs => '\x27' :: decodeEntities cs
  | '&' :: '#' :: '3' :: '9' :: ';' :: cs => '\x27' :: decodeEntities cs
  | '&' :: 'a' :: 'm' :: 'p' :: ';' :: cs => '&' :: decodeEntities cs
  | c :: cs => c :: decodeEntities cs
  | [] => []

/-- The text holds an entity. -/
def hasEntities : List Char → Bool
  | '&' :: 'q' :: 'u' :: 'o' :: 't' :: ';' :: _ => true
  | '&' :: '#' :: 'x' :: '2' :: '7' :: ';' :: _ => true
  | '&' :: '#' :: '3' :: '9' :: ';' :: _ => true
  | '&' :: 'a' :: 'm' :: 'p' :: ';' :: _ => true
  | _ :: cs => hasEntities cs
  | [] => false

/-- The quote of a literal, by its first character. -/
def quoteOf (raw : List Char) : Char := if raw.head? == some '\x27' then '\x27' else '"'

/-- Puts a backslash before each quote that has none. `escaped` says that the character before
is a backslash that escapes. -/
def escapeQuotes (quote : Char) : Bool → List Char → List Char
  | _, [] => []
  | escaped, c :: cs =>
    let rest := escapeQuotes quote (c == '\\' && !escaped) cs
    if c == quote && !escaped then '\\' :: c :: rest else c :: rest

/-- A string literal with its entities replaced, if it has any. -/
def decodeLiteral? (raw : List Char) : Option (List Char) :=
  if raw.length < 2 || !hasEntities raw then none
  else
    let quote := quoteOf raw
    some (quote :: escapeQuotes quote false (decodeEntities (raw.drop 1).dropLast) ++ [quote])

end SourceRepair.Text
