import SourceRepair.Text.Category

/-!
# JSON with comments

Files that configure a compiler may hold comments and a comma after the last item. Both are taken
out, and strings are left alone.
-/

namespace SourceRepair.Json

/-- What a reader that takes comments out is inside of. -/
inductive CommentState where
  | code
  | string
  | escape
  | line
  /-- A comment between `/*` and `*/`; a star was just read or not. -/
  | block (star : Bool)
deriving DecidableEq, Repr, Inhabited

/-- Takes out comments. The newline that ends one stays. -/
def stripComments : CommentState → List Char → List Char
  | .code, '/' :: '/' :: cs => stripComments .line cs
  | .code, '/' :: '*' :: cs => stripComments (.block false) cs
  | .code, '"' :: cs => '"' :: stripComments .string cs
  | .code, c :: cs => c :: stripComments .code cs
  | .string, '\\' :: cs => '\\' :: stripComments .escape cs
  | .string, '"' :: cs => '"' :: stripComments .code cs
  | .string, c :: cs => c :: stripComments .string cs
  | .escape, c :: cs => c :: stripComments .string cs
  | .line, '\n' :: cs => '\n' :: stripComments .code cs
  | .line, _ :: cs => stripComments .line cs
  | .block true, '/' :: cs => stripComments .code cs
  | .block _, c :: cs => stripComments (.block (c == '*')) cs
  | _, [] => []

/-- What a reader that takes commas out is inside of. -/
inductive CommaState where
  | code | string | escape
deriving DecidableEq, Repr, Inhabited

/-- The next character that is no white space closes a list. -/
def closesList (cs : List Char) : Bool :=
  match cs.dropWhile Text.isSpace with
  | c :: _ => c == '\x7d' || c == ']'
  | [] => false

/-- Takes out each comma that only white space separates from a closing bracket. -/
def stripCommas : CommaState → List Char → List Char
  | .code, '"' :: cs => '"' :: stripCommas .string cs
  | .code, ',' :: cs =>
    if closesList cs then stripCommas .code cs else ',' :: stripCommas .code cs
  | .code, c :: cs => c :: stripCommas .code cs
  | .string, '\\' :: cs => '\\' :: stripCommas .escape cs
  | .string, '"' :: cs => '"' :: stripCommas .code cs
  | .string, c :: cs => c :: stripCommas .string cs
  | .escape, c :: cs => c :: stripCommas .string cs
  | _, [] => []

/-- The text without comments and trailing commas. -/
def stripped (cs : List Char) : List Char := stripCommas .code (stripComments .code cs)

end SourceRepair.Json
