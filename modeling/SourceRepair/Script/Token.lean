import SourceRepair.Text.Span

/-!
# Tokens of scripts

Words, literals and punctuation of JavaScript and TypeScript sources. Keywords are words; whether a
word is reserved is read off its text.
-/

namespace SourceRepair.Script

/-- Kinds of tokens. `invalid` marks text that is no token; `gt` is always a single `>`, and the
longer operators that start with it are read on request. -/
inductive Kind where
  | eof | invalid
  | word | privateName | string | number | bigint | regex | jsxText
  | templateWhole | templateHead | templateMiddle | templateTail
  | lbrace | rbrace | lparen | rparen | lbrack | rbrack
  | dot | ellipsis | semi | comma | colon | question | questionDot | coalesce | arrow | decorator
  | lt | gt | le | ge | eqEq | notEq | eqEqEq | notEqEq
  | plus | minus | star | slash | percent | starStar | plusPlus | minusMinus
  | shl | shr | ushr | amp | pipe | caret | bang | tilde | ampAmp | pipePipe
  | assign | plusAssign | minusAssign | starAssign | slashAssign | percentAssign | starStarAssign
  | shlAssign | shrAssign | ushrAssign | ampAssign | pipeAssign | caretAssign
  | ampAmpAssign | pipePipeAssign | coalesceAssign
deriving DecidableEq, Inhabited

/-- A token with the text around it: `source` is the input from its first character on, `rest` the
input after it. `text` is the name of a word, the value of a string and the text between two JSX
tags. `faults` counts what was wrong in the token and in the comments before it. -/
structure Token where
  kind : Kind
  span : Span
  text : String
  newlineBefore : Bool
  escaped : Bool
  wellEscaped : Bool
  faults : Nat
  source : List Char
  rest : List Char
deriving Inhabited

namespace Kind

def isAssignment : Kind → Bool
  | assign | plusAssign | minusAssign | starAssign | slashAssign | percentAssign | starStarAssign
  | shlAssign | shrAssign | ushrAssign | ampAssign | pipeAssign | caretAssign
  | ampAmpAssign | pipePipeAssign | coalesceAssign => true
  | _ => false

def isTemplateStart : Kind → Bool
  | templateWhole | templateHead => true
  | _ => false

end Kind

/-- Words that can never name a variable. -/
def reservedWords : List String := [
  "break", "case", "catch", "class", "const", "continue", "debugger", "default", "delete", "do",
  "else", "enum", "export", "extends", "false", "finally", "for", "function", "if", "import", "in",
  "instanceof", "new", "null", "return", "super", "switch", "this", "throw", "true", "try",
  "typeof", "var", "void", "while", "with"]

/-- Words with a meaning of their own in some place, reserved ones aside. -/
def contextualWords : List String := [
  "abstract", "accessor", "any", "as", "assert", "asserts", "async", "await", "bigint", "boolean",
  "constructor", "declare", "defer", "from", "get", "global", "implements", "infer", "interface",
  "intrinsic", "is", "keyof", "let", "meta", "module", "namespace", "never", "number", "object", "of",
  "out", "override", "package", "private", "protected", "public", "readonly", "require",
  "satisfies", "set", "source", "static", "string", "symbol", "target", "type", "undefined",
  "unique", "unknown", "using", "yield"]

namespace Token

/-- The token is a word with this text, written without escapes or with them. -/
def isWord (t : Token) (text : String) : Bool := t.kind == .word && t.text == text

/-- The token is any word, reserved or not. -/
def isName (t : Token) : Bool := t.kind == .word

/-- The token is a word that is not reserved, and so may name a variable. -/
def isIdentifier (t : Token) : Bool := t.kind == .word && !reservedWords.contains t.text

/-- The token is a keyword in some place. -/
def isKeyword (t : Token) : Bool :=
  t.kind == .word && (reservedWords.contains t.text || contextualWords.contains t.text)

end Token

end SourceRepair.Script
