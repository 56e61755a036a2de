import SourceRepair.Text.Category
import SourceRepair.Script.Token

/-!
# Reading tokens

One token at a time is read from the characters that are left. How a character is read can depend
on the place in the grammar, so regular expressions, the later pieces of templates and the text of
JSX elements have readers of their own.
-/

namespace SourceRepair.Script

open SourceRepair.Text (isIdentifierStart isIdentifierPart)

/-! ### Characters -/

def hexValue? (c : Char) : Option Nat :=
  if '0' ≤ c ∧ c ≤ '9' then some (c.toNat - 48)
  else if 'a' ≤ c ∧ c ≤ 'f' then some (c.toNat - 87)
  else if 'A' ≤ c ∧ c ≤ 'F' then some (c.toNat - 55)
  else none

/-- The value of a string of hexadecimal digits. -/
def hexNumber? : List Char → Nat → Option Nat
  | [], n => some n
  | c :: cs, n => (hexValue? c).bind fun d => hexNumber? cs (n * 16 + d)

/-- Characters that end a line. -/
def isLineEnd (c : Char) : Bool :=
  c == '\n' || c == '\r' || c.toNat == 0x2028 || c.toNat == 0x2029

/-- Blanks between tokens that do not end a line. -/
def isBlank (c : Char) : Bool :=
  let n := c.toNat
  n == 0x20 || n == 9 || n == 0xB || n == 0xC || n == 0x85 || n == 0xA0 || n == 0x1680 ||
    (0x2000 ≤ n && n ≤ 0x200B) || n == 0x202F || n == 0x205F || n == 0x3000 || n == 0xFEFF

/-! ### Blanks and comments -/

/-- Where the next token starts, whether a line ended on the way, and whether a comment was left
open. -/
structure Gap where
  rest : List Char
  offset : Nat
  newline : Bool
  unclosed : Bool

/-- What a reader of blanks is inside of. -/
inductive GapState where
  | between | lineComment | blockComment
deriving DecidableEq

/-- Skips blanks and comments. In a script that is no module, `<!--` and a `-->` that begins a line
also start a comment. -/
def skipGap (sloppy : Bool) : GapState → List Char → Nat → Bool → Gap
  | .blockComment, [], offset, newline => ⟨[], offset, newline, true⟩
  | _, [], offset, newline => ⟨[], offset, newline, false⟩
  | .lineComment, c :: cs, offset, newline =>
    if isLineEnd c then skipGap sloppy .between cs (offset + c.utf8Size) true
    else skipGap sloppy .lineComment cs (offset + c.utf8Size) newline
  | .blockComment, c :: cs, offset, newline =>
    match c, cs with
    | '*', '/' :: cs' => skipGap sloppy .between cs' (offset + 2) newline
    | _, tail => skipGap sloppy .blockComment tail (offset + c.utf8Size) (newline || isLineEnd c)
  | .between, c :: cs, offset, newline =>
    if isLineEnd c then skipGap sloppy .between cs (offset + c.utf8Size) true
    else if isBlank c then skipGap sloppy .between cs (offset + c.utf8Size) newline
    else
      match c, cs with
      | '/', '/' :: cs' => skipGap sloppy .lineComment cs' (offset + 2) newline
      | '/', '*' :: cs' => skipGap sloppy .blockComment cs' (offset + 2) newline
      | '<', '!' :: '-' :: '-' :: cs' =>
        if sloppy then skipGap sloppy .lineComment cs' (offset + 4) newline
        else ⟨c :: cs, offset, newline, false⟩
      | '-', '-' :: '>' :: cs' =>
        if sloppy && newline then skipGap sloppy .lineComment cs' (offset + 3) newline
        else ⟨c :: cs, offset, newline, false⟩
      | _, _ => ⟨c :: cs, offset, newline, false⟩

/-! ### Words -/

/-- What a reader found: the kind, the text, the end, and whether escapes occurred and were all
well formed. -/
structure Lexeme where
  kind : Kind
  text : String
  stop : Nat
  rest : List Char
  escaped : Bool := false
  wellEscaped : Bool := true
  faults : Nat := 0
deriving Inhabited

/-- The text collected in reverse. -/
def collected (acc : List Char) : String := String.ofList acc.reverse

/-- Reads a word. `brace?` holds the digits of a `\u{…}` escape that is being read. -/
def scanWord : List Char → Nat → List Char → Bool → Bool → Option (List Char) → Lexeme
  | [], stop, acc, escaped, fine, brace? =>
    let fine := fine && brace?.isNone
    ⟨if fine then .word else .invalid, collected acc, stop, [], escaped, fine, if fine then 0 else 1⟩
  | c :: cs, stop, acc, _, fine, some digits =>
    if c == '\x7d' then
      match hexNumber? digits.reverse 0 with
      | some n =>
        let d := Char.ofNat n
        scanWord cs (stop + 1) (d :: acc) true (fine && !digits.isEmpty && isIdentifierPart d) none
      | none => scanWord cs (stop + 1) acc true false none
    else if (hexValue? c).isSome then scanWord cs (stop + 1) acc true fine (some (c :: digits))
    else ⟨.invalid, collected acc, stop, c :: cs, true, false, 1⟩
  | c :: cs, stop, acc, escaped, fine, none =>
    if isIdentifierPart c then scanWord cs (stop + c.utf8Size) (c :: acc) escaped fine none
    else
      match c, cs with
      | '\\', 'u' :: '\x7b' :: cs' => scanWord cs' (stop + 3) acc true fine (some [])
      | '\\', 'u' :: h₁ :: h₂ :: h₃ :: h₄ :: cs' =>
        match hexNumber? [h₁, h₂, h₃, h₄] 0 with
        | some n =>
          let d := Char.ofNat n
          scanWord cs' (stop + 6) (d :: acc) true (fine && isIdentifierPart d) none
        | none => ⟨.invalid, collected acc, stop, c :: cs, true, false, 1⟩
      | '\\', _ => ⟨.invalid, collected acc, stop, c :: cs, true, false, 1⟩
      | _, _ =>
        ⟨if fine then .word else .invalid, collected acc, stop, c :: cs, escaped, fine,
          if fine then 0 else 1⟩

/-! ### Strings -/

/-- The character a one-letter escape stands for. -/
def simpleEscape (c : Char) : Char :=
  match c with
  | 'n' => '\n'
  | 't' => '\t'
  | 'r' => '\r'
  | 'b' => Char.ofNat 8
  | 'v' => Char.ofNat 11
  | 'f' => Char.ofNat 12
  | c => c

/-- Octal digits have a value below eight. -/
def octalValue? (c : Char) : Option Nat :=
  if '0' ≤ c ∧ c ≤ '7' then some (c.toNat - 48) else none

/-- Reads a string literal after its opening quote. A line end inside it leaves it open. -/
def scanString (quote : Char) : List Char → Nat → List Char → Nat → Option (List Char) → Lexeme
  | [], stop, acc, faults, _ => ⟨.invalid, collected acc, stop, [], false, true, faults + 1⟩
  | c :: cs, stop, acc, faults, some digits =>
    if c == '\x7d' then
      match hexNumber? digits.reverse 0 with
      | some n =>
        let bad := digits.isEmpty || 0x10FFFF < n
        scanString quote cs (stop + 1) (Char.ofNat n :: acc) (if bad then faults + 1 else faults) none
      | none => scanString quote cs (stop + 1) acc (faults + 1) none
    else if (hexValue? c).isSome then
      scanString quote cs (stop + 1) acc faults (some (c :: digits))
    else if c == quote then
      ⟨.string, collected acc, stop + 1, cs, true, false, faults + 1⟩
    else scanString quote cs (stop + c.utf8Size) acc (faults + 1) none
  | c :: cs, stop, acc, faults, none =>
    if c == quote then ⟨.string, collected acc, stop + 1, cs, false, true, faults⟩
    else if c == '\n' || c == '\r' then ⟨.invalid, collected acc, stop, c :: cs, false, true, faults + 1⟩
    else if c == '\\' then
      match cs with
      | [] => ⟨.invalid, collected acc, stop + 1, [], true, true, faults + 1⟩
      | '\r' :: '\n' :: cs' => scanString quote cs' (stop + 3) acc faults none
      | 'x' :: h₁ :: h₂ :: cs' =>
        match hexNumber? [h₁, h₂] 0 with
        | some n => scanString quote cs' (stop + 4) (Char.ofNat n :: acc) faults none
        | none => scanString quote (h₁ :: h₂ :: cs') (stop + 2) acc (faults + 1) none
      | 'u' :: '\x7b' :: cs' => scanString quote cs' (stop + 3) acc faults (some [])
      | 'u' :: h₁ :: h₂ :: h₃ :: h₄ :: cs' =>
        match hexNumber? [h₁, h₂, h₃, h₄] 0 with
        | some n => scanString quote cs' (stop + 6) (Char.ofNat n :: acc) faults none
        | none => scanString quote (h₁ :: h₂ :: h₃ :: h₄ :: cs') (stop + 2) acc (faults + 1) none
      | e :: cs' =>
        if isLineEnd e then scanString quote cs' (stop + 1 + e.utf8Size) acc faults none
        else if e == 'x' || e == 'u' then scanString quote cs' (stop + 2) acc (faults + 1) none
        else
          match octalValue? e with
          | some n => scanString quote cs' (stop + 2) (Char.ofNat n :: acc) faults none
          | none => scanString quote cs' (stop + 1 + e.utf8Size) (simpleEscape e :: acc) faults none
    else scanString quote cs (stop + c.utf8Size) (c :: acc) faults none

/-- Reads the value of a JSX attribute after its opening quote: no escapes, and lines may end in
it. -/
def scanJsxString (quote : Char) : List Char → Nat → List Char → Lexeme
  | [], stop, acc => ⟨.invalid, collected acc, stop, [], false, true, 1⟩
  | c :: cs, stop, acc =>
    if c == quote then ⟨.string, collected acc, stop + 1, cs, false, true, 0⟩
    else scanJsxString quote cs (stop + c.utf8Size) (c :: acc)

/-! ### Templates -/

/-- Reads a piece of a template. `fine` says whether all escapes so far were well formed, `brace?`
holds the digits of a `\u{…}` escape that is being read. `opened` and `closed` are the kinds of a
piece that is followed by an expression and of one that is not. -/
def scanTemplate (opened closed : Kind) : List Char → Nat → Bool → Option (List Char) → Lexeme
  | [], stop, fine, _ => ⟨.invalid, "", stop, [], false, fine, 1⟩
  | c :: cs, stop, fine, some digits =>
    if c == '\x7d' then
      let good := !digits.isEmpty && ((hexNumber? digits.reverse 0).any (· ≤ 0x10FFFF))
      scanTemplate opened closed cs (stop + 1) (fine && good) none
    else if (hexValue? c).isSome then
      scanTemplate opened closed cs (stop + 1) fine (some (c :: digits))
    else if c == '\x60' then ⟨closed, "", stop + 1, cs, true, false, 0⟩
    else scanTemplate opened closed cs (stop + c.utf8Size) false none
  | c :: cs, stop, fine, none =>
    if c == '\x60' then ⟨closed, "", stop + 1, cs, false, fine, 0⟩
    else
      match c, cs with
      | '$', '\x7b' :: cs' => ⟨opened, "", stop + 2, cs', false, fine, 0⟩
      | '\\', 'u' :: '\x7b' :: cs' => scanTemplate opened closed cs' (stop + 3) fine (some [])
      | '\\', 'u' :: h₁ :: h₂ :: h₃ :: h₄ :: cs' =>
        if (hexNumber? [h₁, h₂, h₃, h₄] 0).isSome then
          scanTemplate opened closed cs' (stop + 6) fine none
        else scanTemplate opened closed (h₁ :: h₂ :: h₃ :: h₄ :: cs') (stop + 2) false none
      | '\\', 'x' :: h₁ :: h₂ :: cs' =>
        if (hexNumber? [h₁, h₂] 0).isSome then scanTemplate opened closed cs' (stop + 4) fine none
        else scanTemplate opened closed (h₁ :: h₂ :: cs') (stop + 2) false none
      | '\\', '0' :: d :: cs' =>
        scanTemplate opened closed (d :: cs') (stop + 2) (fine && !d.isDigit) none
      | '\\', e :: cs' =>
        let good := e != 'x' && e != 'u' && !('1' ≤ e && e ≤ '9')
        scanTemplate opened closed cs' (stop + 1 + e.utf8Size) (fine && good) none
      | _, tail => scanTemplate opened closed tail (stop + c.utf8Size) fine none

/-! ### Numbers -/

/-- Digits with separators: what was read, what is left, and whether every separator stands between
two digits. -/
def scanDigits (isDigit : Char → Bool) (cs : List Char) : Nat × List Char × Bool :=
  let run := cs.takeWhile fun c => isDigit c || c == '_'
  let doubled := (run.zip (run.drop 1)).any fun (a, b) => a == '_' && b == '_'
  let loose := run.head?.any (· == '_') || run.getLast?.any (· == '_')
  (run.length, cs.drop run.length, !(doubled || loose))

/-- The exponent of a number, if there is one. -/
def scanExponent (cs : List Char) : Nat × List Char × Bool :=
  match cs with
  | e :: cs' =>
    if e == 'e' || e == 'E' then
      let (sign, digits) :=
        match cs' with
        | '+' :: r => (1, r)
        | '-' :: r => (1, r)
        | r => (0, r)
      let (n, rest, fine) := scanDigits Char.isDigit digits
      (1 + sign + n, rest, fine && 0 < n)
    else (0, cs, true)
  | [] => (0, cs, true)

/-- Ends a number at `rest`: a letter or digit may not follow it directly. -/
def endNumber (kind : Kind) (stop : Nat) (rest : List Char) (fine : Bool) : Lexeme :=
  let faults := if fine then 0 else 1
  match rest with
  | c :: _ =>
    if isIdentifierStart c || c.isDigit || c == '\\' then ⟨.invalid, "", stop, rest, false, true, faults + 1⟩
    else ⟨kind, "", stop, rest, false, true, faults⟩
  | [] => ⟨kind, "", stop, rest, false, true, faults⟩

/-- A number in a base with a letter, after that letter. -/
def scanRadix (isDigit : Char → Bool) (cs : List Char) (start : Nat) : Lexeme :=
  let (n, rest, fine) := scanDigits isDigit cs
  match rest with
  | 'n' :: rest' => endNumber .bigint (start + n + 1) rest' (fine && 0 < n)
  | _ => endNumber .number (start + n) rest (fine && 0 < n)

/-- A number from its first digit or its point on. -/
def scanNumber (cs : List Char) (start : Nat) : Lexeme :=
  match cs with
  | '0' :: 'x' :: r => scanRadix (fun c => (hexValue? c).isSome) r (start + 2)
  | '0' :: 'X' :: r => scanRadix (fun c => (hexValue? c).isSome) r (start + 2)
  | '0' :: 'o' :: r => scanRadix (fun c => (octalValue? c).isSome) r (start + 2)
  | '0' :: 'O' :: r => scanRadix (fun c => (octalValue? c).isSome) r (start + 2)
  | '0' :: 'b' :: r => scanRadix (fun c => c == '0' || c == '1') r (start + 2)
  | '0' :: 'B' :: r => scanRadix (fun c => c == '0' || c == '1') r (start + 2)
  | _ =>
    let (whole, afterWhole, wholeFine) := scanDigits Char.isDigit cs
    match afterWhole with
    | 'n' :: r => endNumber .bigint (start + whole + 1) r wholeFine
    | '.' :: r =>
      let (part, afterPart, partFine) := scanDigits Char.isDigit r
      let (exponent, rest, exponentFine) := scanExponent afterPart
      endNumber .number (start + whole + 1 + part + exponent) rest
        (wholeFine && partFine && exponentFine)
    | _ =>
      let (exponent, rest, exponentFine) := scanExponent afterWhole
      endNumber .number (start + whole + exponent) rest (wholeFine && exponentFine)

/-! ### Regular expressions -/

/-- The flags of a regular expression. -/
def regexFlags : List Char := ['g', 'i', 'm', 's', 'u', 'y', 'd', 'v']

/-- Reads the flags of a regular expression. -/
def scanRegexFlags : List Char → Nat → List Char → Nat → Lexeme
  | [], stop, _, faults => ⟨.regex, "", stop, [], false, true, faults⟩
  | c :: cs, stop, seen, faults =>
    if isIdentifierPart c then
      let bad := !regexFlags.contains c || seen.contains c
      scanRegexFlags cs (stop + c.utf8Size) (c :: seen) (if bad then faults + 1 else faults)
    else ⟨.regex, "", stop, c :: cs, false, true, faults⟩

/-- Reads a regular expression after its first slash. -/
def scanRegex : List Char → Nat → Bool → Lexeme
  | [], stop, _ => ⟨.invalid, "", stop, [], false, true, 1⟩
  | c :: cs, stop, inClass =>
    if isLineEnd c then ⟨.invalid, "", stop, c :: cs, false, true, 1⟩
    else
      match c, cs with
      | '\\', e :: cs' =>
        if isLineEnd e then ⟨.invalid, "", stop + 1, e :: cs', false, true, 1⟩
        else scanRegex cs' (stop + 1 + e.utf8Size) inClass
      | _, tail =>
        if c == '[' then scanRegex tail (stop + 1) true
        else if c == ']' then scanRegex tail (stop + 1) false
        else if c == '/' && !inClass then scanRegexFlags tail (stop + 1) [] 0
        else scanRegex tail (stop + c.utf8Size) inClass

/-! ### Punctuation -/

/-- The longest punctuation at the start of the text, with its length. A `>` stands alone. -/
def punctuation? : List Char → Option (Kind × Nat)
  | '\x7b' :: _ => some (.lbrace, 1)
  | '\x7d' :: _ => some (.rbrace, 1)
  | '(' :: _ => some (.lparen, 1)
  | ')' :: _ => some (.rparen, 1)
  | '[' :: _ => some (.lbrack, 1)
  | ']' :: _ => some (.rbrack, 1)
  | '.' :: '.' :: '.' :: _ => some (.ellipsis, 3)
  | '.' :: _ => some (.dot, 1)
  | ';' :: _ => some (.semi, 1)
  | ',' :: _ => some (.comma, 1)
  | ':' :: _ => some (.colon, 1)
  | '?' :: '?' :: '=' :: _ => some (.coalesceAssign, 3)
  | '?' :: '?' :: _ => some (.coalesce, 2)
  | '?' :: '.' :: c :: _ => if c.isDigit then some (.question, 1) else some (.questionDot, 2)
  | '?' :: '.' :: [] => some (.questionDot, 2)
  | '?' :: _ => some (.question, 1)
  | '<' :: '<' :: '=' :: _ => some (.shlAssign, 3)
  | '<' :: '<' :: _ => some (.shl, 2)
  | '<' :: '=' :: _ => some (.le, 2)
  | '<' :: _ => some (.lt, 1)
  | '>' :: _ => some (.gt, 1)
  | '=' :: '=' :: '=' :: _ => some (.eqEqEq, 3)
  | '=' :: '=' :: _ => some (.eqEq, 2)
  | '=' :: '>' :: _ => some (.arrow, 2)
  | '=' :: _ => some (.assign, 1)
  | '!' :: '=' :: '=' :: _ => some (.notEqEq, 3)
  | '!' :: '=' :: _ => some (.notEq, 2)
  | '!' :: _ => some (.bang, 1)
  | '+' :: '+' :: _ => some (.plusPlus, 2)
  | '+' :: '=' :: _ => some (.plusAssign, 2)
  | '+' :: _ => some (.plus, 1)
  | '-' :: '-' :: _ => some (.minusMinus, 2)
  | '-' :: '=' :: _ => some (.minusAssign, 2)
  | '-' :: _ => some (.minus, 1)
  | '*' :: '*' :: '=' :: _ => some (.starStarAssign, 3)
  | '*' :: '*' :: _ => some (.starStar, 2)
  | '*' :: '=' :: _ => some (.starAssign, 2)
  | '*' :: _ => some (.star, 1)
  | '/' :: '=' :: _ => some (.slashAssign, 2)
  | '/' :: _ => some (.slash, 1)
  | '%' :: '=' :: _ => some (.percentAssign, 2)
  | '%' :: _ => some (.percent, 1)
  | '&' :: '&' :: '=' :: _ => some (.ampAmpAssign, 3)
  | '&' :: '&' :: _ => some (.ampAmp, 2)
  | '&' :: '=' :: _ => some (.ampAssign, 2)
  | '&' :: _ => some (.amp, 1)
  | '|' :: '|' :: '=' :: _ => some (.pipePipeAssign, 3)
  | '|' :: '|' :: _ => some (.pipePipe, 2)
  | '|' :: '=' :: _ => some (.pipeAssign, 2)
  | '|' :: _ => some (.pipe, 1)
  | '^' :: '=' :: _ => some (.caretAssign, 2)
  | '^' :: _ => some (.caret, 1)
  | '~' :: _ => some (.tilde, 1)
  | '@' :: _ => some (.decorator, 1)
  | _ => none

/-- The longest operator at the start of a text that starts with `>`, with its length. -/
def angle? : List Char → Option (Kind × Nat)
  | '>' :: '>' :: '>' :: '=' :: _ => some (.ushrAssign, 4)
  | '>' :: '>' :: '>' :: _ => some (.ushr, 3)
  | '>' :: '>' :: '=' :: _ => some (.shrAssign, 3)
  | '>' :: '>' :: _ => some (.shr, 2)
  | '>' :: '=' :: _ => some (.ge, 2)
  | '>' :: _ => some (.gt, 1)
  | _ => none

/-! ### Tokens -/

/-- The token that a lexeme makes at its place. -/
def Lexeme.token (l : Lexeme) (gap : Gap) : Token where
  kind := l.kind
  span := ⟨gap.offset, l.stop⟩
  text := l.text
  newlineBefore := gap.newline
  escaped := l.escaped
  wellEscaped := l.wellEscaped
  faults := l.faults + (if gap.unclosed then 1 else 0)
  source := gap.rest
  rest := l.rest

/-- Reads one lexeme at the start of a text that starts with neither blank nor comment. -/
def scanLexeme (cs : List Char) (offset : Nat) : Lexeme :=
  match cs with
  | [] => ⟨.eof, "", offset, [], false, true, 0⟩
  | c :: rest =>
    if isIdentifierStart c || c == '\\' then scanWord cs offset [] false true none
    else if c.isDigit then scanNumber cs offset
    else if c == '"' || c == '\x27' then scanString c rest (offset + 1) [] 0 none
    else if c == '\x60' then scanTemplate .templateHead .templateWhole rest (offset + 1) true none
    else
      match cs with
      | '.' :: d :: _ =>
        if d.isDigit then scanNumber cs offset
        else
          match punctuation? cs with
          | some (kind, n) => ⟨kind, "", offset + n, cs.drop n, false, true, 0⟩
          | none => ⟨.invalid, "", offset + c.utf8Size, rest, false, true, 1⟩
      | '#' :: d :: _ =>
        if isIdentifierStart d || d == '\\' then
          let word := scanWord rest (offset + 1) [] false true none
          { word with kind := if word.kind == .word then .privateName else word.kind }
        else ⟨.invalid, "", offset + 1, rest, false, true, 1⟩
      | _ =>
        match punctuation? cs with
        | some (kind, n) => ⟨kind, "", offset + n, cs.drop n, false, true, 0⟩
        | none => ⟨.invalid, "", offset + c.utf8Size, rest, false, true, 1⟩

/-- Reads the next token. -/
def nextToken (sloppy : Bool) (cs : List Char) (offset : Nat) : Token :=
  let gap := skipGap sloppy .between cs offset false
  (scanLexeme gap.rest gap.offset).token gap

/-- Reads the first token of a file, where a line may have ended before it. -/
def firstToken (sloppy : Bool) (cs : List Char) (offset : Nat) : Token :=
  let gap := skipGap sloppy .between cs offset true
  (scanLexeme gap.rest gap.offset).token gap

/-- Reads what follows the `=` of a JSX attribute. -/
def nextJsxValue (sloppy : Bool) (cs : List Char) (offset : Nat) : Token :=
  match cs with
  | c :: rest =>
    if c == '"' || c == '\x27' then
      (scanJsxString c rest (offset + 1) []).token ⟨cs, offset, false, false⟩
    else nextToken sloppy cs offset
  | [] => nextToken sloppy cs offset

/-- Reads text between JSX tags. A `>` or `}` may not stand in it. -/
def scanJsxText : List Char → Nat → List Char → Lexeme
  | [], stop, acc => ⟨.jsxText, collected acc, stop, [], false, true, 0⟩
  | c :: cs, stop, acc =>
    if c == '<' || c == '\x7b' then ⟨.jsxText, collected acc, stop, c :: cs, false, true, 0⟩
    else if c == '>' || c == '\x7d' then ⟨.invalid, collected acc, stop, c :: cs, false, true, 1⟩
    else scanJsxText cs (stop + c.utf8Size) (c :: acc)

/-- Reads the next child of a JSX element: a tag, a brace or text. -/
def nextJsxChild (cs : List Char) (offset : Nat) : Token :=
  let gap : Gap := ⟨cs, offset, false, false⟩
  match cs with
  | [] => (⟨.eof, "", offset, [], false, true, 0⟩ : Lexeme).token gap
  | '<' :: rest => (⟨.lt, "", offset + 1, rest, false, true, 0⟩ : Lexeme).token gap
  | '\x7b' :: rest => (⟨.lbrace, "", offset + 1, rest, false, true, 0⟩ : Lexeme).token gap
  | _ => (scanJsxText cs offset []).token gap

namespace Token

/-- The token with other text taken from its start. -/
def reread (t : Token) (l : Lexeme) : Token :=
  { t with
    kind := l.kind, span := ⟨t.span.start, l.stop⟩, text := l.text, escaped := l.escaped,
    wellEscaped := l.wellEscaped, faults := l.faults, rest := l.rest }

/-- A slash read again as the start of a regular expression. -/
def asRegex (t : Token) : Token :=
  t.reread (scanRegex (t.source.drop 1) (t.span.start + 1) false)

/-- A closing brace read again as the next piece of a template. -/
def asTemplatePiece (t : Token) : Token :=
  t.reread (scanTemplate .templateMiddle .templateTail (t.source.drop 1) (t.span.start + 1) true none)

/-- A `>` read again as the longest operator that starts with it. -/
def asLongAngle (t : Token) : Token :=
  match angle? t.source with
  | some (kind, n) =>
    t.reread ⟨kind, "", t.span.start + n, t.source.drop n, false, true, t.faults⟩
  | none => t

/-- An operator read again as its first character, `<` or `>`. -/
def asShortAngle (t : Token) (kind : Kind) : Token :=
  t.reread ⟨kind, "", t.span.start + 1, t.source.drop 1, false, true, t.faults⟩

/-- A word read on through the dashes of a JSX name. -/
def asJsxName (t : Token) : Token :=
  let more := t.rest.takeWhile fun c => isIdentifierPart c || c == '-'
  match t.rest with
  | '-' :: _ =>
    t.reread ⟨.word, t.text ++ String.ofList more,
      t.span.stop + more.foldl (fun n c => n + c.utf8Size) 0, t.rest.drop more.length, t.escaped,
      true, t.faults⟩
  | _ => t

end Token

end SourceRepair.Script
