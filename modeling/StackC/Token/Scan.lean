import StackC.Text.Character
import StackC.Token.Basic

/-!
From text to tokens. Blanks and comments are skipped by a reader of their own;
what follows them starts a word, a number, a quoted literal or an operator, and
the longest such token is taken. Lines are counted in the blanks and comments
only, since no token holds a newline.
-/

namespace StackC

/-- The two kinds of quoted literal. -/
inductive Literal where
  | string
  | character
  deriving DecidableEq, Repr

namespace Literal

/-- The mark at both ends of a literal. -/
def quote : Literal → Char
  | string => '"'
  | character => '\''

def word : Literal → Bytes
  | string => text "string"
  | character => text "character"

end Literal

/-- Why a text has no tokens, with the line of the mistake. -/
inductive LexError where
  | openComment (line : Nat)
  | bareHexMark (line : Nat)
  | suffix (c : Char) (line : Nat)
  | openLiteral (kind : Literal) (line : Nat)
  | unknownEscape (c : Char) (line : Nat)
  | notOneCharacter (line : Nat)
  | unexpected (c : Char) (line : Nat)
  deriving DecidableEq, Repr

namespace LexError

def message : LexError → Bytes
  | openComment n =>
    text "unterminated block comment (opened on line " ++
      Numeral.decimalNat n ++ text ")"
  | bareHexMark n =>
    text "malformed hex literal on line " ++ Numeral.decimalNat n
  | suffix c n =>
    text "invalid suffix " ++ quotedChar c ++
      text " on integer literal on line " ++ Numeral.decimalNat n
  | openLiteral kind n =>
    text "unterminated " ++ kind.word ++ text " literal on line " ++
      Numeral.decimalNat n
  | unknownEscape c n =>
    text "unknown escape sequence \\" ++ String.utf8EncodeChar c ++
      text " on line " ++ Numeral.decimalNat n
  | notOneCharacter n =>
    text "character literal must hold exactly one character on line " ++
      Numeral.decimalNat n
  | unexpected c n =>
    text "unexpected character " ++ quotedChar c ++ text " on line " ++
      Numeral.decimalNat n

end LexError

namespace Scan

/-- What the text between two tokens is part of. -/
inductive Region where
  | blanks
  | lineComment
  | blockComment (opened : Nat)
  deriving DecidableEq, Repr

def lineAfter (c : Char) (line : Nat) : Nat :=
  if c = '\n' then line + 1 else line

/-- Skips blanks and comments, and returns the line and the text where they
end. -/
def skip : Region → Nat → List Char → Except LexError (Nat × List Char)
  | .blanks, line, [] => .ok (line, [])
  | .blanks, line, '/' :: '/' :: cs => skip .lineComment line cs
  | .blanks, line, '/' :: '*' :: cs => skip (.blockComment line) line cs
  | .blanks, line, c :: cs =>
    if isBlank c then skip .blanks (lineAfter c line) cs
    else .ok (line, c :: cs)
  | .lineComment, line, [] => .ok (line, [])
  | .lineComment, line, c :: cs =>
    if c = '\n' then skip .blanks (line + 1) cs else skip .lineComment line cs
  | .blockComment opened, _, [] => .error (.openComment opened)
  | .blockComment _, line, '*' :: '/' :: cs => skip .blanks line cs
  | .blockComment opened, line, c :: cs =>
    skip (.blockComment opened) (lineAfter c line) cs

def startsWord (c : Char) : Bool :=
  isLetter c || c == '_'

def inWord (c : Char) : Bool :=
  isLetter c || isDigit c || c == '_'

/-- Whether a character can stand in a hexadecimal number. Decimal digits of any
script are taken here; they are refused when the number is read. -/
def inHex (c : Char) : Bool :=
  isDigit c || ('a' ≤ c && c ≤ 'f') || ('A' ≤ c && c ≤ 'F')

/-- A word, with the text after it. -/
def word (line : Nat) (cs : List Char) : Token × List Char :=
  let lexeme := Utf8.encode (cs.takeWhile inWord)
  (⟨(TokenKind.ofWord? lexeme).getD .identifier, lexeme, line⟩,
    cs.dropWhile inWord)

/-- The spelling of a number and the text after it; `none` for a hexadecimal
mark without digits. -/
def numeral : List Char → Option (List Char × List Char)
  | '0' :: 'x' :: cs =>
    if (cs.takeWhile inHex).isEmpty then none
    else some ('0' :: 'x' :: cs.takeWhile inHex, cs.dropWhile inHex)
  | '0' :: 'X' :: cs =>
    if (cs.takeWhile inHex).isEmpty then none
    else some ('0' :: 'X' :: cs.takeWhile inHex, cs.dropWhile inHex)
  | cs => some (cs.takeWhile isDigit, cs.dropWhile isDigit)

/-- A number, with the text after it, which must not start like a word. -/
def number (line : Nat) (cs : List Char) :
    Except LexError (Token × List Char) :=
  match numeral cs with
  | none => .error (.bareHexMark line)
  | some (spelling, []) => .ok (⟨.integer, Utf8.encode spelling, line⟩, [])
  | some (spelling, c :: rest) =>
    if startsWord c then .error (.suffix c line)
    else .ok (⟨.integer, Utf8.encode spelling, line⟩, c :: rest)

def escaped? : Char → Option Char
  | 'n' => some '\n'
  | 'r' => some '\r'
  | 't' => some '\t'
  | '0' => some '\x00'
  | '\\' => some '\\'
  | '\'' => some '\''
  | '"' => some '"'
  | _ => none

/-- The contents of a literal whose opening quote is already read, and the text
after the closing quote. A NUL that ends the text is taken for the end of the
text. -/
def body (kind : Literal) (line : Nat) :
    List Char → Except LexError (List Char × List Char)
  | [] => .error (.openLiteral kind line)
  | [c] =>
    if c = kind.quote then .ok ([], [])
    else if c = '\\' then .error (.unknownEscape '\x00' line)
    else .error (.openLiteral kind line)
  | c :: d :: cs =>
    if c = kind.quote then .ok ([], d :: cs)
    else if c = '\n' then .error (.openLiteral kind line)
    else if c = '\\' then
      match escaped? d with
      | none => .error (.unknownEscape d line)
      | some e => do
        let (val, rest) ← body kind line cs
        return (e :: val, rest)
    else do
      let (val, rest) ← body kind line (d :: cs)
      return (c :: val, rest)

/-- A string, with the text after it; the opening quote is already read. -/
def string (line : Nat) (cs : List Char) :
    Except LexError (Token × List Char) := do
  let (val, rest) ← body .string line cs
  return (⟨.string, Utf8.encode val, line⟩, rest)

/-- A character, with the text after it; the opening quote is already read. -/
def character (line : Nat) (cs : List Char) :
    Except LexError (Token × List Char) := do
  match ← body .character line cs with
  | ([c], rest) => return (⟨.character, Numeral.decimalNat c.toNat, line⟩, rest)
  | _ => throw (.notOneCharacter line)

/-- An operator or mark of one character, with the text after it. -/
def mark (line : Nat) (c : Char) (rest : List Char) :
    Except LexError (Token × List Char) :=
  match TokenKind.ofMark? c with
  | some kind => .ok (⟨kind, Utf8.encode [c], line⟩, rest)
  | none => .error (.unexpected c line)

/-- An operator or mark, the longer one first, with the text after it. -/
def operator (line : Nat) :
    Char → List Char → Except LexError (Token × List Char)
  | c, [] => mark line c []
  | c, d :: rest =>
    match TokenKind.ofPair? c d with
    | some kind => .ok (⟨kind, Utf8.encode [c, d], line⟩, rest)
    | none => mark line c (d :: rest)

/-- The token that starts with `c`, with the text after it. -/
def token (line : Nat) (c : Char) (cs : List Char) :
    Except LexError (Token × List Char) :=
  if startsWord c then .ok (word line (c :: cs))
  else if isDigit c then number line (c :: cs)
  else if c = '"' then string line cs
  else if c = '\'' then character line cs
  else operator line c cs

/-- The tokens of a text up to the end or the first mistake. Every token takes
at least one character, so at most `fuel` tokens come before the end of a text
shorter than `fuel`. -/
def tokens : (fuel : Nat) → Nat → List Char → List Token × Option LexError
  | 0, _, _ => ([], none)
  | fuel + 1, line, cs =>
    match skip .blanks line cs with
    | .error e => ([], some e)
    | .ok (line, []) => ([⟨.eof, [], line⟩], none)
    | .ok (line, c :: cs) =>
      match token line c cs with
      | .error e => ([], some e)
      | .ok (t, rest) =>
        let (ts, e) := tokens fuel line rest
        (t :: ts, e)

end Scan

/-- The tokens of a text, ended by one of kind `eof`; with a mistake, the tokens
before it. -/
def scan (src : Bytes) : List Token × Option LexError :=
  let cs := Utf8.chars src
  Scan.tokens (cs.length + 1) 1 cs

/-- The tokens of a text without mistakes. -/
def lex (src : Bytes) : Except LexError (List Token) :=
  match scan src with
  | (ts, none) => .ok ts
  | (_, some e) => .error e

end StackC
