import StackC.Text.Character
import StackC.Token.Basic

/-!
Readers of token lists. A reader returns what it has read and the tokens after
it, or the first mistake, which is tied to a token. After the last token every
further token counts as an end mark on line 0.

A reader that repeats takes a list of tokens as its `bound` and drops one of
them in each round. Every round reads a token, so the tokens at the start are a
bound that is never reached.
-/

namespace StackC

inductive Mistake where
  | expected (kind : TokenKind)
  | notAType
  | signedVoid
  | notAFunction (name : Name)
  | endOfInput
  | badArraySize
  | notAnExpression
  | calledExpression
  | badCharacter
  | outOfRange
  | outsideFunction
  deriving DecidableEq, Repr

inductive ParseError where
  | mistake (token : Token) (m : Mistake)
  | noFormat
  deriving DecidableEq, Repr

def Mistake.message (t : Token) : Mistake → Bytes
  | expected kind =>
    text "expected " ++ kind.name ++ text ", got " ++ t.kind.name ++
      text " (" ++ quoted t.lexeme ++ text ")"
  | notAType =>
    text "expected type, got " ++ t.kind.name ++ text " (" ++
      quoted t.lexeme ++ text ")"
  | signedVoid => t.lexeme ++ text " void is not a type"
  | notAFunction name =>
    text "only function definitions are allowed at top level, got " ++
      t.kind.name ++ text " after " ++ quoted name
  | endOfInput => text "unexpected end of input"
  | badArraySize => text "bad array size " ++ quoted t.lexeme
  | notAnExpression =>
    text "expected expression, got " ++ t.kind.name ++ text " (" ++
      quoted t.lexeme ++ text ")"
  | calledExpression => text "expected function name before '('"
  | badCharacter => text "bad character literal " ++ quoted t.lexeme
  | outOfRange =>
    text "integer " ++ quoted t.lexeme ++ text " out of 64-bit range"
  | outsideFunction =>
    text "executable statement " ++ quoted t.lexeme ++
      text " found outside of function body"

/-- The line of a source text with a number, counted from 1, without the blanks
around it. -/
def sourceLine (src : Bytes) (line : Int) : Bytes :=
  if line < 1 then text "<source unavailable>"
  else match (Bytes.lines src)[(line - 1).toNat]? with
    | some l => l.trim
    | none => text "<source unavailable>"

def ParseError.message (src : Bytes) : ParseError → Bytes
  | mistake t m =>
    text "line " ++ Numeral.decimal t.line ++ text ": " ++ m.message t ++
      text "\n  |> " ++ sourceLine src t.line
  | noFormat => text "arity mismatch: printf needs a format argument"

abbrev Parser (α : Type) : Type :=
  List Token → Except ParseError (α × List Token)

namespace Parser

variable {α : Type}

def next (ts : List Token) : Token :=
  ts.headD Token.afterLast

def nextKind (ts : List Token) : TokenKind :=
  (next ts).kind

def fail (m : Mistake) (ts : List Token) : Except ParseError α :=
  .error (.mistake (next ts) m)

def expect (kind : TokenKind) : Parser Token
  | [] => fail (.expected kind) []
  | t :: ts =>
    if t.kind = kind then .ok (t, ts) else fail (.expected kind) (t :: ts)

def skip (kind : TokenKind) : List Token → List Token
  | [] => []
  | t :: ts => if t.kind = kind then ts else t :: ts

/-- Reads one or more items with commas between them. -/
def commaSeparated (item : Parser α) : (bound : List Token) → Parser (List α)
  | [], ts => do
    let (a, ts) ← item ts
    return ([a], ts)
  | _ :: bound, ts => do
    let (a, ts) ← item ts
    if nextKind ts = .comma then
      let (as, ts) ← commaSeparated item bound (ts.drop 1)
      return (a :: as, ts)
    else return ([a], ts)

end Parser

end StackC
