import StackC.Tree.Basic
import StackC.Tree.Parser

/-!
Reading expressions. Binary operators bind in four levels and associate to the
left; above them stand the operators in front of an operand, then calls and
indexing, then literals, names and parentheses. A reader of a level takes the
reader of the level above it as an argument, and only the reader of the
operators in front calls itself.
-/

namespace StackC

namespace Parser

def equality? : TokenKind → Option Operator
  | .equal => some .eq
  | .notEqual => some .ne
  | _ => none

def relation? : TokenKind → Option Operator
  | .less => some .lt
  | .greater => some .gt
  | .lessEqual => some .le
  | .greaterEqual => some .ge
  | _ => none

def additive? : TokenKind → Option Operator
  | .plus => some .add
  | .minus => some .sub
  | _ => none

def multiplicative? : TokenKind → Option Operator
  | .star => some .mul
  | .slash => some .div
  | .percent => some .mod
  | _ => none

/-- Reads the operators and operands that follow a left operand. -/
def chainMore (op? : TokenKind → Option Operator) (operand : Parser Expr) :
    (bound : List Token) → Expr → Parser Expr
  | [], left, ts => .ok (left, ts)
  | _ :: bound, left, ts =>
    match op? (nextKind ts) with
    | none => .ok (left, ts)
    | some op => do
      let (right, ts) ← operand (ts.drop 1)
      chainMore op? operand bound (.binary op left right) ts

def chain (op? : TokenKind → Option Operator) (operand : Parser Expr) :
    Parser Expr := fun ts => do
  let (left, ts) ← operand ts
  chainMore op? operand ts left ts

/-- Reads an expression, given the reader of the operands of products. -/
def expressionOf (unary : Parser Expr) : Parser Expr :=
  chain equality?
    (chain relation? (chain additive? (chain multiplicative? unary)))

/-- An integer literal: it is an `int` if it fits, else a `long`, else an
`unsigned long`. -/
def integer (t : Token) : Except ParseError Expr :=
  match Numeral.readInt 64 t.lexeme with
  | .ok v =>
    .ok (.int (Int64.ofInt v) (some (if v < 0x80000000 then .int else .long)))
  | .error _ =>
    match Numeral.readUnsigned 64 t.lexeme with
    | .ok n => .ok (.int (Int64.ofNat n) (some .unsignedLong))
    | .error _ => .error (.mistake t .outOfRange)

def character (t : Token) : Except ParseError Expr :=
  match Numeral.readDecimal 64 t.lexeme with
  | .ok v => .ok (.int (Int64.ofInt v) (some .char))
  | .error _ => .error (.mistake t .badCharacter)

def primaryOf (expression : Parser Expr) : Parser Expr
  | [] => fail .notAnExpression []
  | t :: ts =>
    match t.kind with
    | .integer => do return (← integer t, ts)
    | .character => do return (← character t, ts)
    | .string => .ok (.str t.lexeme, ts)
    | .identifier => .ok (.var t.lexeme, ts)
    | .lparen => do
      let (e, ts) ← expression ts
      let (_, ts) ← expect .rparen ts
      return (e, ts)
    | _ => fail .notAnExpression (t :: ts)

def indicesOf (expression : Parser Expr) :
    (bound : List Token) → Expr → Parser Expr
  | [], e, ts => .ok (e, ts)
  | _ :: bound, e, ts =>
    if nextKind ts = .lbracket then do
      let (index, ts) ← expression (ts.drop 1)
      let (_, ts) ← expect .rbracket ts
      indicesOf expression bound (.deref (.binary .add e index)) ts
    else .ok (e, ts)

def argumentsOf (expression : Parser Expr) : Parser (List Expr) := fun ts => do
  if nextKind ts = .rparen then
    let (_, ts) ← expect .rparen ts
    return ([], ts)
  else
    let (args, ts) ← commaSeparated expression ts ts
    let (_, ts) ← expect .rparen ts
    return (args, ts)

/-- Reads a call, or an operand with the indices that follow it. Only a name can
be called. -/
def operandOf (expression : Parser Expr) : Parser Expr := fun ts => do
  if nextKind ts = .identifier ∧ nextKind (ts.drop 1) = .lparen then
    let (args, rest) ← argumentsOf expression (ts.drop 2)
    return (.call (next ts).lexeme args, rest)
  else
    let (e, ts) ← primaryOf expression ts
    let (e, ts) ← indicesOf expression ts e ts
    if nextKind ts = .lparen then fail .calledExpression ts
    else return (e, ts)

/-- Reads an operand with the operators in front of it. Each nested reading
takes at least one token, so `bound` is enough for every list that is not
longer: when it is used up, no token is left. -/
def unary : (bound : List Token) → Parser Expr
  | [], ts => fail .notAnExpression ts
  | _ :: bound, ts =>
    match nextKind ts with
    | .ampersand => do
      let (e, ts) ← unary bound (ts.drop 1)
      return (.addr e, ts)
    | .star => do
      let (e, ts) ← unary bound (ts.drop 1)
      return (.deref e, ts)
    | .minus => do
      let (e, ts) ← unary bound (ts.drop 1)
      return (.binary .sub (.int 0 (some .int)) e, ts)
    | _ => operandOf (expressionOf (unary bound)) ts

def expression : Parser Expr := fun ts =>
  expressionOf (unary ts) ts

end Parser

end StackC
