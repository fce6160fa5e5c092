import StackC.Tree.ParseExpr

/-!
Reading types, statements and functions. An `else` belongs to the nearest open
`if`.
-/

namespace StackC

namespace Parser

def stars : Ty → List Token → Ty × List Token
  | ty, [] => (ty, [])
  | ty, t :: ts =>
    if t.kind = .star then stars (.pointer ty) ts else (ty, t :: ts)

/-- Reads the base of a type after its sign; `sign` tells whether there is one
and whether it is `unsigned`, and `start` is the first token of the type. -/
def base (start : Token) (sign : Option Bool) : Parser Ty := fun ts =>
  let unsigned := sign == some true
  match nextKind ts with
  | .char => .ok (.base .char unsigned, ts.drop 1)
  | .short => .ok (.base .short unsigned, skip .int (ts.drop 1))
  | .int => .ok (.base .int unsigned, ts.drop 1)
  | .long => .ok (.base .long unsigned, skip .int (skip .long (ts.drop 1)))
  | .void =>
    if sign.isSome then .error (.mistake start .signedVoid)
    else .ok (.void, ts.drop 1)
  | _ =>
    if sign.isSome then .ok (.base .int unsigned, ts) else fail .notAType ts

/-- Reads a type: a sign, a base or both, and any number of stars. -/
def type : Parser Ty := fun ts => do
  let (ty, ts) ←
    match nextKind ts with
    | .unsigned => base (next ts) (some true) (ts.drop 1)
    | .signed => base (next ts) (some false) (ts.drop 1)
    | _ => base (next ts) none ts
  return stars ty ts

def param : Parser Param := fun ts => do
  let (ty, ts) ← type ts
  let (name, ts) ← expect .identifier ts
  return (⟨ty, name.lexeme⟩, ts)

def params : Parser (List Param) := fun ts => do
  if nextKind ts = .void ∧ nextKind (ts.drop 1) = .rparen then
    let (_, ts) ← expect .rparen (ts.drop 1)
    return ([], ts)
  else if nextKind ts = .rparen then
    let (_, ts) ← expect .rparen ts
    return ([], ts)
  else
    let (ps, ts) ← commaSeparated param ts ts
    let (_, ts) ← expect .rparen ts
    return (ps, ts)

def arrayLength : Parser Int64 := fun ts => do
  let (size, ts) ← expect .integer ts
  match Numeral.readInt 32 size.lexeme with
  | .error _ => throw (.mistake size .badArraySize)
  | .ok n =>
    let (_, ts) ← expect .rbracket ts
    return (Int64.ofInt n, ts)

/-- Reads the rest of a declaration: an optional array length after the name. -/
def declarator (ty : Ty) : Parser Ty := fun ts => do
  if nextKind ts = .lbracket then
    let (len, ts) ← arrayLength (ts.drop 1)
    return (.array ty len, ts)
  else return (ty, ts)

def declaration : Parser Stmt := fun ts => do
  let (p, ts) ← param ts
  let (ty, ts) ← declarator p.ty ts
  if nextKind ts = .assign then
    let (e, ts) ← expression (ts.drop 1)
    let (_, ts) ← expect .semicolon ts
    return (.init ty p.name e, ts)
  else
    let (_, ts) ← expect .semicolon ts
    return (.decl ty p.name, ts)

/-- Reads an assignment, or an expression as a statement. -/
def assignment : Parser Stmt := fun ts => do
  let (e, ts) ← expression ts
  if nextKind ts = .assign then
    let (value, ts) ← expression (ts.drop 1)
    let (_, ts) ← expect .semicolon ts
    return (.assign e value, ts)
  else
    let (_, ts) ← expect .semicolon ts
    return (.expr e, ts)

def returned : Parser Stmt := fun ts => do
  if nextKind ts = .semicolon then return (.ret none, ts.drop 1)
  else
    let (e, ts) ← expression ts
    let (_, ts) ← expect .semicolon ts
    return (.ret (some e), ts)

def condition : Parser Expr := fun ts => do
  let (_, ts) ← expect .lparen ts
  let (e, ts) ← expression ts
  let (_, ts) ← expect .rparen ts
  return (e, ts)

/-- Reads what follows `printf`; there is at least a format. -/
def printed : Parser Stmt := fun ts => do
  let (_, ts) ← expect .lparen ts
  let (args, ts) ← argumentsOf expression ts
  let (_, ts) ← expect .semicolon ts
  match args with
  | [] => throw .noFormat
  | format :: args => return (.printf format args, ts)

/-- Reads statements up to a closing brace or the end. -/
def statementsOf (statement : Parser Stmt) :
    (bound : List Token) → Parser (List Stmt)
  | [], ts => .ok ([], ts)
  | _ :: bound, ts =>
    if nextKind ts = .rbrace ∨ nextKind ts = .eof then .ok ([], ts)
    else do
      let (s, ts) ← statement ts
      let (ss, ts) ← statementsOf statement bound ts
      return (s :: ss, ts)

/-- Reads a block whose opening brace is already read. -/
def blockOf (statement : Parser Stmt) : Parser (List Stmt) := fun ts => do
  let (ss, ts) ← statementsOf statement ts ts
  let (_, ts) ← expect .rbrace ts
  return (ss, ts)

def ifOf (statement : Parser Stmt) : Parser Stmt := fun ts => do
  let (cond, ts) ← condition ts
  let (body, ts) ← statement ts
  if nextKind ts = .elseWord then
    let (orElse, ts) ← statement (ts.drop 1)
    return (.ifElse cond body orElse, ts)
  else return (.ifThen cond body, ts)

def whileOf (statement : Parser Stmt) : Parser Stmt := fun ts => do
  let (cond, ts) ← condition ts
  let (body, ts) ← statement ts
  return (.whileDo cond body, ts)

/-- Reads a statement. Each nested reading takes at least one token, so `bound`
is enough for every list that is not longer: when it is used up, no token is
left. -/
def statement : (bound : List Token) → Parser Stmt
  | [], ts => fail .endOfInput ts
  | _ :: bound, ts =>
    match nextKind ts with
    | .lbrace => do
      let (body, ts) ← blockOf (statement bound) (ts.drop 1)
      return (.block body, ts)
    | .ifWord => ifOf (statement bound) (ts.drop 1)
    | .whileWord => whileOf (statement bound) (ts.drop 1)
    | .returnWord => returned (ts.drop 1)
    | .breakWord => do
      let (_, ts) ← expect .semicolon (ts.drop 1)
      return (.breakLoop, ts)
    | .continueWord => do
      let (_, ts) ← expect .semicolon (ts.drop 1)
      return (.continueLoop, ts)
    | .printf => printed (ts.drop 1)
    | .eof => fail .endOfInput ts
    | kind => if kind.startsType then declaration ts else assignment ts

def function : Parser Function := fun ts => do
  let (p, ts) ← param ts
  if nextKind ts = .lparen then
    let (params, ts) ← params (ts.drop 1)
    let (_, ts) ← expect .lbrace ts
    let (body, ts) ← blockOf (statement ts) ts
    return (⟨p.ty, p.name, params, body⟩, ts)
  else fail (.notAFunction p.name) ts

def functions :
    (bound : List Token) → List Token → Except ParseError (List Function)
  | [], _ => .ok []
  | _ :: bound, ts =>
    if nextKind ts = .eof then .ok []
    else if (nextKind ts).startsType then do
      let (f, ts) ← function ts
      return f :: (← functions bound ts)
    else fail .outsideFunction ts

end Parser

def parse (ts : List Token) : Except ParseError (List Function) :=
  Parser.functions ts ts

end StackC
