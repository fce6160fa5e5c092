import StackC.Names.Functions
import StackC.Names.Scope
import StackC.Tree.Render

/-!
Checking: names are resolved, types are computed from the inside out, and the
first violation of a rule is reported. Nothing is emitted. What comes out are
terms: expressions whose names are resolved and whose types are known.
-/

namespace StackC

/-- An expression ready to be turned into code. `addrDeref p t` is the address
of what `p` points to, which has type `t`. -/
inductive Term where
  | int (value : Cell) (ty : Ty)
  | str (value : Bytes)
  | var (v : LocalVar)
  | binary (op : Operator) (left right : Term) (ty : Ty)
  | call (f : FuncDef) (args : List Term)
  | addrVar (v : LocalVar)
  | addrDeref (pointer : Term) (ty : Ty)
  | deref (pointer : Term) (ty : Ty)
  deriving Repr

def Term.ty : Term → Ty
  | .int _ t => t
  | .str _ => .pointer .char
  | .var v => v.ty
  | .binary _ _ _ t => t
  | .call f _ => f.ret
  | .addrVar v => .pointer v.ty
  | .addrDeref _ t => .pointer t
  | .deref _ t => t

/-- What an assignment stores into: a variable, or the cell a pointer points
to. -/
inductive Target where
  | var (v : LocalVar)
  | cell (pointer : Term) (ty : Ty)
  deriving Repr

def Target.ty : Target → Ty
  | .var v => v.ty
  | .cell _ t => t

/-- The types of the operands of an operator: arrays become pointers, and a
literal 0 compares with any pointer. -/
def operandTypes (op : Operator) (left right : Expr) (l r : Ty) : Ty × Ty :=
  let l := l.decay
  let r := r.decay
  if op.isComparison then
    if l.isPointer && right.isZero then (l, l)
    else if r.isPointer && left.isZero then (r, r)
    else (l, r)
  else (l, r)

def typed (r : Except TypeError α) : Except ProgramError α :=
  r.mapError .typing

def located (place : Place) (r : Except ProgramError α) :
    Except ProgramError α :=
  r.mapError (.within place)

mutual

def check (s : Scope) (t : Functions) : Expr → Except ProgramError Term
  | .int v ty => .ok (.int v (ty.getD .int))
  | .str v => .ok (.str v)
  | .var name => do
    let v ← s.resolve name
    return .var v
  | .binary op left right => do
    let l ← check s t left
    let r ← check s t right
    let (lt, rt) := operandTypes op left right l.ty r.ty
    let ty ← typed (Ty.binary op lt rt)
    return .binary op l r ty
  | .call name args => do
    let f ← t.lookup name args.length
    let as ← checkArgs s t name 1 f.params args
    return .call f as
  | .addr (.var name) => do
    let v ← s.resolve name
    return .addrVar v
  | .addr (.deref e) => do
    let p ← check s t e
    let ty ← typed p.ty.deref
    return .addrDeref p ty
  | .addr e => .error (.typing (.notAddressable e.render))
  | .deref e => do
    let p ← check s t e
    let ty ← typed p.ty.deref
    return .deref p ty
  | .hole => .error .emptyExpr

/-- Resolves and types the arguments of a call against the parameters; `index`
is the number of the first. -/
def checkArgs (s : Scope) (t : Functions) (f : Name) (index : Nat) :
    List Param → List Expr → Except ProgramError (List Term)
  | p :: ps, e :: es => do
    let a ← check s t e
    located (.argument index f) (typed (Ty.checkAssign p.ty a.ty e.isZero))
    let as ← checkArgs s t f (index + 1) ps es
    return a :: as
  | _, _ => .ok []

end

def checkScalar (s : Scope) (t : Functions) (what : Bytes) (e : Expr) :
    Except ProgramError Term := do
  let a ← check s t e
  if a.ty.decay.isScalar then return a
  else .error (.typing (.notScalar what a.ty))

def checkTarget (s : Scope) (t : Functions) : Expr → Except ProgramError Target
  | .var name => do
    let v ← s.resolve name
    return .var v
  | .deref e => do
    let p ← check s t e
    let ty ← typed p.ty.deref
    return .cell p ty
  | e => .error (.typing (.notAssignable e.render))

/-- Resolves and types the values of a `printf`; `index` is the number of the
first. -/
def checkPrinted (s : Scope) (t : Functions) :
    (index : Nat) → List Expr → Except ProgramError (List Term)
  | _, [] => .ok []
  | index, e :: es => do
    let a ← checkScalar s t
      (text "printf argument " ++ Numeral.decimalNat index) e
    let as ← checkPrinted s t (index + 1) es
    return a :: as

/-- Whether a byte after a percent sign asks for a value. -/
def isVerb (b : UInt8) : Bool :=
  b == byte 'd' || b == byte 'u' || b == byte 'x' || b == byte 'c' ||
    b == byte 's'

def countVerbs : Bytes → Except TypeError Nat
  | [] => .ok 0
  | b :: rest =>
    if b == byte '%' then
      match rest with
      | [] => .error .formatEnds
      | v :: rest =>
        if v == byte '%' then countVerbs rest
        else if isVerb v then (countVerbs rest).map (· + 1)
        else .error (.unknownVerb v)
    else countVerbs rest

/-- Checks that a literal format asks for as many values as are given. -/
def checkFormat (count : Nat) : Expr → Except ProgramError Unit
  | .str format => do
    let verbs ← typed (countVerbs format)
    if verbs = count then return () else .error (.verbCount format verbs count)
  | _ => .ok ()

def Ty.isFormat : Ty → Bool
  | .pointer (.base .char _) => true
  | _ => false

def checkSignature (f : Function) : Except TypeError Unit := do
  if !f.ret.isVoid && !f.ret.isScalar then .error (.returnType f.name f.ret)
  else match f.params.find? (fun p => !p.ty.isScalar) with
    | some p => .error (.paramType p.name f.name p.ty)
    | none => .ok ()

end StackC
