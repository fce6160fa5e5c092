import StackC.Emit.Expr

/-!
Code for statements and functions. Jumps go through labels. The code of a
statement leaves the operand stack as it was; whether control can reach its end
is known from its form.
-/

namespace StackC

/-- What has been emitted and the variables visible at the place reached. -/
structure Emitter where
  out : Output := {}
  scope : Scope := {}
  deriving DecidableEq, Repr

namespace Emitter

def emit (e : Emitter) (i : Instr) : Emitter :=
  { e with out := e.out.emit i }

def emitAll (e : Emitter) (is : List Instr) : Emitter :=
  { e with out := e.out.emitAll is }

def emitTerm (e : Emitter) (t : Term) : Emitter :=
  { e with out := t.emit e.out }

/-- The code that a function ends with unless control cannot reach its end. -/
def returnZero : List Instr :=
  [{ op := .push }, { op := .ret }]

def newLabel (e : Emitter) : LabelId × Emitter :=
  let (l, draft) := e.out.draft.newLabel
  (l, { e with out := { e.out with draft } })

def here (e : Emitter) : LabelId × Emitter :=
  let (l, draft) := e.out.draft.here
  (l, { e with out := { e.out with draft } })

def jump (e : Emitter) (op : Opcode) (l : LabelId) : Emitter :=
  { e with out := { e.out with draft := e.out.draft.jump op l } }

def bind (e : Emitter) (l : LabelId) : Except ProgramError Emitter :=
  match e.out.draft.bind l with
  | (_, some err) => .error (.draft err)
  | (draft, none) => .ok { e with out := { e.out with draft } }

def check (e : Emitter) (x : Expr) : Except ProgramError Term :=
  StackC.check e.scope e.out.funcs x

def checkScalar (e : Emitter) (what : Bytes) (x : Expr) :
    Except ProgramError Term :=
  StackC.checkScalar e.scope e.out.funcs what x

def declare (e : Emitter) (ty : Ty) (name : Name) :
    Except ProgramError (LocalVar × Emitter) := do
  typed (Ty.checkStorable name ty)
  let (v, scope) ← e.scope.addLocal ty name
  return (v, { e with scope })

/-- A declaration with an initial value; the variable is already visible in the
value. -/
def declareInit (e : Emitter) (ty : Ty) (name : Name) (value : Expr) :
    Except ProgramError Emitter := do
  let (v, e) ← e.declare ty name
  if v.ty.isArray then .error (.typing (.arrayInitializer v.name))
  else
    let a ← e.check value
    located (.initializer v.name)
      (typed (Ty.checkAssign v.ty a.ty value.isZero))
    return ((e.emitTerm a).emitAll (convertCode v.ty a.ty)).emit
      { op := .storeLocal, operand := v.operand }

/-- An assignment. For `*p = v` the pointer is evaluated before the value. -/
def assign (e : Emitter) (target value : Expr) :
    Except ProgramError Emitter := do
  let x ← checkTarget e.scope e.out.funcs target
  let a ← e.check value
  typed (Ty.checkAssign x.ty a.ty value.isZero)
  match x with
  | .var v =>
    return ((e.emitTerm a).emitAll (convertCode v.ty a.ty)).emit
      { op := .storeLocal, operand := v.operand }
  | .cell p t =>
    return (((e.emitTerm p).emitTerm a).emitAll (convertCode t a.ty)).emit
      { op := .store }

def giveBack (f : FuncDef) (e : Emitter) :
    Option Expr → Except ProgramError Emitter
  | none =>
    if f.ret.isVoid then .ok (e.emitAll returnZero)
    else .error (.typing (.missingReturnValue f.name f.ret))
  | some value =>
    if f.ret.isVoid then .error (.typing (.unexpectedReturnValue f.name))
    else do
      let a ← e.check value
      located .returnValue (typed (Ty.checkAssign f.ret a.ty value.isZero))
      return ((e.emitTerm a).emitAll (convertCode f.ret a.ty)).emit
        { op := .ret }

def printf (e : Emitter) (format : Expr) (args : List Expr) :
    Except ProgramError Emitter := do
  let a ← e.check format
  if a.ty.decay.isFormat then
    checkFormat args.length format
    let as ← checkPrinted e.scope e.out.funcs 1 args
    let e := { e with out := emitTerms as (a.emit e.out) }
    return e.emit { op := .printf, operand := Int64.ofNat (args.length + 1) }
  else .error (.typing (.formatType a.ty.decay))

end Emitter

mutual

/-- Adds the code of a statement of the function `f`. The truth value tells that
control cannot reach the end of the statement. -/
def Stmt.emit (f : FuncDef) :
    Stmt → Emitter → Except ProgramError (Bool × Emitter)
  | .block body, e => do
    let (ends, e) ← emitStmts f false body { e with scope := e.scope.enter }
    return (ends, { e with scope := e.scope.leave })
  | .func _ name _ _, _ => .error (.nestedFunction name)
  | .decl ty name, e => do
    let (_, e) ← e.declare ty name
    return (false, e)
  | .init ty name value, e => do
    let e ← e.declareInit ty name value
    return (false, e)
  | .assign target value, e => do
    let e ← e.assign target value
    return (false, e)
  | .ret value, e => do
    let e ← e.giveBack f value
    return (true, e)
  | .expr x, e => do
    let a ← e.check x
    return (false, (e.emitTerm a).emit { op := .pop })
  | .ifThen cond body, e => do
    let c ← e.checkScalar (text "if condition") cond
    let (skip, e) := (e.emitTerm c).newLabel
    let e := e.jump .jumpZero skip
    let (_, e) ← body.emit f { e with scope := e.scope.enter }
    let e ← { e with scope := e.scope.leave }.bind skip
    return (false, e)
  | .ifElse cond body orElse, e => do
    let c ← e.checkScalar (text "if condition") cond
    let (other, e) := (e.emitTerm c).newLabel
    let e := e.jump .jumpZero other
    let (bodyEnds, e) ← body.emit f { e with scope := e.scope.enter }
    let (done, e) := { e with scope := e.scope.leave }.newLabel
    let e := if bodyEnds then e else e.jump .jump done
    let e ← e.bind other
    let (elseEnds, e) ← orElse.emit f { e with scope := e.scope.enter }
    let e ← { e with scope := e.scope.leave }.bind done
    return (bodyEnds && elseEnds, e)
  | .whileDo cond body, e => do
    let (again, e) := e.here
    let c ← e.checkScalar (text "while condition") cond
    let (done, e) := (e.emitTerm c).newLabel
    let e := e.jump .jumpZero done
    let inside := e.scope.enterLoop { breakTo := done, continueTo := again }
    let (_, e) ← body.emit f { e with scope := inside.enter }
    let e := { e with scope := e.scope.leave.leaveLoop }
    let e ← (e.jump .jump again).bind done
    return (false, e)
  | .breakLoop, e => do
    let l ← e.scope.breakTarget
    return (true, e.jump .jump l)
  | .continueLoop, e => do
    let l ← e.scope.continueTarget
    return (true, e.jump .jump l)
  | .printf format args, e => do
    let e ← e.printf format args
    return (false, e)
  | .hole, _ => .error .emptyStmt

/-- Adds the code of statements in turn. Only the last one decides whether
control cannot reach the end, since code after a return may still be the target
of a jump. -/
def emitStmts (f : FuncDef) :
    (ends : Bool) → List Stmt → Emitter → Except ProgramError (Bool × Emitter)
  | ends, [], e => .ok (ends, e)
  | _, s :: ss, e => do
    let (ends, e) ← s.emit f e
    emitStmts f ends ss e

end

end StackC
