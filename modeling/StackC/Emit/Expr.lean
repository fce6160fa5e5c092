import StackC.Typing.Check

/-!
Code for terms. The code of a term leaves its value on the operand stack;
operands are evaluated from left to right. Values are kept in the range of their
static type, so a conversion emits something only where the range of the target
does not hold every value of the source. Strings are stored once in a pool, the
initial memory of a program: one byte per cell, followed by a zero cell; cell 0
is the null address.
-/

namespace StackC

/-- The memory image, and the address of each string in it. -/
structure Pool where
  data : Array Cell := #[0]
  known : List (Bytes × Cell) := []
  deriving DecidableEq, Repr

namespace Pool

/-- The cells of a string with its closing zero. -/
def cells (s : Bytes) : List Cell :=
  s.map (fun b => Int64.ofNat b.toNat) ++ [0]

/-- The address of a string; a new one is put at the end. -/
def intern (p : Pool) (s : Bytes) : Cell × Pool :=
  match p.known.find? (·.1 == s) with
  | some e => (e.2, p)
  | none =>
    let addr := Int64.ofNat p.data.size
    (addr, { data := p.data ++ cells s, known := (s, addr) :: p.known })

end Pool

/-- The opcode of an operator; a number that no operator has gives the opcode
with number 0. -/
def Operator.opcode : Operator → Opcode
  | add => .arith .add
  | sub => .arith .sub
  | mul => .arith .mul
  | div => .arith .div
  | mod => .arith .mod
  | eq => .arith .eq
  | ne => .arith .ne
  | lt => .arith .lt
  | le => .arith .le
  | gt => .arith .gt
  | ge => .arith .ge
  | other _ => .push

def Operator.unsignedOpcode : Operator → Opcode
  | div => .arith .divU
  | mod => .arith .modU
  | lt => .arith .ltU
  | le => .arith .leU
  | gt => .arith .gtU
  | ge => .arith .geU
  | op => op.opcode

def convertCode (target source : Ty) : List Instr :=
  if !target.isInteger || 8 ≤ target.size.toInt || target.holds source.decay
    then []
  else [{ op := if target.isUnsigned then .zeroExtend else .signExtend,
          operand := target.size }]

/-- The code that multiplies the value on top of the stack by a number of
cells. -/
def scaleCode (cells : Cell) : List Instr :=
  if cells == 1 then []
  else [{ op := .push, operand := cells }, { op := .arith .mul }]

/-- The code of an operator on two values of the integer type `c`. Unsigned
results that are narrower than a cell wrap around. -/
def integerCode (op : Operator) (c : Ty) : List Instr :=
  let apply : Instr :=
    { op := if c.isUnsigned then op.unsignedOpcode else op.opcode }
  match op with
  | .add | .sub | .mul =>
    if c.isUnsigned && c.size.toInt < 8 then
      [apply, { op := .zeroExtend, operand := c.size }]
    else [apply]
  | _ => [apply]

/-- The code that turns a left operand of type `l` into an offset, where the
right one has type `r`. -/
def scaleLeftCode (op : Operator) (l r : Ty) : List Instr :=
  match op, r with
  | .add, .pointer elem | .sub, .pointer elem =>
    if l.isInteger then scaleCode elem.cells else []
  | _, _ => []

/-- The code that turns a right operand of type `r` into an offset, where the
left one has type `l`. -/
def scaleRightCode (op : Operator) (l r : Ty) : List Instr :=
  match op, l with
  | .add, .pointer elem | .sub, .pointer elem =>
    if r.isInteger then scaleCode elem.cells else []
  | _, _ => []

/-- The code of an operator with a pointer among its operands; the difference of
two pointers counts elements. -/
def pointerCode (op : Operator) (l r : Ty) : List Instr :=
  let apply : Instr := { op := op.opcode }
  match op, l with
  | .sub, .pointer elem =>
    if r.isPointer && 1 < elem.cells.toInt then
      [apply, { op := .push, operand := elem.cells }, { op := .arith .div }]
    else [apply]
  | _, _ => [apply]

/-- What has been emitted: the code, the functions it calls, and the string
constants. -/
structure Output where
  draft : Draft := {}
  funcs : Functions := {}
  pool : Pool := {}
  deriving DecidableEq, Repr

namespace Output

def emit (o : Output) (i : Instr) : Output :=
  { o with draft := o.draft.emit i.op i.operand }

def emitAll (o : Output) (is : List Instr) : Output :=
  is.foldl emit o

/-- Adds an instruction that pushes the address of a string constant. -/
def emitString (o : Output) (s : Bytes) : Output :=
  let (addr, pool) := o.pool.intern s
  { o with pool }.emit { op := .push, operand := addr }

def emitCall (o : Output) (f : FuncDef) : Output :=
  let (funcs, draft) := o.funcs.emitCall o.draft f
  { o with funcs, draft }

end Output

mutual

def Term.emit : Term → Output → Output
  | .int v _, o => o.emit { op := .push, operand := v }
  | .str s, o => o.emitString s
  | .var v, o =>
    o.emit { op := if v.ty.isArray then .addrLocal else .loadLocal,
             operand := v.operand }
  | .binary op l r _, o =>
    let lt := l.ty.decay
    let rt := r.ty.decay
    if lt.isInteger && rt.isInteger then
      let c := Ty.common lt rt
      let o := (l.emit o).emitAll (convertCode c lt)
      let o := (r.emit o).emitAll (convertCode c rt)
      o.emitAll (integerCode op c)
    else
      let o := (l.emit o).emitAll (scaleLeftCode op lt rt)
      let o := (r.emit o).emitAll (scaleRightCode op lt rt)
      o.emitAll (pointerCode op lt rt)
  | .call f args, o =>
    let o := emitArgs f.params args o
    (o.emit { op := .frame, operand := Int64.ofNat f.params.length }).emitCall f
  | .addrVar v, o => o.emit { op := .addrLocal, operand := v.operand }
  | .addrDeref p _, o => p.emit o
  | .deref p t, o =>
    if t.isArray then p.emit o else (p.emit o).emit { op := .load }

/-- Adds the code of the arguments of a call, each converted to the type of its
parameter. -/
def emitArgs : List Param → List Term → Output → Output
  | p :: ps, a :: as, o =>
    emitArgs ps as ((a.emit o).emitAll (convertCode p.ty a.ty))
  | _, _, o => o

end

def emitTerms (ts : List Term) (o : Output) : Output :=
  ts.foldl (fun o t => t.emit o) o

end StackC
