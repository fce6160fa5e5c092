import Mathlib
import StackC.Emit.Program
import StackC.Machine.Step
import StackC.Proofs.Tree
import StackC.Ty.Rules

/-!
The meaning of programs, as an evaluation of trees over a memory of cells. Names
mean the innermost visible declaration, and every variable has a fixed address
while its function runs. Calls and loops have a depth beyond which an evaluation
is given up, so that all functions here are total; an evaluation that is not
given up has the same result at every greater depth.
-/

namespace StackC

/-- What an evaluation works on: the memory, and the output so far. -/
structure Store where
  memory : Array Cell
  output : Array UInt8 := #[]
  deriving DecidableEq, Repr

/-- Why an evaluation has no result: a fault of the program, a memory that
cannot grow, a depth that does not suffice, or a tree that means nothing. -/
inductive Halt where
  | fault (f : Fault)
  | outOfMemory
  | timeout
  | stuck
  deriving DecidableEq, Repr

/-- An evaluation, which may change the store and may halt. -/
abbrev Eval := EStateM Halt Store

theorem Eval.bind_of_ok {x : Eval α} {f : α → Eval β} {a : α} {s s' : Store}
    (h : x s = .ok a s') : (x >>= f) s = f a s' := by
  show EStateM.bind x f s = f a s'
  rw [EStateM.bind, h]

theorem Eval.bind_of_error {x : Eval α} {f : α → Eval β} {e : Halt}
    {s s' : Store} (h : x s = .error e s') : (x >>= f) s = .error e s' := by
  show EStateM.bind x f s = .error e s'
  rw [EStateM.bind, h]

/-- The value of an integer type that differs from `v` by a multiple of the size
of its range. -/
def Ty.wrap (t : Ty) (v : Cell) : Cell :=
  let range : Nat := 2 ^ (8 * t.size.toInt.toNat)
  Int64.ofInt (if t.isUnsigned then v.toInt % range else v.toInt.bmod range)

/-- Converts a value. A type as wide as a cell, or one that holds every value of
the source, keeps it. -/
def Ty.convert (target source : Ty) (v : Cell) : Cell :=
  if !target.isInteger || 8 ≤ target.size.toInt || target.holds source.decay
    then v else target.wrap v

namespace Operator

/-- An operator on cells, which are read with or without a sign. -/
def apply (op : Operator) (unsigned : Bool) (a b : Cell) : Except Halt Cell :=
  match op with
  | add => .ok (a + b)
  | sub => .ok (a - b)
  | mul => .ok (a * b)
  | div =>
    if b = 0 then .error (.fault .divisionByZero)
    else .ok (if unsigned then (a.toUInt64 / b.toUInt64).toInt64 else a / b)
  | mod =>
    if b = 0 then .error (.fault .divisionByZero)
    else .ok (if unsigned then (a.toUInt64 % b.toUInt64).toInt64 else a % b)
  | eq => .ok (truth (a == b))
  | ne => .ok (truth (a != b))
  | lt => .ok (truth (if unsigned then a.toUInt64 < b.toUInt64 else a < b))
  | le => .ok (truth (if unsigned then a.toUInt64 ≤ b.toUInt64 else a ≤ b))
  | gt => .ok (truth (if unsigned then b.toUInt64 < a.toUInt64 else b < a))
  | ge => .ok (truth (if unsigned then b.toUInt64 ≤ a.toUInt64 else b ≤ a))
  | other _ => .error .stuck

/-- An operator on two values of the integer type `c`. Sums and products of a
type without a sign that is narrower than a cell wrap around. -/
def applyInteger (op : Operator) (c : Ty) (a b : Cell) : Except Halt Cell :=
  match op with
  | add | sub | mul =>
    (op.apply c.isUnsigned a b).map fun v =>
      if c.isUnsigned && c.size.toInt < 8 then c.wrap v else v
  | _ => op.apply c.isUnsigned a b

/-- An operator on values of which at least one is a pointer. Offsets and
differences count elements. -/
def applyPointer (op : Operator) (l r : Ty) (a b : Cell) : Except Halt Cell :=
  match op, l, r with
  | .sub, .pointer elem, .pointer _ =>
    .ok (if 1 < elem.cells.toInt then (a - b) / elem.cells else a - b)
  | .sub, .pointer elem, _ => .ok (a - b * elem.cells)
  | .add, .pointer elem, _ => .ok (a + b * elem.cells)
  | .add, _, .pointer elem => .ok (a * elem.cells + b)
  | op, _, _ => op.apply false a b

/-- An operator on values of the given types. Integers are converted to their
common type first. -/
def perform (op : Operator) (l r : Ty) (a b : Cell) : Except Halt Cell :=
  if l.isInteger && r.isInteger then
    let c := Ty.common l r
    op.applyInteger c (c.convert l a) (c.convert r b)
  else op.applyPointer l r a b

def resultTy (op : Operator) (l r : Ty) : Ty :=
  if op.isComparison then .int
  else if l.isInteger && r.isInteger then Ty.common l r
  else if l.isPointer then if r.isPointer then .long else l
  else r

end Operator

def orFault : Except Fault α → Eval α
  | .ok a => pure a
  | .error f => throw (.fault f)

def orHalt : Except Halt α → Eval α
  | .ok a => pure a
  | .error h => throw h

def load (addr : Cell) : Eval Cell := do
  let s ← get
  let k ← orFault (checkAddr s.memory addr)
  return s.memory.getD k 0

def store (addr v : Cell) : Eval Unit := do
  let s ← get
  let k ← orFault (checkAddr s.memory addr)
  set { s with memory := s.memory.setIfInBounds k v }

def print (format : Cell) (args : List Cell) : Eval Unit := do
  let s ← get
  let shown ← orFault (formatAt s.memory format args)
  set { s with output := s.output ++ shown }

/-- The value of what stands at an address: an array stands for its own
address. -/
def fetch (ty : Ty) (addr : Cell) : Eval Cell :=
  if ty.isArray then pure addr else load addr

structure Binding where
  name : Name
  ty : Ty
  addr : Nat
  deriving DecidableEq, Repr

/-- The visible variables, those that hide others first. -/
abbrev Env := List Binding

def Env.find? (env : Env) (name : Name) : Option Binding :=
  List.find? (fun b => b.name == name) env

/-- What an evaluation needs besides variables: the functions of the program,
the addresses of string constants, and how functions are called. -/
structure World where
  functions : List Function
  strings : Bytes → Cell
  call : Function → List Cell → Eval Cell

def World.find? (w : World) (name : Name) : Option Function :=
  w.functions.find? (·.name == name)

def known : Option α → Eval α
  | some a => pure a
  | none => throw .stuck

/-- The static type of an expression; one that has no type counts as `void`. -/
def Expr.ty (w : World) (env : Env) : Expr → Ty
  | .int _ ty => ty.getD .int
  | .str _ => .pointer .char
  | .binary op l r => op.resultTy (l.ty w env).decay (r.ty w env).decay
  | .var name => ((env.find? name).map (·.ty)).getD .void
  | .call name _ => ((w.find? name).map (·.ret)).getD .void
  | .addr x => .pointer (x.ty w env)
  | .deref x =>
    match (x.ty w env).decay with
    | .pointer elem => elem
    | _ => .void
  | .hole => .void

mutual

/-- The value of an expression. Operands are evaluated from left to right. -/
def Expr.eval (w : World) (env : Env) : Expr → Eval Cell
  | .int v _ => pure v
  | .str s => pure (w.strings s)
  | .var name => do
    let b ← known (env.find? name)
    fetch b.ty (Int64.ofNat b.addr)
  | .binary op l r => do
    let a ← l.eval w env
    let b ← r.eval w env
    orHalt (op.perform (l.ty w env).decay (r.ty w env).decay a b)
  | .call name args => do
    let f ← known (w.find? name)
    let vs ← evalArgs w env f.params args
    w.call f vs
  | .addr (.var name) => do
    let b ← known (env.find? name)
    return Int64.ofNat b.addr
  | .addr (.deref x) => x.eval w env
  | .deref x => do
    let a ← x.eval w env
    fetch (Expr.ty w env (.deref x)) a
  | .addr _ | .hole => throw .stuck

/-- The values of the arguments of a call, each converted to the type of its
parameter. -/
def evalArgs (w : World) (env : Env) : List Param → List Expr → Eval (List Cell)
  | [], [] => return []
  | p :: ps, x :: xs => do
    let v ← x.eval w env
    let vs ← evalArgs w env ps xs
    return p.ty.convert (x.ty w env) v :: vs
  | _, _ => throw .stuck

end

def evalAll (w : World) (env : Env) : List Expr → Eval (List Cell)
  | [] => return []
  | x :: xs => do
    let v ← x.eval w env
    let vs ← evalAll w env xs
    return v :: vs

/-- How a statement ends. -/
inductive Flow where
  | next
  | broken
  | continued
  | returned (v : Cell)
  deriving DecidableEq, Repr

/-- Repeats `body` while `test` does not give 0, as often as the depth
allows. -/
def repeatWhile (test : Eval Cell) (body : Eval Flow) :
    (depth : Nat) → Eval Flow
  | 0 => throw .timeout
  | depth + 1 => do
    let v ← test
    if v = 0 then return .next
    else
      let flow ← body
      match flow with
      | .next | .continued => repeatWhile test body depth
      | .broken => return .next
      | .returned v => return .returned v

/-- The variables that a statement makes visible to the statements after it,
when its first cell is at `addr`. -/
def Stmt.bindings (addr : Nat) : Stmt → Env
  | .decl ty name | .init ty name _ => [{ name, ty, addr }]
  | _ => []

mutual

/-- Executes a statement of a function that returns `ret`. The variables
declared in it have their cells from `addr` on, in the order of the source. -/
def Stmt.exec (w : World) (ret : Ty) (depth : Nat) (env : Env) (addr : Nat) :
    Stmt → Eval Flow
  | .block body => execAll w ret depth env addr body
  | .decl _ _ => return .next
  | .init ty name value => do
    -- The variable is already visible in its initial value.
    let env := { name, ty, addr } :: env
    let v ← value.eval w env
    store (Int64.ofNat addr) (ty.convert (value.ty w env) v)
    return .next
  | .assign (.var name) value => do
    let b ← known (env.find? name)
    let v ← value.eval w env
    store (Int64.ofNat b.addr) (b.ty.convert (value.ty w env) v)
    return .next
  | .assign (.deref x) value => do
    let a ← x.eval w env
    let v ← value.eval w env
    store a ((Expr.ty w env (.deref x)).convert (value.ty w env) v)
    return .next
  | .ret none => return .returned 0
  | .ret (some value) => do
    let v ← value.eval w env
    return .returned (ret.convert (value.ty w env) v)
  | .expr x => do
    let _ ← x.eval w env
    return .next
  | .ifThen cond body => do
    let v ← cond.eval w env
    if v = 0 then return .next else body.exec w ret depth env addr
  | .ifElse cond body orElse => do
    let v ← cond.eval w env
    if v = 0 then orElse.exec w ret depth env (addr + body.cells)
    else body.exec w ret depth env addr
  | .whileDo cond body =>
    repeatWhile (cond.eval w env) (body.exec w ret depth env addr) depth
  | .breakLoop => return .broken
  | .continueLoop => return .continued
  | .printf format args => do
    let a ← format.eval w env
    let vs ← evalAll w env args
    print a vs
    return .next
  | .assign _ _ | .func .. | .hole => throw .stuck

/-- Executes statements in turn, up to one that does not lead to the next. -/
def execAll (w : World) (ret : Ty) (depth : Nat) (env : Env) (addr : Nat) :
    List Stmt → Eval Flow
  | [] => return .next
  | s :: ss => do
    let flow ← s.exec w ret depth env addr
    match flow with
    | .next => execAll w ret depth (s.bindings addr ++ env) (addr + s.cells) ss
    | flow => return flow

end

/-- Puts arguments on top of the memory; gives the address of the first. -/
def pushArgs (args : List Cell) : Eval Nat :=
  modifyGet fun s => (s.memory.size, { s with memory := s.memory ++ args })

/-- Puts cells for local variables on top of the memory, all zero. -/
def reserve (cells : Nat) : Eval Unit := do
  let s ← get
  if memoryLimit < s.memory.size + cells then throw .outOfMemory
  else set { s with memory := s.memory ++ Array.replicate cells (0 : Cell) }

/-- Drops all cells from an address on. -/
def release (addr : Nat) : Eval Unit :=
  modify fun s => { s with memory := s.memory.shrink addr }

/-- The parameters with their addresses, where `addr` is that of the first. -/
def bindParams : (addr : Nat) → List Param → Env → Env
  | _, [], env => env
  | addr, p :: ps, env =>
    bindParams (addr + 1) ps ({ name := p.name, ty := p.ty, addr } :: env)

/-- What a function returns when its body ends in a way. -/
def Flow.result : Flow → Cell
  | .returned v => v
  | _ => 0

/-- Executes the body of a function whose arguments are in memory from `base`
on. -/
def Function.run (w : World) (depth : Nat) (f : Function) (base : Nat) :
    Eval Cell := do
  reserve f.cells
  let flow ←
    execAll w f.ret depth (bindParams base f.params [])
    (base + f.params.length) f.body
  return flow.result

/-- Calls a function of a program, with at most `depth` calls inside one
another. -/
def invoke (fs : List Function) :
    (depth : Nat) → Function → List Cell → Eval Cell
  | 0, _, _ => throw .timeout
  | depth + 1, f, args => do
    let base ← pushArgs args
    let strings (s : Bytes) : Cell := ((stringPool fs).address? s).getD 0
    let v ← f.run { functions := fs, strings, call := invoke fs depth }
      depth base
    release base
    return v

/-- Runs a program: the call of `main` in a memory that holds the string
constants. -/
def evaluate (fs : List Function) (depth : Nat) :
    EStateM.Result Halt Store Cell :=
  match fs.find? (·.name == mainName) with
  | some f => invoke fs depth f [] { memory := (stringPool fs).data }
  | none => .error .stuck { memory := (stringPool fs).data }

def isGivenUp : EStateM.Result Halt Store α → Bool
  | .error .timeout _ => true
  | _ => false

/-- The second evaluation is like the first one wherever that is not given
up. -/
def Eval.ExtendsTo (x y : Eval α) : Prop :=
  ∀ s, isGivenUp (x s) = false → y s = x s

namespace Eval.ExtendsTo

theorem refl (x : Eval α) : x.ExtendsTo x :=
  fun _ _ => rfl

theorem bind {x y : Eval α} {f g : α → Eval β} (hx : x.ExtendsTo y)
    (hf : ∀ a, (f a).ExtendsTo (g a)) : (x >>= f).ExtendsTo (y >>= g) := by
  intro s h
  cases hr : x s with
  | ok a mid =>
    have hy : y s = .ok a mid := (hx s (by rw [hr]; rfl)).trans hr
    rw [Eval.bind_of_ok hr] at h ⊢
    rw [Eval.bind_of_ok hy]
    exact hf a mid h
  | error e mid =>
    rw [Eval.bind_of_error hr] at h ⊢
    have hfinished : isGivenUp (x s) = false := by
      rw [hr]
      cases e with
      | timeout => cases h
      | fault | outOfMemory | stuck => rfl
    exact Eval.bind_of_error ((hx s hfinished).trans hr)

end Eval.ExtendsTo

variable {depth depth' : Nat}

section

variable {w : World} {call : Function → List Cell → Eval Cell}

theorem Expr.ty_withCall {env : Env} :
    (x : Expr) → x.ty { w with call } env = x.ty w env
  | .int .. | .str _ | .var _ | .call .. | .hole => rfl
  | .binary op l r => by simp only [Expr.ty, l.ty_withCall, r.ty_withCall]
  | .addr x => by simp only [Expr.ty, x.ty_withCall]
  | .deref x => by simp only [Expr.ty, x.ty_withCall]

mutual

theorem Expr.eval_extendsTo {env : Env}
    (h : ∀ f args, (w.call f args).ExtendsTo (call f args)) :
    (x : Expr) → (x.eval w env).ExtendsTo (x.eval { w with call } env)
  | .int .. | .str _ | .var _ | .hole => .refl _
  | .binary op l r => by
    simp only [Expr.eval, Expr.ty_withCall]
    exact (l.eval_extendsTo h).bind fun a =>
      (r.eval_extendsTo h).bind fun b => .refl _
  | .call name args => by
    simp only [Expr.eval]
    exact (Eval.ExtendsTo.refl _).bind fun f =>
      (evalArgs_extendsTo h f.params args).bind fun vs => h f vs
  | .addr (.deref x) => x.eval_extendsTo h
  | .addr (.int ..) | .addr (.str _) | .addr (.var _) | .addr (.binary ..)
  | .addr (.call ..) | .addr (.addr _)
  | .addr .hole => .refl _
  | .deref x => by
    simp only [Expr.eval, Expr.ty_withCall]
    exact (x.eval_extendsTo h).bind fun a => .refl _

theorem evalArgs_extendsTo {env : Env}
    (h : ∀ f args, (w.call f args).ExtendsTo (call f args)) :
    (ps : List Param) → (xs : List Expr) →
      (evalArgs w env ps xs).ExtendsTo (evalArgs { w with call } env ps xs)
  | [], [] | [], _ :: _ | _ :: _, [] => .refl _
  | p :: ps, x :: xs => by
    simp only [evalArgs, Expr.ty_withCall]
    exact (x.eval_extendsTo h).bind fun v =>
      (evalArgs_extendsTo h ps xs).bind fun vs => .refl _

end

theorem evalAll_extendsTo {env : Env}
    (h : ∀ f args, (w.call f args).ExtendsTo (call f args)) (xs : List Expr) :
    (evalAll w env xs).ExtendsTo (evalAll { w with call } env xs) := by
  induction xs with
  | nil => exact .refl _
  | cons x xs ih =>
    exact (x.eval_extendsTo h).bind fun v => ih.bind fun vs => .refl _

theorem repeatWhile_extendsTo {test test' : Eval Cell} {body body' : Eval Flow}
    (htest : test.ExtendsTo test') (hbody : body.ExtendsTo body')
    (hle : depth ≤ depth') :
    (repeatWhile test body depth).ExtendsTo
      (repeatWhile test' body' depth') := by
  induction depth generalizing depth' with
  | zero =>
    intro s h
    cases h
  | succ depth ih =>
    cases depth' with
    | zero => omega
    | succ depth' =>
      refine htest.bind fun v => ?_
      split
      · exact .refl _
      · refine hbody.bind fun flow => ?_
        cases flow with
        | next | continued => exact ih (by omega)
        | broken | returned => exact .refl _

mutual

theorem Stmt.exec_extendsTo {ret : Ty} {depth depth' : Nat}
    (hle : depth ≤ depth')
    (h : ∀ f args, (w.call f args).ExtendsTo (call f args)) (env : Env)
    (addr : Nat) :
    (s : Stmt) →
      (s.exec w ret depth env addr).ExtendsTo
        (s.exec { w with call } ret depth' env addr)
  | .block body => execAll_extendsTo hle h env addr body
  | .decl .. | .ret none | .breakLoop | .continueLoop | .func ..
  | .hole => .refl _
  | .init ty name value => by
    simp only [Stmt.exec, Expr.ty_withCall]
    exact (value.eval_extendsTo h).bind fun v => .refl _
  | .assign (.var name) value => by
    simp only [Stmt.exec, Expr.ty_withCall]
    exact (Eval.ExtendsTo.refl _).bind fun b =>
      (value.eval_extendsTo h).bind fun v => .refl _
  | .assign (.deref x) value => by
    simp only [Stmt.exec, Expr.ty_withCall]
    exact (x.eval_extendsTo h).bind fun a =>
      (value.eval_extendsTo h).bind fun v => .refl _
  | .assign (.int ..) _ | .assign (.str _) _ | .assign (.binary ..) _ | .assign
    (.call ..) _
  | .assign (.addr _) _ | .assign .hole _ => .refl _
  | .ret (some value) => by
    simp only [Stmt.exec, Expr.ty_withCall]
    exact (value.eval_extendsTo h).bind fun v => .refl _
  | .expr x => (x.eval_extendsTo h).bind fun v => .refl _
  | .ifThen cond body => by
    refine (cond.eval_extendsTo h).bind fun v => ?_
    split
    · exact .refl _
    · exact body.exec_extendsTo hle h env addr
  | .ifElse cond body orElse => by
    refine (cond.eval_extendsTo h).bind fun v => ?_
    split
    · exact orElse.exec_extendsTo hle h env (addr + body.cells)
    · exact body.exec_extendsTo hle h env addr
  | .whileDo cond body =>
    repeatWhile_extendsTo (cond.eval_extendsTo h)
      (body.exec_extendsTo hle h env addr) hle
  | .printf format args =>
    (format.eval_extendsTo h).bind fun a =>
      (evalAll_extendsTo h args).bind fun vs => .refl _

theorem execAll_extendsTo {ret : Ty} {depth depth' : Nat} (hle : depth ≤ depth')
    (h : ∀ f args, (w.call f args).ExtendsTo (call f args)) (env : Env)
    (addr : Nat) :
    (ss : List Stmt) →
      (execAll w ret depth env addr ss).ExtendsTo
        (execAll { w with call } ret depth' env addr ss)
  | [] => .refl _
  | s :: ss => by
    refine (s.exec_extendsTo hle h env addr).bind fun flow => ?_
    cases flow with
    | next =>
      exact execAll_extendsTo hle h (s.bindings addr ++ env) (addr + s.cells) ss
    | broken | continued | returned => exact .refl _

end

end

theorem invoke_extendsTo (fs : List Function) (hle : depth ≤ depth')
    (f : Function) (args : List Cell) :
    (invoke fs depth f args).ExtendsTo (invoke fs depth' f args) := by
  induction depth generalizing depth' f args with
  | zero =>
    intro s h
    cases h
  | succ depth ih =>
    cases depth' with
    | zero => omega
    | succ depth' =>
      have hle : depth ≤ depth' := by omega
      refine (Eval.ExtendsTo.refl _).bind fun base => ?_
      refine Eval.ExtendsTo.bind ?_ fun v => .refl _
      refine (Eval.ExtendsTo.refl _).bind fun _ => ?_
      exact (execAll_extendsTo hle (fun g vs => ih hle g vs) _ _ f.body).bind
        fun flow => .refl _

/-- A result that was not given up is the result at every greater depth. -/
theorem evaluate_of_le {fs : List Function} (hle : depth ≤ depth')
    (h : isGivenUp (evaluate fs depth) = false) :
    evaluate fs depth' = evaluate fs depth := by
  simp only [evaluate] at h ⊢
  split at h
  next f _ => exact invoke_extendsTo fs hle f [] _ h
  next => rfl

end StackC
