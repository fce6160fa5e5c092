import StackC.Emit.Stmt
import StackC.Program.Basic

/-!
Code for programs: the signatures are registered first, so functions may be
called before they are defined; then the functions are emitted in their order.
-/

namespace StackC

def paramScope : Scope → List Param → Except ProgramError Scope
  | s, [] => .ok s
  | s, p :: ps => do
    let (_, s) ← s.addParam p.ty p.name
    paramScope s ps

/-- Adds the code of a function. The operand of its first instruction is the
number of local cells, which is known at the end. -/
def Function.emit (f : Function) (o : Output) : Except ProgramError Output := do
  let scope ← paramScope {} f.params
  let entry := o.draft.size
  match o.funcs.define (o.draft.emitOpen .entry) f.name (Int64.ofNat entry) with
  | (_, _, some err) => .error err
  | (funcs, draft, none) =>
    let g : FuncDef :=
      { ret := f.ret, name := f.name, params := f.params,
        entry := Int64.ofNat entry }
    let (ends, e) ←
      (Stmt.block f.body).emit g { out := { o with funcs, draft }, scope }
    let e := if ends then e else e.emitAll Emitter.returnZero
    match e.out.draft.fill entry e.scope.cellCount with
    | .error err => .error (.draft err)
    | .ok draft => return { e.out with draft }

def registerAll : Functions → List Function → Except ProgramError Functions
  | t, [] => .ok t
  | t, f :: fs => do
    typed (checkSignature f)
    let (_, t) ← t.register f.ret f.name f.params
    registerAll t fs

def emitFunctions : List Function → Output → Except ProgramError Output
  | [], o => .ok o
  | f :: fs, o => do
    let o ← located (.function f.name) (f.emit o)
    emitFunctions fs o

def mainName : Name := text "main"

/-- The program of a list of functions. A run starts at `main`, which has no
parameters. -/
def Program.ofFunctions (fs : List Function) : Except ProgramError Program := do
  let funcs ← registerAll {} fs
  let _ ← located .entryPoint (funcs.lookup mainName 0)
  let o ← emitFunctions fs { funcs }
  match o.funcs.unresolved with
  | name :: names => .error (.unresolvedFunctions (name :: names))
  | [] =>
    match o.draft.finish with
    | .error e => .error (.draft e)
    | .ok code =>
      let entry := ((o.funcs.find? mainName).map (·.entry)).getD (-1)
      return { code, data := o.pool.data, entry, funcs := o.funcs.entries }

end StackC
