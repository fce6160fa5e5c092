import StackC.Names.Error
import StackC.Program.Symbols
import StackC.Tree.Basic

/-!
The functions of a program: their signatures, and their addresses once these are
known. A call of a function without an address is emitted with an open operand,
which is filled when the address is defined.
-/

namespace StackC

/-- A function that can be called. The entry is negative until the address of
its code is known. -/
structure FuncDef where
  ret : Ty
  name : Name
  params : List Param
  entry : Cell := -1
  deriving DecidableEq, Repr

def FuncDef.isDefined (f : FuncDef) : Bool :=
  0 ≤ f.entry.toInt

/-- The functions of a program, and the calls that wait for an address (name and
place, latest first). -/
structure Functions where
  defs : List FuncDef := []
  waiting : List (Name × Nat) := []
  deriving DecidableEq, Repr

namespace Functions

def find? (t : Functions) (name : Name) : Option FuncDef :=
  t.defs.find? (·.name == name)

def register (t : Functions) (ret : Ty) (name : Name) (params : List Param) :
    Except ProgramError (FuncDef × Functions) :=
  if (t.find? name).isSome then .error (.duplicateFunction name)
  else
    let f : FuncDef := { ret, name, params }
    .ok (f, { t with defs := t.defs ++ [f] })

/-- The function that is called by a name with a number of arguments. -/
def lookup (t : Functions) (name : Name) (count : Int) :
    Except ProgramError FuncDef :=
  match t.find? name with
  | none => .error (.unresolvedFunction name)
  | some f =>
    if (f.params.length : Int) = count then .ok f
    else .error (.argumentCount name f.params.length count)

/-- Emits a call; without an address it waits for one. -/
def emitCall (t : Functions) (d : Draft) (f : FuncDef) : Functions × Draft :=
  if f.isDefined then (t, d.emit .call f.entry)
  else ({ t with waiting := (f.name, d.size) :: t.waiting }, d.emitOpen .call)

/-- The places of the calls that wait for a function, in the order they were
emitted. -/
def waitingFor (t : Functions) (name : Name) : List Nat :=
  ((t.waiting.filter (·.1 == name)).map (·.2)).reverse

def setEntry (t : Functions) (name : Name) (entry : Cell) : Functions :=
  { t with
    defs := t.defs.map fun f => if f.name == name then { f with entry } else f }

/-- Records the address of a function and fills the calls that wait for it. The
address counts as recorded even if a call cannot be filled, and then the calls
keep waiting. -/
def define (t : Functions) (d : Draft) (name : Name) (entry : Cell) :
    Functions × Draft × Option ProgramError :=
  match t.find? name with
  | none => (t, d, some (.unresolvedFunction name))
  | some f =>
    if f.isDefined then (t, d, some (.duplicateFunction name))
    else
      let t := t.setEntry name entry
      match d.fillAll entry (t.waitingFor name) with
      | (d, some e) => (t, d, some (.draft e))
      | (d, none) =>
        ({ t with waiting := t.waiting.filter (·.1 != name) }, d, none)

/-- The functions that calls still wait for, in order. -/
def unresolved (t : Functions) : List Name :=
  (t.waiting.foldl (fun s e => s.insert e.1 0) ({} : Symbols)).entries.map (·.1)

def entries (t : Functions) : Symbols :=
  t.defs.foldl (fun s f => if f.isDefined then s.insert f.name f.entry
    else s) {}

end Functions

end StackC
