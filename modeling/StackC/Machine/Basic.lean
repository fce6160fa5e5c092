import StackC.Program.Basic

/-!
The state of the machine. Memory is one array of cells: the data of the program
at the bottom, above it one frame for each call that has not returned, which
holds the arguments and then the locals. Values are computed on an operand stack
of their own.
-/

namespace StackC

/-- A call that has not returned: where its arguments start in memory, how many
there are, and the address to return to. -/
structure Frame where
  base : Nat
  count : Nat
  returnTo : Int
  deriving DecidableEq, Repr

/-- How long and how deep a run may go, and whether the output can be written
to. -/
structure Limits where
  maxSteps : Nat := 10000000
  maxDepth : Nat := 10000
  canWrite : Bool := true
  deriving DecidableEq, Repr

/-- The limits for given numbers; one that is not positive means the usual
limit. -/
def Limits.ofInts (maxSteps maxDepth : Int) (canWrite : Bool) : Limits :=
  let usual : Limits := {}
  { maxSteps := if maxSteps ≤ 0 then usual.maxSteps else maxSteps.toNat
    maxDepth := if maxDepth ≤ 0 then usual.maxDepth else maxDepth.toNat
    canWrite }

/-- The state of the machine. The top of the stack is the head of the list; the
calls are listed from the outermost; `staged` holds the arguments of the next
call. -/
structure Machine where
  pc : Int
  stack : List Cell := []
  memory : Array Cell
  steps : Nat := 0
  frames : Array Frame
  staged : List Cell := []
  halted : Bool := false
  result : Cell := 0
  output : Array UInt8 := #[]
  deriving DecidableEq, Repr

/-- Why the machine cannot go on. -/
inductive Fault where
  | stackUnderflow
  | pcOutside
  | stepLimit (limit : Nat)
  | callDepth (limit : Nat)
  | badSlot (slot : Cell)
  | nullPointer
  | badAddress (addr : Cell)
  | divisionByZero
  | badWidth (op : Opcode) (width : Cell)
  | tooFewForFrame (wanted : Cell) (found : Nat)
  | tooFewForPrintf (wanted : Cell) (found : Nat)
  | negativeEntry (size : Cell)
  | missingArgument (verb : Nat)
  | unknownVerb (verb : UInt8)
  | outputClosed
  | illegalOpcode (op : Opcode)
  deriving DecidableEq, Repr

/-- A fault and the address of the instruction after the one that failed. -/
structure RuntimeError where
  pc : Int
  fault : Fault
  deriving DecidableEq, Repr

/-- How a step can end other than normally: by a fault, or because the machine
itself breaks down: an access outside the memory array, or a memory that cannot
exist. -/
inductive Stop where
  | fault (e : RuntimeError)
  | crash
  deriving DecidableEq, Repr

def Fault.render : Fault → Bytes
  | .stackUnderflow => text "operand stack underflow"
  | .pcOutside => text "pc out of range"
  | .stepLimit limit =>
    text "step limit " ++ Numeral.decimalNat limit ++ text " exceeded"
  | .callDepth limit =>
    text "call depth " ++ Numeral.decimalNat limit ++ text " exceeded"
  | .badSlot slot => text "bad slot " ++ Cell.decimal slot
  | .nullPointer => text "null pointer dereference"
  | .badAddress addr =>
    text "address " ++ Cell.decimal addr ++ text " out of bounds"
  | .divisionByZero => text "division by zero"
  | .badWidth op width =>
    op.mnemonic ++ text " with width " ++ Cell.decimal width
  | .tooFewForFrame wanted found =>
    text "FRAME " ++ Cell.decimal wanted ++ text " with " ++
      Numeral.decimalNat found ++ text " values on the stack"
  | .tooFewForPrintf wanted found =>
    text "PRINTF " ++ Cell.decimal wanted ++ text " with " ++
      Numeral.decimalNat found ++ text " values on the stack"
  | .negativeEntry size =>
    text "ENTRY with negative frame size " ++ Cell.decimal size
  | .missingArgument verb =>
    text "printf: missing argument for verb " ++ Numeral.decimalNat verb
  | .unknownVerb b =>
    text "printf: unknown verb %" ++ String.utf8EncodeChar (Char.ofUInt8 b)
  | .outputClosed => text "write: sink closed"
  | .illegalOpcode op => text "illegal opcode " ++ op.mnemonic

def RuntimeError.message (e : RuntimeError) : Bytes :=
  text "runtime error at " ++ Numeral.zeroPadded 4 e.pc ++ text ": " ++
    e.fault.render

namespace Machine

/-- The state before the first step. The function at the entry runs as if called
with no arguments. -/
def start (p : Program) : Machine :=
  let memory := if p.data.isEmpty then #[0] else p.data
  { pc := p.entry.toInt
    memory
    frames := #[{ base := memory.size, count := 0, returnTo := -1 }] }

def fail (m : Machine) (f : Fault) : Machine × Option Stop :=
  ({ m with halted := true }, some (.fault { pc := m.pc, fault := f }))

/-- A step that ends normally. -/
def go (m : Machine) : Machine × Option Stop :=
  (m, none)

def breakDown (m : Machine) : Machine × Option Stop :=
  (m, some .crash)

end Machine

end StackC
