import StackC.Text.Quoted

/-!
The instruction set of the stack machine: what each instruction is called, which
number it has, whether it carries an operand and whether the operand is an
instruction address. An instruction is an opcode and an operand of one cell.
-/

namespace StackC

/-- Operations that take two values from the stack and leave one. The ones
marked `U` read their values as unsigned. -/
inductive Arith where
  | add | sub | mul | div | mod
  | eq | ne | lt | le | gt | ge
  | divU | modU | ltU | leU | gtU | geU
  deriving DecidableEq, Repr, Inhabited

/-- What an instruction does. `illegal` stands for the numbers from 33 on, which
no instruction has. -/
inductive Opcode where
  | push
  | ret
  | entry
  | frame
  | storeLocal
  | loadLocal
  | call
  | pop
  | jump
  | jumpZero
  | addrLocal
  | load
  | store
  | printf
  | signExtend
  | zeroExtend
  | arith (f : Arith)
  | illegal (code : UInt8) (undefined : 33 ≤ code.toNat)
  deriving DecidableEq, Repr

namespace Arith

def mnemonic : Arith → String
  | add => "ADD" | sub => "SUB" | mul => "MUL" | div => "DIV" | mod => "MOD"
  | eq => "EQ" | ne => "NE" | lt => "LT" | le => "LE" | gt => "GT" | ge => "GE"
  | divU => "DIVU" | modU => "MODU"
  | ltU => "LTU" | leU => "LEU" | gtU => "GTU" | geU => "GEU"

end Arith

namespace Opcode

def defined : List Opcode :=
  [push, ret, entry, arith .add, arith .sub, arith .mul, arith .div, frame,
    storeLocal, loadLocal, call, pop, arith .mod, arith .eq, arith .ne,
    arith .lt, arith .le, arith .gt, arith .ge, jump, jumpZero, addrLocal, load,
    store, printf, arith .divU, arith .modU, arith .ltU, arith .leU, arith .gtU,
    arith .geU, signExtend, zeroExtend]

def ofCode (n : UInt8) : Opcode :=
  if h : 33 ≤ n.toNat then illegal n h else defined.getD n.toNat push

def code : Opcode → UInt8
  | illegal n _ => n
  | op => (defined.idxOf op).toUInt8

def mnemonic : Opcode → Bytes
  | push => text "PUSH"
  | ret => text "RET"
  | entry => text "ENTRY"
  | frame => text "FRAME"
  | storeLocal => text "STOREL"
  | loadLocal => text "LOADL"
  | call => text "CALL"
  | pop => text "POPR"
  | jump => text "JMP"
  | jumpZero => text "JZ"
  | addrLocal => text "ADDRL"
  | load => text "LOAD"
  | store => text "STORE"
  | printf => text "PRINTF"
  | signExtend => text "SEXT"
  | zeroExtend => text "ZEXT"
  | arith f => text f.mnemonic
  | illegal n _ => text "Opcode(" ++ Numeral.decimalNat n.toNat ++ text ")"

def ofMnemonic? (name : Bytes) : Option Opcode :=
  defined.find? fun op => op.mnemonic == name

/-- Whether an instruction with this opcode carries an operand. -/
def hasOperand : Opcode → Bool
  | ret | pop | load | store | arith _ | illegal .. => false
  | _ => true

/-- Whether the operand is an instruction address. -/
def isJump : Opcode → Bool
  | jump | jumpZero | call => true
  | _ => false

end Opcode

/-- A cell of memory or of the operand stack: a 64-bit word in two's
complement. -/
abbrev Cell := Int64

/-- One instruction. An opcode that carries no operand normally has operand
0. -/
structure Instr where
  op : Opcode
  operand : Cell := 0
  deriving DecidableEq, Repr

namespace Cell

def decimal (v : Cell) : Bytes :=
  Numeral.decimal v.toInt

end Cell

namespace Instr

def render (i : Instr) : Bytes :=
  if i.op.hasOperand then
    padRight 6 i.op.mnemonic ++ text " " ++ Cell.decimal i.operand
  else i.op.mnemonic

/-- Whether an instruction is a jump to somewhere outside `0 … size - 1`. -/
def jumpsOutside (size : Nat) (i : Instr) : Bool :=
  i.op.isJump && (i.operand.toInt < 0 || (size : Int) ≤ i.operand.toInt)

/-- The first instruction that jumps outside `0 … size - 1`, with its address;
the list starts at `addr`. -/
def firstOutside (size : Nat) : (addr : Nat) → List Instr → Option (Nat × Instr)
  | _, [] => none
  | addr, i :: is =>
    if i.jumpsOutside size then some (addr, i)
    else firstOutside size (addr + 1) is

end Instr

end StackC
