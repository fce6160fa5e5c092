import StackC.Program.Instr

/-!
Arithmetic on cells. Results wrap around at 64 bits, and division cuts off
towards zero.
-/

namespace StackC

def truth (b : Bool) : Cell :=
  if b then 1 else 0

/-- The result of an operation; a division by zero has none. -/
def Arith.apply : Arith → Cell → Cell → Option Cell
  | add, a, b => some (a + b)
  | sub, a, b => some (a - b)
  | mul, a, b => some (a * b)
  | div, a, b => if b = 0 then none else some (a / b)
  | mod, a, b => if b = 0 then none else some (a % b)
  | eq, a, b => some (truth (a == b))
  | ne, a, b => some (truth (a != b))
  | lt, a, b => some (truth (a < b))
  | le, a, b => some (truth (a ≤ b))
  | gt, a, b => some (truth (b < a))
  | ge, a, b => some (truth (b ≤ a))
  | divU, a, b => if b = 0 then none else some (a.toUInt64 / b.toUInt64).toInt64
  | modU, a, b => if b = 0 then none else some (a.toUInt64 % b.toUInt64).toInt64
  | ltU, a, b => some (truth (a.toUInt64 < b.toUInt64))
  | leU, a, b => some (truth (a.toUInt64 ≤ b.toUInt64))
  | gtU, a, b => some (truth (b.toUInt64 < a.toUInt64))
  | geU, a, b => some (truth (b.toUInt64 ≤ a.toUInt64))

namespace Cell

/-- Keeps the low `width` bytes and fills the rest with copies of the highest
bit kept. -/
def signExtend (v width : Cell) : Cell :=
  let shift := 64 - 8 * width
  (v <<< shift) >>> shift

/-- Keeps the low `width` bytes and fills the rest with zeros. -/
def zeroExtend (v width : Cell) : Cell :=
  let shift := (64 - 8 * width).toUInt64
  ((v.toUInt64 <<< shift) >>> shift).toInt64

def lowByte (v : Cell) : UInt8 :=
  v.toUInt64.toUInt8

end Cell

end StackC
