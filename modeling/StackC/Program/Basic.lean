import StackC.Program.Symbols

/-!
Programs: the instructions, the initial contents of memory, the address where a
run starts and the addresses of the functions; and the listing that shows a
program as text.
-/

namespace StackC

/-- What the machine runs. Cell 0 of the data is the null address. -/
structure Program where
  code : Array Instr := #[]
  data : Array Cell := #[]
  entry : Cell := 0
  funcs : Symbols := {}
  deriving DecidableEq, Repr

namespace Program

/-- The line of a listing that holds the data; nothing if there is none. -/
def dataLine (data : Array Cell) : Bytes :=
  if data.isEmpty then []
  else text ".data" ++ data.toList.flatMap
    (fun v => text " " ++ Cell.decimal v) ++ text "\n"

/-- The lines of a listing for the instruction at `addr`: its labels and the
instruction itself. -/
def instrLines (funcs : Symbols) (addr : Nat) (i : Instr) : Bytes :=
  (funcs.namesAt (Int64.ofNat addr)).flatMap (fun name => name ++ text ":\n") ++
    Numeral.zeroPadded 4 addr ++ text "  " ++ i.render ++ text "\n"

/-- The lines of a listing for the instructions from `addr` on. -/
def codeLines (funcs : Symbols) : Nat → List Instr → Bytes
  | _, [] => []
  | addr, i :: is => instrLines funcs addr i ++ codeLines funcs (addr + 1) is

def listing (p : Program) : Bytes :=
  text ".entry " ++ Cell.decimal p.entry ++ text "\n" ++ dataLine p.data ++
    codeLines p.funcs 0 p.code.toList

end Program

end StackC
