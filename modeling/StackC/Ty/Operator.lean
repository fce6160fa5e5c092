import StackC.Program.Instr

/-!
Binary operators: their spelling and their kind. An operator may also be given
by a number that no operator has.
-/

namespace StackC

/-- A binary operator. `other` stands for the numbers that no operator has. -/
inductive Operator where
  | add | sub | mul | div | mod
  | eq | ne | lt | le | gt | ge
  | other (code : Int)
  deriving DecidableEq, Repr

namespace Operator

def defined : List Operator :=
  [add, sub, mul, div, mod, eq, ne, lt, le, gt, ge]

def spelling : Operator → Bytes
  | add => text "+"
  | sub => text "-"
  | mul => text "*"
  | div => text "/"
  | mod => text "%"
  | eq => text "=="
  | ne => text "!="
  | lt => text "<"
  | le => text "<="
  | gt => text ">"
  | ge => text ">="
  | other n => text "BinaryOp(" ++ Numeral.decimal n ++ text ")"

/-- Whether the result is a truth value. Numbers above those of the operators
count as comparisons. -/
def isComparison : Operator → Bool
  | add | sub | mul | div | mod => false
  | eq | ne | lt | le | gt | ge => true
  | other n => 5 ≤ n

end Operator

end StackC
