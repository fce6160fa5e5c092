import StackC.Program.Instr

/-!
Drafts: code under construction. Instructions are only ever added at the end. An
instruction may be added with an open operand, which is filled exactly once
later; a label collects the jumps to an address that is not known yet and fills
them all when it is bound.
-/

namespace StackC

/-- A jump target: the address it is bound to, and the addresses of the jumps
that wait for it, latest first. -/
structure Label where
  addr : Option Nat := none
  waiting : List Nat := []
  deriving DecidableEq, Repr, Inhabited

/-- The number of a label in its draft. -/
abbrev LabelId := Nat

/-- A line of a draft: an instruction, and whether its operand is open. -/
structure Draft.Line where
  instr : Instr
  isOpen : Bool := false
  deriving DecidableEq, Repr

/-- Code under construction: the lines, whose places are the addresses, and the
labels. -/
structure Draft where
  lines : Array Draft.Line := #[]
  labels : Array Label := #[]
  deriving DecidableEq, Repr

namespace Draft

/-- Why an operation on a draft is refused. -/
inductive Error where
  | notOpen (addr : Int)
  | targetOutside (target : Cell) (op : Opcode) (addr : Nat)
  | stillOpen (addrs : List Nat)
  | alreadyBound (addr : Nat)
  | jumpOutside (op : Opcode) (addr : Nat) (target : Cell)
  deriving DecidableEq, Repr

def Error.message : Error → Bytes
  | .notOpen addr =>
    text "bad patch: address " ++ Numeral.decimal addr ++
      text " is not an open placeholder"
  | .targetOutside target op addr =>
    text "bad patch: target " ++ Cell.decimal target ++
      text " out of range for " ++ op.mnemonic ++ text " at " ++
      Numeral.decimalNat addr
  | .stillOpen addrs =>
    text "unpatched placeholder at " ++ Bytes.bracketed
      (addrs.map Numeral.decimalNat)
  | .alreadyBound addr =>
    text "label already bound at " ++ Numeral.decimalNat addr
  | .jumpOutside op addr target =>
    text "jump target outside the stream: " ++ op.mnemonic ++ text " at " ++
      Numeral.decimalNat addr ++ text " targets " ++ Cell.decimal target

/-- The operand that stands in an open place. -/
def openOperand : Cell := -1

/-- The address that the next instruction gets. -/
def size (d : Draft) : Nat :=
  d.lines.size

def instrs (d : Draft) : Array Instr :=
  d.lines.map (·.instr)

def isOpen (d : Draft) (addr : Nat) : Bool :=
  match d.lines[addr]? with
  | some line => line.isOpen
  | none => false

def emit (d : Draft) (op : Opcode) (operand : Cell := 0) : Draft :=
  { d with lines := d.lines.push { instr := { op, operand } } }

def emitOpen (d : Draft) (op : Opcode) : Draft :=
  { d with
    lines := d.lines.push { instr := { op, operand := openOperand },
                            isOpen := true } }

/-- Why the operand at `addr` cannot be filled, if it cannot. A jump may go to
the address after the last instruction. -/
def refusal? (d : Draft) (addr : Int) (operand : Cell) : Option Error :=
  if addr < 0 then some (.notOpen addr)
  else match d.lines[addr.toNat]? with
    | some { instr := i, isOpen := true } =>
      if i.op.isJump ∧ (operand.toInt < 0 ∨ (d.size : Int) < operand.toInt) then
        some (.targetOutside operand i.op addr.toNat)
      else none
    | _ => some (.notOpen addr)

/-- Sets the operand at `addr`, which is no longer open then. -/
def setOperand (d : Draft) (addr : Nat) (operand : Cell) : Draft :=
  { d with
    lines := d.lines.modify addr fun line => { instr := {
      line.instr with operand } } }

def fill (d : Draft) (addr : Int) (operand : Cell) : Except Error Draft :=
  match d.refusal? addr operand with
  | some e => .error e
  | none => .ok (d.setOperand addr.toNat operand)

def openAddrs (d : Draft) : List Nat :=
  (List.range d.size).filter d.isOpen

/-- The finished code: no operand is open and every jump goes to an
instruction. -/
def finish (d : Draft) : Except Error (Array Instr) :=
  match d.openAddrs with
  | addr :: addrs => .error (.stillOpen (addr :: addrs))
  | [] =>
    match Instr.firstOutside d.size 0 d.instrs.toList with
    | some (addr, i) => .error (.jumpOutside i.op addr i.operand)
    | none => .ok d.instrs

/-- The label with a number; one that was never made counts as unbound. -/
def label (d : Draft) (l : LabelId) : Label :=
  d.labels[l]?.getD {}

def newLabel (d : Draft) : LabelId × Draft :=
  (d.labels.size, { d with labels := d.labels.push {} })

/-- Makes a label bound to the next address. -/
def here (d : Draft) : LabelId × Draft :=
  (d.labels.size, { d with labels := d.labels.push { addr := some d.size } })

/-- Adds a jump to a label; if the label is not bound, the jump waits for it. -/
def jump (d : Draft) (op : Opcode) (l : LabelId) : Draft :=
  match (d.label l).addr with
  | some addr => d.emit op (Int64.ofNat addr)
  | none =>
    let addr := d.size
    let d := d.emitOpen op
    { d with
      labels := d.labels.modify l fun b => { b with
                                             waiting := addr :: b.waiting } }

/-- Fills the operands at the given addresses in turn, up to the first that is
refused. -/
def fillAll (d : Draft) (operand : Cell) : List Nat → Draft × Option Error
  | [] => (d, none)
  | addr :: addrs =>
    match d.refusal? addr operand with
    | some e => (d, some e)
    | none => fillAll (d.setOperand addr operand) operand addrs

/-- Binds a label to the next address and fills the jumps that wait for it. The
label counts as bound even if one of them is refused, and then keeps its waiting
list. -/
def bind (d : Draft) (l : LabelId) : Draft × Option Error :=
  match (d.label l).addr with
  | some addr => (d, some (.alreadyBound addr))
  | none =>
    let target := d.size
    let waiting := (d.label l).waiting.reverse
    let d :=
      { d with
        labels := d.labels.modify l fun b => { b with addr := some target } }
    match fillAll d (Int64.ofNat target) waiting with
    | (d, some e) => (d, some e)
    | (d, none) =>
      ({ d with labels := d.labels.modify l fun b => { b with waiting := [] } },
        none)

end Draft

end StackC
