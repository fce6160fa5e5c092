import StackC.Names.Error
import StackC.Text.Order

/-!
The variables of one function. Blocks nest; a name means the variable of the
innermost block that has it. Parameters and locals are numbered apart, both from
1, and a number is never used again after its block has ended. The loops around
a place give the targets of `break` and `continue`.
-/

namespace StackC

/-- A parameter or local variable. A local of several cells has the number of
its first cell. -/
structure LocalVar where
  ty : Ty
  name : Name
  isParam : Bool
  slot : Cell
  deriving DecidableEq, Repr

/-- How instructions name a variable: parameters by negative numbers, locals by
positive ones. -/
def LocalVar.operand (v : LocalVar) : Cell :=
  if v.isParam then -v.slot else v.slot

/-- The labels of a loop that `break` and `continue` go to. -/
structure Loop where
  breakTo : LabelId
  continueTo : LabelId
  deriving DecidableEq, Repr

/-- The variables of a block, latest first. -/
abbrev Block := List LocalVar

/-- The variables visible at a place of a function: the parameters, the blocks
around the place from the innermost outwards, how many parameters and local
cells have been handed out, and the loops around the place from the innermost
outwards. -/
structure Scope where
  params : Block := []
  blocks : List Block := []
  paramCount : Nat := 0
  cellCount : Cell := 0
  loops : List Loop := []
  deriving DecidableEq, Repr

/-- Calls that may only be made inside a block or loop. -/
inductive Misuse where
  | noBlock
  | noLoop
  deriving DecidableEq, Repr

def Misuse.message : Misuse → Bytes
  | .noBlock => text "PopScope called on the argument scope"
  | .noLoop => text "ExitLoop called outside a loop"

namespace Block

def find? (b : Block) (name : Name) : Option LocalVar :=
  List.find? (fun v => v.name == name) b

def ordered (b : Block) : List LocalVar :=
  b.mergeSort fun v w => !Bytes.before w.name v.name

end Block

namespace Scope

/-- How many blocks are open, the parameters counted as one. -/
def depth (s : Scope) : Nat :=
  s.blocks.length + 1

def enter (s : Scope) : Scope :=
  { s with blocks := [] :: s.blocks }

/-- Leaves the innermost block, if there is one. -/
def leave (s : Scope) : Scope :=
  { s with blocks := s.blocks.tail }

/-- Leaves the innermost block; the parameters are not a block that can be
left. -/
def leaveBlock (s : Scope) : Except Misuse Scope :=
  if s.blocks.isEmpty then .error .noBlock else .ok s.leave

def addParam (s : Scope) (ty : Ty) (name : Name) :
    Except ProgramError (LocalVar × Scope) :=
  if (Block.find? s.params name).isSome then .error (.duplicateParam name)
  else
    let v : LocalVar :=
      { ty, name, isParam := true, slot := Int64.ofNat (s.paramCount + 1) }
    .ok (v, { s with params := v :: s.params, paramCount := s.paramCount + 1 })

/-- The block that a declaration goes into. -/
def innermost (s : Scope) : Block :=
  s.blocks.headD s.params

def put (s : Scope) (v : LocalVar) : Scope :=
  match s.blocks with
  | [] => { s with params := v :: s.params }
  | b :: bs => { s with blocks := (v :: b) :: bs }

/-- Adds a local variable to the innermost block. It may hide a variable of an
outer block. -/
def addLocal (s : Scope) (ty : Ty) (name : Name) :
    Except ProgramError (LocalVar × Scope) :=
  if (Block.find? s.innermost name).isSome then .error (.duplicateVariable name)
  else
    let v : LocalVar := { ty, name, isParam := false, slot := s.cellCount + 1 }
    .ok (v, { s.put v with cellCount := s.cellCount + ty.cells })

/-- The variable that a name means. -/
def find? (s : Scope) (name : Name) : Option LocalVar :=
  match s.blocks.findSome? fun b => b.find? name with
  | some v => some v
  | none => s.params.find? name

def resolve (s : Scope) (name : Name) : Except ProgramError LocalVar :=
  match s.find? name with
  | some v => .ok v
  | none => .error (.unresolvedName name)

def enterLoop (s : Scope) (l : Loop) : Scope :=
  { s with loops := l :: s.loops }

def leaveLoop (s : Scope) : Scope :=
  { s with loops := s.loops.tail }

def exitLoop (s : Scope) : Except Misuse Scope :=
  if s.loops.isEmpty then .error .noLoop else .ok s.leaveLoop

def breakTarget (s : Scope) : Except ProgramError LabelId :=
  match s.loops with
  | [] => .error .breakOutside
  | l :: _ => .ok l.breakTo

def continueTarget (s : Scope) : Except ProgramError LabelId :=
  match s.loops with
  | [] => .error .continueOutside
  | l :: _ => .ok l.continueTo

def renderBlock (b : Block) : Bytes :=
  b.ordered.flatMap fun v =>
    text "  " ++ padRight 20 v.name ++ text "  Slot: " ++
      Cell.decimal v.operand ++ text " (Type: " ++ v.ty.render ++ text ")\n"

def renderBlocks : Nat → List Block → Bytes
  | _, [] => []
  | k, b :: bs =>
    text "Scope " ++ Numeral.decimalNat k ++ text ":\n" ++ renderBlock b ++
      renderBlocks (k + 1) bs

/-- The visible variables as text, from the parameters to the innermost
block. -/
def render (s : Scope) : Bytes :=
  text "Arguments:\n" ++ renderBlock s.params ++ renderBlocks 1 s.blocks.reverse

end Scope

end StackC
