import StackC.Program.Instr

/-!
Types of values: the integer types and `void`, pointers and arrays. Sizes are in
bytes, and every value that is not an array takes one cell.
-/

namespace StackC

/-- The base types in order of rank. -/
inductive Base where
  | void | char | short | int | long
  deriving DecidableEq, Repr

inductive Ty where
  | base (b : Base) (unsigned : Bool)
  | pointer (elem : Ty)
  | array (elem : Ty) (len : Int64)
  deriving DecidableEq, Repr

namespace Base

def rank : Base → Nat
  | void => 0
  | char => 1
  | short => 2
  | int => 3
  | long => 4

def size : Base → Int64
  | void => 0
  | char => 1
  | short => 2
  | int => 4
  | long => 8

def name : Base → Bytes
  | void => text "void"
  | char => text "char"
  | short => text "short"
  | int => text "int"
  | long => text "long"

end Base

namespace Ty

abbrev void : Ty := .base .void false
abbrev char : Ty := .base .char false
abbrev short : Ty := .base .short false
abbrev int : Ty := .base .int false
abbrev long : Ty := .base .long false
abbrev unsignedLong : Ty := .base .long true

/-- The storage size in bytes; the size of an array wraps around at 64 bits. -/
def size : Ty → Int64
  | base b _ => b.size
  | pointer _ => 8
  | array elem len => elem.size * len

/-- The number of memory cells a value takes; that of an array wraps around at
64 bits. -/
def cells : Ty → Int64
  | base .void _ => 0
  | base _ _ => 1
  | pointer _ => 1
  | array elem len => elem.cells * len

def isVoid : Ty → Bool
  | base .void _ => true
  | _ => false

def isInteger : Ty → Bool
  | base .void _ => false
  | base _ _ => true
  | _ => false

def isPointer : Ty → Bool
  | pointer _ => true
  | _ => false

def isArray : Ty → Bool
  | array .. => true
  | _ => false

/-- Whether a value fits in one cell and can be tested for truth. -/
def isScalar (t : Ty) : Bool :=
  t.isInteger || t.isPointer

/-- An integer type without a sign. -/
def isUnsigned : Ty → Bool
  | base _ unsigned => unsigned
  | _ => false

/-- An array becomes a pointer to its first element. -/
def decay : Ty → Ty
  | array elem _ => pointer elem
  | t => t

/-- The text of a type with more text after it. -/
def renderOnto : Ty → (rest : Bytes) → Bytes
  | base b unsigned, rest =>
    (if unsigned then text "unsigned " else []) ++ b.name ++ rest
  | pointer elem, rest => elem.renderOnto (text "*" ++ rest)
  | array elem len, rest =>
    elem.renderOnto (text "[" ++ Cell.decimal len ++ text "]" ++ rest)

def render (t : Ty) : Bytes :=
  t.renderOnto []

end Ty

end StackC
