import StackC.Ty.Basic
import StackC.Ty.Operator

/-!
Trees of expressions, statements and functions. `a[i]` is the tree of `*(a + i)`
and `-x` that of `0 - x`. A tree that is built by hand may leave places empty; a
`hole` stands there.
-/

namespace StackC

/-- What produces a value. The type of an integer literal may be left out and is
then `int`. -/
inductive Expr where
  | int (value : Cell) (ty : Option Ty)
  | str (value : Bytes)
  | binary (op : Operator) (left right : Expr)
  | var (name : Name)
  | call (name : Name) (args : List Expr)
  | addr (operand : Expr)
  | deref (operand : Expr)
  | hole
  deriving Repr, Inhabited

structure Param where
  ty : Ty
  name : Name
  deriving DecidableEq, Repr

inductive Stmt where
  | block (body : List Stmt)
  | func (ret : Ty) (name : Name) (params : List Param) (body : List Stmt)
  | decl (ty : Ty) (name : Name)
  | init (ty : Ty) (name : Name) (value : Expr)
  | assign (target value : Expr)
  | ret (value : Option Expr)
  | expr (e : Expr)
  | ifThen (cond : Expr) (body : Stmt)
  | ifElse (cond : Expr) (body orElse : Stmt)
  | whileDo (cond : Expr) (body : Stmt)
  | breakLoop
  | continueLoop
  | printf (format : Expr) (args : List Expr)
  | hole
  deriving Repr, Inhabited

structure Function where
  ret : Ty
  name : Name
  params : List Param
  body : List Stmt
  deriving Repr

def Expr.isZero : Expr → Bool
  | .int v _ => v == 0
  | _ => false

end StackC
