import StackC.Emit.Expr
import StackC.Tree.Basic

/-!
What a tree determines by itself: its string constants and the cells of its
local variables in the order of the source, whether all its operators are
defined ones, and the number of its nodes.
-/

namespace StackC

mutual

/-- The string constants of an expression, from left to right. -/
def Expr.strings : Expr → List Bytes
  | .str s => [s]
  | .binary _ l r => l.strings ++ r.strings
  | .call _ args => exprsStrings args
  | .addr x | .deref x => x.strings
  | .int .. | .var _ | .hole => []

def exprsStrings : List Expr → List Bytes
  | [] => []
  | x :: xs => x.strings ++ exprsStrings xs

end

mutual

/-- The string constants of a statement, in the order of the source. -/
def Stmt.strings : Stmt → List Bytes
  | .block body | .func _ _ _ body => stmtsStrings body
  | .init _ _ value | .expr value | .ret (some value) => value.strings
  | .assign target value => target.strings ++ value.strings
  | .ifThen cond body | .whileDo cond body => cond.strings ++ body.strings
  | .ifElse cond body orElse => cond.strings ++ body.strings ++ orElse.strings
  | .printf format args => format.strings ++ exprsStrings args
  | .decl .. | .ret none | .breakLoop | .continueLoop | .hole => []

def stmtsStrings : List Stmt → List Bytes
  | [] => []
  | s :: ss => s.strings ++ stmtsStrings ss

end

def Pool.address? (p : Pool) (s : Bytes) : Option Cell :=
  (p.known.find? (·.1 == s)).map (·.2)

def Pool.addAll (p : Pool) (ss : List Bytes) : Pool :=
  ss.foldl (fun p s => (p.intern s).2) p

/-- The pool of the string constants of functions, in the order of the
source. -/
def stringPool (fs : List Function) : Pool :=
  Pool.addAll {} (fs.flatMap fun f => stmtsStrings f.body)

theorem Pool.addAll_append (p : Pool) (ss ss' : List Bytes) :
    p.addAll (ss ++ ss') = (p.addAll ss).addAll ss' :=
  List.foldl_append

/-- The number of cells a value takes, counted without an end to the numbers. -/
def Ty.cellTotal : Ty → Nat
  | .base .void _ => 0
  | .base _ _ => 1
  | .pointer _ => 1
  | .array elem len => elem.cellTotal * len.toInt.toNat

mutual

/-- The number of cells that the declarations in a statement take. -/
def Stmt.cells : Stmt → Nat
  | .block body => stmtsCells body
  | .decl ty _ | .init ty _ _ => ty.cellTotal
  | .ifThen _ body | .whileDo _ body => body.cells
  | .ifElse _ body orElse => body.cells + orElse.cells
  | .func .. | .assign .. | .ret _ | .expr _ | .breakLoop | .continueLoop
  | .printf .. | .hole => 0

def stmtsCells : List Stmt → Nat
  | [] => 0
  | s :: ss => s.cells + stmtsCells ss

end

def Function.cells (f : Function) : Nat :=
  stmtsCells f.body

def Operator.isDefined : Operator → Bool
  | .other _ => false
  | _ => true

mutual

def Expr.isDefined : Expr → Bool
  | .binary op l r => op.isDefined && l.isDefined && r.isDefined
  | .call _ args => exprsDefined args
  | .addr x | .deref x => x.isDefined
  | .int .. | .str _ | .var _ | .hole => true

def exprsDefined : List Expr → Bool
  | [] => true
  | x :: xs => x.isDefined && exprsDefined xs

end

mutual

def Stmt.isDefined : Stmt → Bool
  | .block body | .func _ _ _ body => stmtsDefined body
  | .init _ _ value | .expr value | .ret (some value) => value.isDefined
  | .assign target value => target.isDefined && value.isDefined
  | .ifThen cond body | .whileDo cond body => cond.isDefined && body.isDefined
  | .ifElse cond body orElse =>
    cond.isDefined && body.isDefined && orElse.isDefined
  | .printf format args => format.isDefined && exprsDefined args
  | .decl .. | .ret none | .breakLoop | .continueLoop | .hole => true

def stmtsDefined : List Stmt → Bool
  | [] => true
  | s :: ss => s.isDefined && stmtsDefined ss

end

def Function.isDefined (f : Function) : Bool :=
  stmtsDefined f.body

mutual

def Expr.nodes : Expr → Nat
  | .binary _ l r => l.nodes + r.nodes + 1
  | .call _ args => exprsNodes args + 1
  | .addr x | .deref x => x.nodes + 1
  | .int .. | .str _ | .var _ | .hole => 1

def exprsNodes : List Expr → Nat
  | [] => 0
  | x :: xs => x.nodes + exprsNodes xs

end

mutual

def Stmt.nodes : Stmt → Nat
  | .block body | .func _ _ _ body => stmtsNodes body + 1
  | .init _ _ value | .expr value | .ret (some value) => value.nodes + 1
  | .assign target value => target.nodes + value.nodes + 1
  | .ifThen cond body | .whileDo cond body => cond.nodes + body.nodes + 1
  | .ifElse cond body orElse => cond.nodes + body.nodes + orElse.nodes + 1
  | .printf format args => format.nodes + exprsNodes args + 1
  | .decl .. | .ret none | .breakLoop | .continueLoop | .hole => 1

def stmtsNodes : List Stmt → Nat
  | [] => 0
  | s :: ss => s.nodes + stmtsNodes ss

end

/-- The number of nodes of a function: the block of its body, and the function
itself. -/
def Function.nodes (f : Function) : Nat :=
  (Stmt.block f.body).nodes + 1

def nodeCount : List Function → Nat
  | [] => 0
  | f :: fs => f.nodes + nodeCount fs

end StackC
