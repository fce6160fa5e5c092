import StackC.Text.Quoted
import StackC.Tree.Basic

/-!
Trees as text, for messages and for looking at them.
-/

namespace StackC

/-- What is shown where a text should stand and the tree has a hole. -/
def holeText : Bytes := text "%!s(<nil>)"

/-- What is shown for a hole inside a list. -/
def holeItem : Bytes := text "<nil>"

mutual

/-- The text of an expression with more text after it. -/
def Expr.renderOnto : Expr → (rest : Bytes) → Bytes
  | .int v _, rest => Cell.decimal v ++ rest
  | .str s, rest => quoted s ++ rest
  | .binary op l r, rest =>
    text "(" ++ l.renderOnto
      (text " " ++ op.spelling ++ text " " ++ r.renderOnto (text ")" ++ rest))
  | .var name, rest => name ++ rest
  | .call name args, rest =>
    text "FunctionCall(" ++ name ++ text ", args=" ++ Bytes.bracketed
      (renderItems args) ++ text ")" ++ rest
  | .addr e, rest => text "(&" ++ e.renderOnto (text ")" ++ rest)
  | .deref e, rest => text "(*" ++ e.renderOnto (text ")" ++ rest)
  | .hole, rest => holeText ++ rest

def renderItems : List Expr → List Bytes
  | [] => []
  | .hole :: es => holeItem :: renderItems es
  | e :: es => e.renderOnto [] :: renderItems es

end

def Expr.render (e : Expr) : Bytes :=
  e.renderOnto []

/-- The head of a function definition as text, with the number of statements of
its body. -/
def renderFunction (ret : Ty) (name : Name) (params : List Param)
    (count : Nat) : Bytes :=
  let shown := params.map fun p => p.ty.render ++ text " " ++ p.name
  text "FunctionDecl(" ++ ret.render ++ text " " ++ name ++ text "(" ++
    (text ", ").intercalate shown ++ text "), body=BlockStmt(len=" ++
    Numeral.decimalNat count ++ text "))"

/-- A statement as text; of a block only the number of statements is shown. -/
def Stmt.render : Stmt → Bytes
  | .block body =>
    text "BlockStmt(len=" ++ Numeral.decimalNat body.length ++ text ")"
  | .func r name params body => renderFunction r name params body.length
  | .decl ty name =>
    text "VarDecl(" ++ ty.render ++ text " " ++ name ++ text ")"
  | .init ty name value =>
    text "VarInit(" ++ ty.render ++ text " " ++ name ++ text " = " ++
      value.render ++ text ")"
  | .assign target value =>
    text "Assignment(" ++ target.render ++ text " = " ++
      value.render ++ text ")"
  | .ret none => text "ReturnStmt(void)"
  | .ret (some e) => text "ReturnStmt(" ++ e.render ++ text ")"
  | .expr e => text "ExprStmt(" ++ e.render ++ text ")"
  | .ifThen cond body =>
    text "IfStmt(if " ++ cond.render ++ text " then " ++
      body.render ++ text ")"
  | .ifElse cond body orElse =>
    text "IfStmt(if " ++ cond.render ++ text " then " ++ body.render ++
      text " else " ++ orElse.render ++ text ")"
  | .whileDo cond body =>
    text "WhileStmt(while " ++ cond.render ++ text " do " ++
      body.render ++ text ")"
  | .breakLoop => text "BreakStmt"
  | .continueLoop => text "ContinueStmt"
  | .printf format args =>
    text "PrintfStmt(" ++ format.render ++ text ", args=" ++ Bytes.bracketed
      (renderItems args) ++ text ")"
  | .hole => holeText

def Function.render (f : Function) : Bytes :=
  renderFunction f.ret f.name f.params f.body.length

end StackC
