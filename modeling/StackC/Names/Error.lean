import StackC.Program.Draft
import StackC.Ty.Rules

/-!
Why a tree of functions is not a program.
-/

namespace StackC

/-- Where in a program an error was found. -/
inductive Place where
  | function (name : Name)
  | initializer (name : Name)
  | returnValue
  | argument (index : Nat) (function : Name)
  | entryPoint
  deriving DecidableEq, Repr

/-- Why a program is refused. -/
inductive ProgramError where
  | duplicateFunction (name : Name)
  | duplicateParam (name : Name)
  | duplicateVariable (name : Name)
  | unresolvedName (name : Name)
  | unresolvedFunction (name : Name)
  | unresolvedFunctions (names : List Name)
  | typing (e : TypeError)
  | argumentCount (function : Name) (wanted : Nat) (given : Int)
  | verbCount (format : Bytes) (verbs given : Nat)
  | breakOutside
  | continueOutside
  | nestedFunction (name : Name)
  | emptyExpr
  | emptyStmt
  | draft (e : Draft.Error)
  | within (place : Place) (e : ProgramError)
  deriving DecidableEq, Repr

def Place.render : Place → Bytes
  | .function name => text "function " ++ quoted name
  | .initializer name => text "initializer of " ++ quoted name
  | .returnValue => text "return value"
  | .argument index f =>
    text "argument " ++ Numeral.decimalNat index ++ text " of " ++ f
  | .entryPoint => text "entry point main"

def ProgramError.message : ProgramError → Bytes
  | .duplicateFunction name =>
    text "duplicate declaration of function: " ++ quoted name
  | .duplicateParam name =>
    text "duplicate declaration: parameter " ++ quoted name
  | .duplicateVariable name =>
    text "duplicate declaration: variable " ++ quoted name
  | .unresolvedName name => text "unresolved name: " ++ quoted name
  | .unresolvedFunction name => text "unresolved function: " ++ quoted name
  | .unresolvedFunctions names =>
    text "unresolved function: " ++ Bytes.bracketed names
  | .typing e => e.message
  | .argumentCount f wanted given =>
    text "arity mismatch: " ++ f ++ text " expects " ++
      Numeral.decimalNat wanted ++ text " arguments, got " ++
      Numeral.decimal given
  | .verbCount format verbs given =>
    text "arity mismatch: printf format " ++ quoted format ++ text " has " ++
      Numeral.decimalNat verbs ++ text " verbs, got " ++
      Numeral.decimalNat given ++ text " arguments"
  | .breakOutside => text "illegal control flow: break outside of a loop"
  | .continueOutside => text "illegal control flow: continue outside of a loop"
  | .nestedFunction name => text "nested function definition " ++ quoted name
  | .emptyExpr => text "unknown expression node <nil>"
  | .emptyStmt => text "unknown statement node <nil>"
  | .draft e => e.message
  | .within place e => place.render ++ text ": " ++ e.message

end StackC
