import StackC.Ty.Basic
import StackC.Ty.Operator

/-!
The rules of types: conversions between integer types, the types of operators,
what may be assigned to what, and what can be dereferenced.
-/

namespace StackC

/-- Why something has no type or may not stand where it does. -/
inductive TypeError where
  | voidOperand (op : Operator)
  | notComparable (left right : Ty)
  | badOperands (op : Operator) (left right : Ty)
  | assignToArray (target : Ty)
  | notConvertible (source target : Ty)
  | notPointer (t : Ty)
  | derefVoid
  | notAddressable (shown : Bytes)
  | notAssignable (shown : Bytes)
  | notScalar (what : Bytes) (t : Ty)
  | voidVariable (name : Name)
  | arrayLength (name : Name) (len : Int64)
  | arrayInitializer (name : Name)
  | returnType (function : Name) (t : Ty)
  | paramType (param function : Name) (t : Ty)
  | missingReturnValue (function : Name) (t : Ty)
  | unexpectedReturnValue (function : Name)
  | formatType (t : Ty)
  | formatEnds
  | unknownVerb (verb : UInt8)
  deriving DecidableEq, Repr

def TypeError.message (e : TypeError) : Bytes :=
  text "type error: " ++ match e with
    | .voidOperand op =>
      text "operand of " ++ op.spelling ++ text " has type void"
    | .notComparable l r =>
      text "cannot compare " ++ l.render ++ text " and " ++ r.render
    | .badOperands op l r =>
      text "invalid operands to " ++ op.spelling ++ text ": " ++ l.render ++
        text " and " ++ r.render
    | .assignToArray t => text "cannot assign to array of type " ++ t.render
    | .notConvertible source target =>
      text "cannot assign " ++ source.render ++ text " to " ++ target.render
    | .notPointer t => text "cannot dereference non-pointer type " ++ t.render
    | .derefVoid => text "cannot dereference void*"
    | .notAddressable shown => text "cannot take the address of " ++ shown
    | .notAssignable shown => shown ++ text " is not assignable"
    | .notScalar what t => what ++ text " has non-scalar type " ++ t.render
    | .voidVariable name =>
      text "variable " ++ quoted name ++ text " declared void"
    | .arrayLength name len =>
      text "array " ++ quoted name ++ text " has non-positive length " ++
        Cell.decimal len
    | .arrayInitializer name =>
      text "array " ++ quoted name ++ text " cannot have an initializer"
    | .returnType f t =>
      text "function " ++ f ++ text " cannot return " ++ t.render
    | .paramType p f t =>
      text "parameter " ++ quoted p ++ text " of " ++ f ++
        text " has non-scalar type " ++ t.render
    | .missingReturnValue f t =>
      f ++ text " must return a value of type " ++ t.render
    | .unexpectedReturnValue f =>
      text "void function " ++ f ++ text " cannot return a value"
    | .formatType t =>
      text "printf format has type " ++ t.render ++ text ", want char*"
    | .formatEnds => text "printf format ends with %"
    | .unknownVerb b =>
      text "unknown printf verb %" ++ String.utf8EncodeChar (Char.ofUInt8 b)

namespace Ty

/-- Integer promotion: what ranks below `int` becomes `int`. -/
def promote : Ty → Ty
  | base b unsigned => if b.rank < Base.int.rank then int else base b unsigned
  | t => t

/-- The type both operands of an integer operator are converted to: the higher
rank wins, and without a sign wins over with a sign at equal rank. -/
def common (l r : Ty) : Ty :=
  match l.promote, r.promote with
  | base b u, base c v =>
    if c.rank < b.rank then base b u
    else if b.rank < c.rank then base c v
    else if v then base c v
    else base b u
  | l, _ => l

/-- Whether every value of the integer type `source` is also a value of the
integer type `t`. -/
def holds (t source : Ty) : Bool :=
  if t.isInteger && source.isInteger then
    if t.size < source.size then false
    else if source.size = t.size then source.isUnsigned == t.isUnsigned
    else !t.isUnsigned || source.isUnsigned
  else false

/-- Whether pointers to the two types may be mixed: equal types, or one of them
is `void`. -/
def sameTarget (l r : Ty) : Bool :=
  l == r || l.isVoid || r.isVoid

/-- The type of `l op r`, where arrays have already become pointers. -/
def binary (op : Operator) (l r : Ty) : Except TypeError Ty :=
  if l.isVoid || r.isVoid then .error (.voidOperand op)
  else if op.isComparison then
    match l, r with
    | base .., base .. => .ok int
    | pointer a, pointer b =>
      if sameTarget a b then .ok int else .error (.notComparable l r)
    | _, _ => .error (.notComparable l r)
  else
    match op, l, r with
    | _, base .., base .. => .ok (common l r)
    | .add, pointer _, base .. => .ok l
    | .add, base .., pointer _ => .ok r
    | .sub, pointer _, base .. => .ok l
    | .sub, pointer a, pointer b =>
      if a == b then .ok long else .error (.badOperands op l r)
    | _, _, _ => .error (.badOperands op l r)

/-- Checks that a value of type `source` may be stored into `target`; `isZero`
tells that the value is the literal 0. -/
def checkAssign (target source : Ty) (isZero : Bool) : Except TypeError Unit :=
  let source := source.decay
  if target.isArray then .error (.assignToArray target)
  else if target.isVoid || source.isVoid then
    .error (.notConvertible source target)
  else match target, source with
    | base .., base .. => .ok ()
    | pointer a, pointer b =>
      if sameTarget a b then .ok ()
      else .error (.notConvertible source target)
    | pointer _, base .. =>
      if isZero then .ok () else .error (.notConvertible source target)
    | _, _ => .error (.notConvertible source target)

def deref (t : Ty) : Except TypeError Ty :=
  match t.decay with
  | pointer elem => if elem.isVoid then .error .derefVoid else .ok elem
  | t => .error (.notPointer t)

/-- Checks that a variable of type `t` can have storage. -/
def checkStorable (name : Name) : Ty → Except TypeError Unit
  | base .void _ => .error (.voidVariable name)
  | array elem len =>
    if len.toInt ≤ 0 then .error (.arrayLength name len)
    else checkStorable name elem
  | _ => .ok ()

end Ty

end StackC
