import StackC.Macro.Basic

/-!
Macro expansion. A name with a macro is replaced by the body of the macro, and
the body is expanded in turn under the table without that name. So no name is
expanded inside its own expansion, and expansion nests at most as deep as the
table has names. Literals and numbers are left as they are.
-/

namespace StackC

namespace Macro

/-- Replaces the names in a macro body for which `arg?` has an argument. At most
`fuel` parts of the body are looked at. -/
def substitute (arg? : Name → Option Bytes) : (fuel : Nat) → Bytes → Bytes
  | 0, s => s
  | _ + 1, [] => []
  | fuel + 1, b :: s =>
    if isQuote b then
      let (lit, rest) := literalRest b s
      b :: (lit ++ substitute arg? fuel rest)
    else if startsName b then
      let name := b :: s.takeWhile inName
      (arg? name).getD name ++ substitute arg? fuel (s.dropWhile inName)
    else b :: substitute arg? fuel s

/-- The argument of a parameter; of two parameters with one name the later
counts. -/
def argument? (params args : List Bytes) (name : Name) : Option Bytes :=
  (params.zip args).reverse.lookup name

/-- A macro body with arguments in place of parameters. -/
def instantiate (body : Bytes) (params args : List Bytes) : Bytes :=
  substitute (argument? params args) body.length body

/-- The text that replaces the name of a macro which `s` follows, and the text
after what is replaced; `none` if the macro needs arguments and `s` does not
start with the right number of them. -/
def apply (m : Macro) (s : Bytes) : Option (Bytes × Bytes) :=
  match m.params with
  | none => some (m.body, s)
  | some params =>
    match arguments s with
    | none => none
    | some (args, rest) =>
      if args.length = params.length then
        some (instantiate m.body params args, rest)
      else none

end Macro

namespace Macros

/-- Expands the names of a text; `inner name body` is the expansion of the body
that replaces `name`. At most `fuel` parts of the text are looked at. -/
def expandWith (t : Macros) (inner : Name → Bytes → Bytes) :
    (fuel : Nat) → Bytes → Bytes
  | 0, s => s
  | _ + 1, [] => []
  | fuel + 1, b :: s =>
    if Macro.isQuote b then
      let (lit, rest) := Macro.literalRest b s
      b :: (lit ++ expandWith t inner fuel rest)
    else if Macro.startsName b then
      let name := b :: s.takeWhile Macro.inName
      let rest := s.dropWhile Macro.inName
      match (t.get? name).bind (·.apply rest) with
      | none => name ++ expandWith t inner fuel rest
      | some (body, rest) => inner name body ++ expandWith t inner fuel rest
    else if Macro.isDecimal b then
      b :: (s.takeWhile Macro.inName ++ expandWith t inner fuel
        (s.dropWhile Macro.inName))
    else b :: expandWith t inner fuel s

/-- Expands the names of a text to the given nesting depth. -/
def expandTo : (depth : Nat) → Macros → Bytes → Bytes
  | 0, _, s => s
  | depth + 1, t, s =>
    t.expandWith (fun name body => expandTo depth (t.erase name) body)
      s.length s

def expand (t : Macros) (s : Bytes) : Bytes :=
  expandTo t.length t s

end Macros

end StackC
