import StackC.Text.Character

/-!
Macros and the parts of a text that expansion looks at: names, numbers and
quoted literals, all by bytes. A quoted literal that is not closed goes on to
the end of the text.
-/

namespace StackC

/-- A defined name. Without a parameter list the body replaces the bare name;
with one it replaces the name together with its arguments. -/
structure Macro where
  params : Option (List Bytes) := none
  body : Bytes
  deriving DecidableEq, Repr

/-- The macros in force, by name. -/
abbrev Macros := List (Name × Macro)

namespace Macros

def get? (t : Macros) (name : Name) : Option Macro :=
  t.lookup name

def erase (t : Macros) (name : Name) : Macros :=
  t.filter fun e => e.1 != name

def insert (t : Macros) (name : Name) (m : Macro) : Macros :=
  (name, m) :: t.erase name

end Macros

namespace Macro

def startsName (b : UInt8) : Bool :=
  (byte 'a' ≤ b && b ≤ byte 'z') || (byte 'A' ≤ b && b ≤ byte 'Z') ||
    b == byte '_'

def isDecimal (b : UInt8) : Bool :=
  byte '0' ≤ b && b ≤ byte '9'

def inName (b : UInt8) : Bool :=
  startsName b || isDecimal b

def isQuote (b : UInt8) : Bool :=
  b == byte '"' || b == byte '\''

/-- The rest of a literal that was opened by `quote`, its closing quote
included, and the text after it. -/
def literalRest (quote : UInt8) : Bytes → Bytes × Bytes
  | [] => ([], [])
  | [b] => ([b], [])
  | b :: c :: s =>
    if b == byte '\\' then
      let (lit, rest) := literalRest quote s
      (b :: c :: lit, rest)
    else if b == quote then ([b], c :: s)
    else
      let (lit, rest) := literalRest quote (c :: s)
      (b :: lit, rest)

/-- The arguments up to the parenthesis that closes the list, and the text after
it. `depth` counts the parentheses open inside the current argument, `arg` is
what was read of it, in reverse, and `first` tells whether it is the first: a
first argument that is empty and alone counts as none. -/
def argumentsFrom (first : Bool) (depth : Nat) (arg : Bytes) :
    Bytes → Option (List Bytes × Bytes)
  | [] => none
  | b :: s =>
    if b == byte '(' then argumentsFrom first (depth + 1) (b :: arg) s
    else if b == byte ')' then
      match depth with
      | 0 =>
        let last := Bytes.trim arg.reverse
        some (if first && last.isEmpty then [] else [last], s)
      | depth + 1 => argumentsFrom first depth (b :: arg) s
    else if b == byte ',' && depth == 0 then
      match argumentsFrom false 0 [] s with
      | none => none
      | some (args, rest) => some (Bytes.trim arg.reverse :: args, rest)
    else argumentsFrom first depth (b :: arg) s

/-- The arguments in parentheses at the start of a text, after any spaces and
tabs, and the text after them. -/
def arguments (s : Bytes) : Option (List Bytes × Bytes) :=
  match s.dropWhile fun b => b == byte ' ' || b == byte '\t' with
  | [] => none
  | b :: s => if b == byte '(' then argumentsFrom true 0 [] s else none

end Macro

end StackC
