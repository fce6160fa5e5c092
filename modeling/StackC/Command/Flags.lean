import StackC.Machine.Basic
import StackC.Text.Quoted

/-!
Flags of the command line. A flag starts with one or two dashes; its value
follows an equals sign or is the next argument, except that a switch takes a
value only after an equals sign. Flags end at the first argument that is none,
or after `--`.
-/

namespace StackC

namespace Command

/-- What the flags ask for. -/
structure Settings where
  listing : Bool := false
  out : Bytes := []
  run : Bool := false
  maxSteps : Int := 10000000
  defines : List (Name × Bytes) := []
  deriving DecidableEq, Repr

inductive FlagError where
  | help
  | badForm (arg : Bytes)
  | notDefined (name : Bytes)
  | needsArgument (name : Bytes)
  | badSwitch (value name : Bytes)
  | badValue (value name reason : Bytes)
  deriving DecidableEq, Repr

/-- The wording of an error, with a newline after it; a request for help has
none. -/
def FlagError.message : FlagError → Bytes
  | help => []
  | badForm arg => text "bad flag syntax: " ++ arg ++ text "\n"
  | notDefined name =>
    text "flag provided but not defined: -" ++ name ++ text "\n"
  | needsArgument name => text "flag needs an argument: -" ++ name ++ text "\n"
  | badSwitch value name =>
    text "invalid boolean value " ++ quoted value ++ text " for -" ++ name ++
      text ": parse error\n"
  | badValue value name reason =>
    text "invalid value " ++ quoted value ++ text " for flag -" ++ name ++
      text ": " ++ reason ++ text "\n"

def usage : Bytes :=
  text <|
    "usage: jcc [-S] [-o out.jbc] [-run] [-D NAME=VALUE] file.c\n" ++
    "       jcc [-S] -run prog.jbc\n" ++
    "  -D value\n" ++
    "    \tpredefine a macro (repeatable)\n" ++
    "  -S\tprint the instruction listing\n" ++
    "  -max-steps n\n" ++
    "    \tabort execution after n instructions (default 10000000)\n" ++
    "  -o file\n" ++
    "    \twrite the encoded program to file\n" ++
    "  -run\n" ++
    "    \texecute the program on the reference VM\n"

inductive Argument where
  | plain
  | endOfFlags
  | malformed
  | flag (name : Bytes) (value : Option Bytes)
  deriving DecidableEq, Repr

/-- A flag without its dashes; an equals sign after the first byte starts the
value. -/
def Argument.ofFlag : Bytes → Argument
  | [] => malformed
  | b :: s =>
    if b == byte '-' || b == byte '=' then malformed
    else if s.contains (byte '=') then
      let (name, value) := Bytes.cut (byte '=') s
      flag (b :: name) (some value)
    else flag (b :: s) none

def Argument.ofBytes : Bytes → Argument
  | b :: c :: s =>
    if b == byte '-' then
      if c == byte '-' then
        if s.isEmpty then endOfFlags else ofFlag s
      else ofFlag (c :: s)
    else plain
  | _ => plain

def switchValue? (s : Bytes) : Option Bool :=
  if (["1", "t", "T", "TRUE", "true", "True"].map text).contains s then
    some true
  else if (["0", "f", "F", "FALSE", "false", "False"].map text).contains s then
    some false
  else none

namespace Settings

/-- The switches; the function sets one. -/
def switch? (name : Bytes) : Option (Settings → Bool → Settings) :=
  if name == text "S" then some fun s on => { s with listing := on }
  else if name == text "run" then some fun s on => { s with run := on }
  else none

/-- Predefines a macro, given as `NAME=VALUE` or as `NAME`, which stands for
`NAME=1`. -/
def addDefine (s : Settings) (v : Bytes) : Except Bytes Settings :=
  let name := v.takeWhile (· != byte '=')
  let value := if v.contains (byte '=') then (Bytes.cut (byte '=') v).2
    else text "1"
  if name.isEmpty then .error (text "empty macro name in " ++ quoted v)
  else .ok { s with defines := s.defines ++ [(name, value)] }

def setMaxSteps (s : Settings) (v : Bytes) : Except Bytes Settings :=
  match Numeral.readInt 64 v with
  | .ok n => .ok { s with maxSteps := n }
  | .error .malformed => .error (text "parse error")
  | .error .outOfRange => .error (text "value out of range")

/-- The flags with a value; the function takes the value or tells why it
cannot. -/
def valued? (name : Bytes) :
    Option (Settings → Bytes → Except Bytes Settings) :=
  if name == text "D" then some addDefine
  else if name == text "max-steps" then some setMaxSteps
  else if name == text "o" then some fun s v => .ok { s with out := v }
  else none

def setValue (s : Settings) (set : Settings → Bytes → Except Bytes Settings)
    (name value : Bytes) : Except FlagError Settings :=
  match set s value with
  | .ok s => .ok s
  | .error reason => .error (.badValue value name reason)

/-- Takes the flags at the front of the arguments and returns the arguments
after them. -/
def takeFlags (s : Settings) :
    List Bytes → Except FlagError (Settings × List Bytes)
  | [] => .ok (s, [])
  | arg :: args =>
    match Argument.ofBytes arg with
    | .plain => .ok (s, arg :: args)
    | .endOfFlags => .ok (s, args)
    | .malformed => .error (.badForm arg)
    | .flag name value? =>
      match switch? name, valued? name with
      | some set, _ =>
        match value? with
        | none => takeFlags (set s true) args
        | some v =>
          match switchValue? v with
          | some on => takeFlags (set s on) args
          | none => .error (.badSwitch v name)
      | none, some set =>
        match value?, args with
        | some v, args =>
          match s.setValue set name v with
          | .ok s => takeFlags s args
          | .error e => .error e
        | none, v :: args =>
          match s.setValue set name v with
          | .ok s => takeFlags s args
          | .error e => .error e
        | none, [] => .error (.needsArgument name)
      | none, none =>
        if name == text "help" || name == text "h" then .error .help
        else .error (.notDefined name)

end Settings

end Command

end StackC
