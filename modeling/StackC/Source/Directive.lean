import StackC.Macro.Basic
import StackC.Source.Files
import StackC.Text.Quoted

/-!
Directives: lines that start with `#`. One defines a macro, forgets one, or
includes a file.
-/

namespace StackC

/-- What a directive line asks for, with the text after its first word. -/
inductive Directive where
  | define (rest : Bytes)
  | undefine (name : Bytes)
  | inclusion (rest : Bytes)
  | unknown (word : Bytes)
  deriving DecidableEq, Repr

/-- Why a source text cannot be expanded. -/
inductive SourceError where
  | unknownDirective (word : Bytes)
  | noMacroName (rest : Bytes)
  | openParameters (name : Name)
  | notQuoted (rest : Bytes)
  | noFiles (rest : Bytes)
  | circular (path : Path)
  | unreadable (e : FileError)
  | inLine (line : Nat) (e : SourceError)
  | inFile (path : Path) (e : SourceError)
  deriving DecidableEq, Repr

def SourceError.message : SourceError → Bytes
  | unknownDirective word => text "unknown directive #" ++ word
  | noMacroName rest => text "#define needs a macro name, got " ++ quoted rest
  | openParameters name => text "unterminated parameter list for macro " ++ name
  | notQuoted rest => text "#include expects a quoted file name, got " ++ rest
  | noFiles rest => text "#include " ++ rest ++ text ": no include file system"
  | circular path => text "circular include of " ++ path
  | unreadable e => text "#include: " ++ e.message
  | inLine n e => text "line " ++ Numeral.decimalNat n ++ text ": " ++ e.message
  | inFile path e => path ++ text ": " ++ e.message

namespace Directive

/-- The directive of a line; `none` if the line is plain text. Its first word
ends at a space. -/
def ofLine? (line : Bytes) : Option Directive :=
  match line.trim with
  | [] => none
  | b :: s =>
    if b == byte '#' then
      let (word, rest) := Bytes.cut (byte ' ') (Bytes.trim s)
      let rest := Bytes.trim rest
      some <|
        if word == text "define" then define rest
        else if word == text "undef" then undefine rest
        else if word == text "include" then inclusion rest
        else unknown word
    else none

def parameters (s : Bytes) : List Bytes :=
  let s := Bytes.trim s
  if s.isEmpty then [] else (Bytes.splitOn (byte ',') s).map Bytes.trim

/-- The name and the macro that a definition gives. A parenthesis directly after
the name starts a parameter list. -/
def definition (rest : Bytes) : Except SourceError (Name × Macro) :=
  let name := rest.takeWhile Macro.inName
  let after := rest.dropWhile Macro.inName
  if name.head?.any Macro.startsName then
    match after with
    | [] => .ok (name, { body := [] })
    | b :: s =>
      if b == byte '(' then
        if s.contains (byte ')') then
          let (inside, body) := Bytes.cut (byte ')') s
          .ok (name,
            { params := some (parameters inside), body := Bytes.trim body })
        else .error (.openParameters name)
      else .ok (name, { body := Bytes.trim after })
  else .error (.noMacroName rest)

def quotedName? : Bytes → Option Bytes
  | [] => none
  | b :: s =>
    if b == byte '"' && s.getLast? == some (byte '"') then some s.dropLast
    else none

/-- The path that an include names, for a source text that lies in `dir`. -/
def includePath? (dir : Path) (rest : Bytes) : Option Path :=
  (quotedName? rest).map (Path.join dir)

end Directive

end StackC
