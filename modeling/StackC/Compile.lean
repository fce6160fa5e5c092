import StackC.Emit.Program
import StackC.Source.Expand
import StackC.Token.Scan
import StackC.Tree.ParseStmt

/-!
From source text to program: expansion, tokens, trees and code. An error tells
at which of these it arose.
-/

namespace StackC

/-- Why a source text has no program. -/
inductive CompileError where
  | unreadable (e : FileError)
  | source (e : SourceError)
  | lex (e : LexError)
  | parse (src : Bytes) (e : ParseError)
  | program (e : ProgramError)
  deriving Repr

def CompileError.message : CompileError → Bytes
  | unreadable e => e.message
  | source e => text "preprocess error: " ++ e.message
  | lex e => text "lex error: " ++ e.message
  | parse src e => text "parse error: " ++ e.message src
  | program e => text "codegen error: " ++ e.message

def compileExpanded (src : Bytes) : Except CompileError Program :=
  match lex src with
  | .error e => .error (.lex e)
  | .ok ts =>
    match parse ts with
    | .error e => .error (.parse src e)
    | .ok fs =>
      match Program.ofFunctions fs with
      | .error e => .error (.program e)
      | .ok p => .ok p

/-- The program of a source text that lies in `dir`, for a session that may
predefine macros. -/
def compileIn (s : Session) (fs? : Option FileSystem) (dir : Path)
    (src : Bytes) : Except CompileError Program :=
  match (s.expand fs? dir src).2 with
  | .error e => .error (.source e)
  | .ok src => compileExpanded src

/-- The program of a source text without includes. -/
def compile (src : Bytes) : Except CompileError Program :=
  compileIn {} none Path.dot src

def compileFile (fs : FileSystem) (name : Path)
    (defines : List (Name × Bytes)) : Except CompileError Program :=
  match fs.read name with
  | .error e => .error (.unreadable e)
  | .ok src =>
    let s := defines.foldl (fun s d => s.define d.1 d.2) ({} : Session)
    compileIn s (some fs) name.dir src

end StackC
