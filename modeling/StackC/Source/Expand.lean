import StackC.Macro.Expand
import StackC.Source.Directive

/-!
Expansion of source texts, line by line. A directive leaves an empty line, an
include leaves the expanded text of the file, and any other line is expanded
under the macros in force. A file is included once; a file that is being
included may not be included again.
-/

namespace StackC

/-- What expansion has gathered so far: the macros in force, the files that are
being included, innermost first, and the files that have been included. -/
structure Session where
  macros : Macros := []
  chain : List Path := []
  done : List Path := []
  deriving DecidableEq, Repr

namespace Session

def define (s : Session) (name : Name) (body : Bytes) : Session :=
  { s with macros := s.macros.insert name { body } }

/-- Expands one line. `includeFile` is what an include of a path does. -/
def expandLine
    (includeFile : Session → Bytes → Session × Except SourceError Bytes)
    (s : Session) (line : Bytes) : Session × Except SourceError Bytes :=
  match Directive.ofLine? line with
  | none => (s, .ok (s.macros.expand line))
  | some (.define rest) =>
    match Directive.definition rest with
    | .error e => (s, .error e)
    | .ok (name, m) => ({ s with macros := s.macros.insert name m }, .ok [])
  | some (.undefine name) => ({ s with macros := s.macros.erase name }, .ok [])
  | some (.inclusion rest) => includeFile s rest
  | some (.unknown word) => (s, .error (.unknownDirective word))

/-- Expands lines, the first of which has the number `n`, up to the first
error. -/
def expandLines
    (includeFile : Session → Bytes → Session × Except SourceError Bytes) :
    (n : Nat) → Session → List Bytes → Session × Except SourceError (List Bytes)
  | _, s, [] => (s, .ok [])
  | n, s, line :: lines =>
    match expandLine includeFile s line with
    | (s, .error e) => (s, .error (.inLine n e))
    | (s, .ok out) =>
      match expandLines includeFile (n + 1) s lines with
      | (s, .error e) => (s, .error e)
      | (s, .ok outs) => (s, .ok (out :: outs))

def expandText
    (includeFile : Session → Bytes → Session × Except SourceError Bytes)
    (s : Session) (src : Bytes) : Session × Except SourceError Bytes :=
  match expandLines includeFile 1 s (Bytes.lines src) with
  | (s, .error e) => (s, .error e)
  | (s, .ok outs) => (s, .ok ([byte '\n'].intercalate outs))

/-- Begins to include a file, which counts as included from now on. -/
def enter (s : Session) (path : Path) : Session :=
  { s with chain := path :: s.chain, done := path :: s.done }

/-- Ends the inclusion of a file, also of one whose text cannot be expanded. -/
def leave (s : Session) (path : Path) : Session :=
  { s with chain := s.chain.filter (· != path) }

/-- The file that an include in a text that lies in `dir` has to read; `none` if
it has been included. -/
def wanted (s : Session) (dir : Path) (rest : Bytes) :
    Except SourceError (Option Path) :=
  match Directive.includePath? dir rest with
  | none => .error (.notQuoted rest)
  | some path =>
    if s.chain.contains path then .error (.circular path)
    else if s.done.contains path then .ok none
    else .ok (some path)

/-- Includes a file in a text that lies in `dir`. The files of the chain are
different files of the system, so a chain never gets longer than `fuel`, the
number of its names. -/
def includeFile (fs : FileSystem) :
    (fuel : Nat) → (dir : Path) → Session → Bytes →
      Session × Except SourceError Bytes
  | fuel, dir, s, rest =>
    match s.wanted dir rest with
    | .error e => (s, .error e)
    | .ok none => (s, .ok [])
    | .ok (some path) =>
      match fs.read path with
      | .error e => (s, .error (.unreadable e))
      | .ok data =>
        match fuel with
        | 0 => (s, .ok [])
        | fuel + 1 =>
          match
            expandText (includeFile fs fuel path.dir) (s.enter path) data with
          | (s, .error e) => (s.leave path, .error (.inFile path e))
          | (s, .ok out) => (s.leave path, .ok out)

/-- Refuses every include, for want of a file system. -/
def refuseFile (s : Session) (rest : Bytes) :
    Session × Except SourceError Bytes :=
  match Directive.quotedName? rest with
  | none => (s, .error (.notQuoted rest))
  | some _ => (s, .error (.noFiles rest))

/-- Expands a source text that lies in `dir`. -/
def expand (s : Session) (fs? : Option FileSystem) (dir : Path) (src : Bytes) :
    Session × Except SourceError Bytes :=
  match fs? with
  | none => s.expandText refuseFile src
  | some fs => s.expandText (includeFile fs fs.names.length dir) src

end Session

/-- The paths that the include lines of a source text name, if the text lies in
`dir`. -/
def includedPaths (dir : Path) (src : Bytes) : List Path :=
  (Bytes.lines src).filterMap fun line =>
    match Directive.ofLine? line with
    | some (.inclusion rest) => Directive.includePath? dir rest
    | _ => none

end StackC
