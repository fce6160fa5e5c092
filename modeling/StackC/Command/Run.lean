import StackC.Command.Disk
import StackC.Command.Flags
import StackC.Compile
import StackC.Machine.Step
import StackC.Program.Image

/-!
What the command does: it takes its flags, loads or compiles a program, prints
its listing, writes its image and runs it, as far as the flags ask for it. The
names of files on the command line tell which ones are object files, where the
object file of a source goes, and what a source is called in the file system
that starts at the root.
-/

namespace StackC

namespace Command

def objectExt : Bytes := text ".jbc"

def lowerByte (b : UInt8) : UInt8 :=
  if byte 'A' ≤ b && b ≤ byte 'Z' then b + 32 else b

/-- Whether a path has the extension of object files, in upper or lower case. -/
def isObject (p : Path) : Bool :=
  p.ext.map lowerByte == objectExt

/-- The object file of a source: the extension of the source is replaced. -/
def objectPath (p : Path) : Path :=
  p.take (p.length - p.ext.length) ++ objectExt

/-- A path seen from the root, for the working directory `cwd`, which is
rooted. -/
def absolute (cwd p : Path) : Path :=
  if p.isRooted then p.clean else Path.join cwd p

/-- The name of a source inside the file system that starts at the root. -/
def sourceName (cwd p : Path) : Path :=
  match (absolute cwd p).drop 1 with
  | [] => Path.dot
  | name => name

/-- What the command leaves behind: an exit code and what it wrote to both
outputs. -/
structure Outcome where
  exit : Nat := 0
  stdout : Bytes := []
  stderr : Bytes := []
  deriving DecidableEq, Repr

def failure (message : Bytes) : Outcome :=
  { exit := 1, stderr := message ++ text "\n" }

/-- The settings and the input file, or the end of the run if the arguments do
not give them. -/
def readArguments (args : List Bytes) : Except Outcome (Settings × Path) :=
  match ({} : Settings).takeFlags args with
  | .error .help => .error { exit := 0, stderr := usage }
  | .error e => .error { exit := 2, stderr := e.message ++ usage }
  | .ok (s, [input]) => .ok (s, input)
  | .ok _ => .error { exit := 2, stderr := usage }

/-- The program of an object file that was opened with the given result: `none`
is a directory. -/
def loadObject (input : Path) (opened : Except FileError (Option Bytes)) :
    Except Outcome Program :=
  match opened with
  | .error e =>
    .error (failure (text "jcc: Failed to open object file: " ++ e.message))
  | .ok none =>
    let e : FileError := ⟨.readFile, input, .isDirectory⟩
    .error (failure (text "load error: bad object file: " ++ e.message))
  | .ok (some data) =>
    match Image.decode data with
    | .error e => .error (failure (text "load error: " ++ e.message))
    | .ok p => .ok p

def loadSource (s : Settings) (fs : FileSystem) (name : Path) :
    Except Outcome Program :=
  match compileFile fs name s.defines with
  | .error e => .error (failure e.message)
  | .ok p => .ok p

/-- Where the image goes, if one is written. For a source it is written when
nothing else is asked for. -/
def Settings.outPath? (s : Settings) (input : Path) : Option Path :=
  if !s.out.isEmpty then some s.out
  else if !isObject input && !s.listing && !s.run then some (objectPath input)
  else none

/-- What the command prints before it writes an image. -/
def Settings.listingText (s : Settings) (p : Program) : Bytes :=
  if s.listing then p.listing else []

def writeFailure (out : Path) (e : FileError) : Outcome :=
  failure (text "jcc: Failed to write " ++ out ++ text ": " ++ e.message)

/-- Runs the program if that is asked for. The exit code is the low byte of its
result. -/
def Settings.execute (s : Settings) (p : Program) : Outcome :=
  if s.run then
    match p.run (Limits.ofInts s.maxSteps 0 true) with
    | (m, .ok v) =>
      { exit := v.toUInt64.toUInt8.toNat, stdout := m.output.toList }
    | (m, .error (.fault e)) =>
      { exit := 1, stdout := m.output.toList,
        stderr := text "run error: " ++ e.message ++ text "\n" }
    | (m, .error .crash) => { exit := 2, stdout := m.output.toList }
  else {}

def load (s : Settings) (d : Disk) (input : Path) : Except Outcome Program :=
  if isObject input then loadObject input (d.openFile input)
  else loadSource s d.fileSystem (sourceName d.cwd input)

def writeImage (s : Settings) (d : Disk) (input : Path) (p : Program) :
    Except Outcome Disk :=
  match s.outPath? input with
  | none => .ok d
  | some out =>
    match d.write out (Image.encode p) with
    | .error e => .error (writeFailure out e)
    | .ok d => .ok d

def perform (d : Disk) (args : List Bytes) : Outcome × Disk :=
  match readArguments args with
  | .error o => (o, d)
  | .ok (s, input) =>
    match load s d input with
    | .error o => (o, d)
    | .ok p =>
      let shown := s.listingText p
      match writeImage s d input p with
      | .error o => ({ o with stdout := shown ++ o.stdout }, d)
      | .ok d =>
        let o := s.execute p
        ({ o with stdout := shown ++ o.stdout }, d)

end Command

end StackC
