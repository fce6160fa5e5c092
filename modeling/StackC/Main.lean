import StackC.Command.Run

/-!
The command line: it reads files, hands them to the command, and prints and
writes what comes back.
-/

namespace StackC

namespace Command

def showPath (p : Path) : String :=
  String.ofList (Utf8.chars p)

def refusalOf : IO.Error → Refusal
  | .noFileOrDirectory .. => .noEntry
  | .inappropriateType _ _ details => .other (text details.decapitalize)
  | .permissionDenied _ _ details => .other (text details.decapitalize)
  | .invalidArgument _ _ details => .other (text details.decapitalize)
  | e => .other (text e.toString)

/-- Reads a file; `none` is a directory. -/
def readPath (p : Path) : IO (Except FileError (Option Bytes)) := do
  try
    let data ← IO.FS.readBinFile (showPath p)
    return .ok (some data.toList)
  catch e =>
    match refusalOf e with
    | .other reason =>
      if reason == Refusal.message .isDirectory then return .ok none
      else return .error ⟨.openFile, p, .other reason⟩
    | r => return .error ⟨.openFile, p, r⟩

/-- Reads a file by its name in the file system that starts at the root. -/
def readRooted (name : Path) : IO (Except FileError Bytes) := do
  if name.isValid && !name.contains 0 then
    match ← readPath (Path.slash :: name) with
    | .error e => return .error { e with path := name }
    | .ok none => return .error ⟨.readFile, name, .isDirectory⟩
    | .ok (some data) => return .ok data
  else return .error ⟨.readWhole, name, .invalid⟩

/-- Reads the files with the given names and all files that they include. -/
partial def readIncluded (tried : List (Path × Except FileError Bytes)) :
    List Path → IO (List (Path × Except FileError Bytes))
  | [] => return tried
  | name :: names => do
    if (tried.lookup name).isSome then readIncluded tried names
    else
      let result ← readRooted name
      let next := match result with
        | .ok src => includedPaths name.dir src
        | .error _ => []
      readIncluded ((name, result) :: tried) (next ++ names)

def printOutcome (o : Outcome) : IO UInt32 := do
  let stdout ← IO.getStdout
  stdout.write ⟨o.stdout.toArray⟩
  stdout.flush
  let stderr ← IO.getStderr
  stderr.write ⟨o.stderr.toArray⟩
  return o.exit.toUInt32

def writePath (p : Path) (data : Bytes) : IO (Option FileError) := do
  try
    IO.FS.writeBinFile (showPath p) ⟨data.toArray⟩
    return none
  catch e => return some ⟨.openFile, p, refusalOf e⟩

def loadInput (s : Settings) (input : Path) : IO (Except Outcome Program) := do
  if isObject input then return loadObject input (← readPath input)
  else
    let name := sourceName (text (← IO.currentDir).toString) input
    return loadSource s (.ofTried (← readIncluded [] [name])) name

def finishRun (s : Settings) (input : Path) (p : Program) : IO UInt32 := do
  (← IO.getStdout).write ⟨(s.listingText p).toArray⟩
  match s.outPath? input with
  | none => printOutcome (s.execute p)
  | some out =>
    match ← writePath out (Image.encode p) with
    | some e => printOutcome (writeFailure out e)
    | none => printOutcome (s.execute p)

end Command

end StackC

open StackC Command in
def main (args : List String) : IO UInt32 := do
  match readArguments (args.map text) with
  | .error o => printOutcome o
  | .ok (s, input) =>
    match ← loadInput s input with
    | .error o => printOutcome o
    | .ok p => finishRun s input p
