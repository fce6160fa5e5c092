import StackC.Basic
import StackC.Text.Path

/-!
File systems as programs see them: a reading function that succeeds on finitely
many names.
-/

namespace StackC

/-- Why the system refuses a file. -/
inductive Refusal where
  | absent
  | noEntry
  | isDirectory
  | notDirectory
  | nameTooLong
  | invalid
  | other (reason : Bytes)
  deriving DecidableEq, Repr

def Refusal.message : Refusal → Bytes
  | absent => text "file does not exist"
  | noEntry => text "no such file or directory"
  | isDirectory => text "is a directory"
  | notDirectory => text "not a directory"
  | nameTooLong => text "file name too long"
  | invalid => text "invalid argument"
  | other reason => reason

inductive FileAction where
  | openFile
  | readFile
  | readWhole
  deriving DecidableEq, Repr

def FileAction.word : FileAction → Bytes
  | openFile => text "open"
  | readFile => text "read"
  | readWhole => text "readfile"

structure FileError where
  action : FileAction
  path : Path
  refusal : Refusal
  deriving DecidableEq, Repr

def FileError.message (e : FileError) : Bytes :=
  e.action.word ++ text " " ++ e.path ++ text ": " ++ e.refusal.message

/-- A file system: what each name reads as, where only the listed names can be
read. -/
structure FileSystem where
  names : List Path
  read : Path → Except FileError Bytes
  mem_names : ∀ {p data}, read p = .ok data → p ∈ names

namespace FileSystem

/-- Whether some file lies inside the directory `p`; `.` is the directory of all
files. -/
def hasInside (files : List (Path × Bytes)) (p : Path) : Bool :=
  p == Path.dot || files.any fun f => (p ++ [Path.slash]).isPrefixOf f.1

/-- Reads from files that are given by their names. A directory exists if a file
lies inside it. -/
def readAmong (files : List (Path × Bytes)) (p : Path) :
    Except FileError Bytes :=
  if p.isValid then
    match files.lookup p with
    | some data => .ok data
    | none =>
      if hasInside files p then .error ⟨.readFile, p, .invalid⟩
      else .error ⟨.openFile, p, .absent⟩
  else .error ⟨.openFile, p, .absent⟩

theorem mem_of_readAmong {files : List (Path × Bytes)} {p : Path} {data : Bytes}
    (h : readAmong files p = .ok data) : p ∈ files.map Prod.fst := by
  unfold readAmong at h
  split at h
  · split at h
    · next hd => exact List.mem_map_of_mem (mem_of_lookup_eq_some hd)
    · split at h <;> simp at h
  · simp at h

def ofFiles (files : List (Path × Bytes)) : FileSystem where
  names := files.map Prod.fst
  read := readAmong files
  mem_names := mem_of_readAmong

/-- What a name was found to read as; a name that was not tried does not
exist. -/
def readTried (tried : List (Path × Except FileError Bytes)) (p : Path) :
    Except FileError Bytes :=
  match tried.lookup p with
  | some result => result
  | none => .error ⟨.openFile, p, .noEntry⟩

theorem mem_of_readTried {tried : List (Path × Except FileError Bytes)}
    {p : Path} {data : Bytes} (h : readTried tried p = .ok data) :
    p ∈ tried.map Prod.fst := by
  unfold readTried at h
  split at h
  · next hr => exact List.mem_map_of_mem (mem_of_lookup_eq_some hr)
  · simp at h

/-- The file system that answers for each name as it did when the name was
tried. -/
def ofTried (tried : List (Path × Except FileError Bytes)) : FileSystem where
  names := tried.map Prod.fst
  read := readTried tried
  mem_names := mem_of_readTried

end FileSystem

end StackC
