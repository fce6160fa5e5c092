import StackC.Source.Files

/-!
A disk held in memory: files by their rooted paths, and a working directory. A
directory exists if it is the root, lies above a file, or is the working
directory or above it. Paths are followed element by element.
-/

namespace StackC

/-- The files of a disk and its working directory, all by rooted clean paths. -/
structure Disk where
  cwd : Path
  files : List (Path × Bytes)
  deriving DecidableEq, Repr

namespace Disk

/-- The rooted path with the given elements, which are in reverse. -/
def pathOf (place : List Bytes) : Path :=
  match place with
  | [] => [Path.slash]
  | _ => place.reverse.flatMap (Path.slash :: ·)

/-- The elements of a rooted path, in reverse. -/
def placeOf (p : Path) : List Bytes :=
  ((p.elements).filter (!·.isEmpty)).reverse

def isAbove (place : List Bytes) (p : Path) : Bool :=
  place.isEmpty || (pathOf place ++ [Path.slash]).isPrefixOf p

def isDirectory (d : Disk) (place : List Bytes) : Bool :=
  place.isEmpty || pathOf place == d.cwd || isAbove place d.cwd ||
    d.files.any fun f => isAbove place f.1

def contents? (d : Disk) (place : List Bytes) : Option Bytes :=
  d.files.lookup (pathOf place)

def longestElement : Nat := 255

def longestPath : Nat := 4095

/-- Whether elements are one or more slashes that end a path. -/
def areSlashes (es : List Bytes) : Bool :=
  !es.isEmpty && es.all (·.isEmpty)

/-- Follows elements from a directory to a place, which need not exist if
`create` holds. A last name with a slash after it stands for a directory, so
with `create` it is refused without a look at the disk. -/
def follow (d : Disk) (create : Bool) :
    (place : List Bytes) → List Bytes → Except Refusal (List Bytes)
  | place, [] => .ok place
  | place, e :: es =>
    if e.isEmpty || e == Path.dot then follow d create place es
    else if e == Path.dotDot then follow d create (place.drop 1) es
    else if create && areSlashes es then .error .isDirectory
    else if longestElement < e.length then .error .nameTooLong
    else if d.isDirectory (e :: place) then follow d create (e :: place) es
    else if (d.contents? (e :: place)).isSome then
      if es.isEmpty then .ok (e :: place) else .error .notDirectory
    else if create && es.isEmpty then .ok (e :: place)
    else .error .noEntry

def find (d : Disk) (create : Bool) (p : Path) : Except Refusal (List Bytes) :=
  if p.isEmpty then .error .noEntry
  else if longestPath < p.length then .error .nameTooLong
  else follow d create (if p.isRooted then [] else placeOf d.cwd) p.elements

/-- Opens a file for reading: its contents, or `none` for a directory. -/
def openFile (d : Disk) (p : Path) : Except FileError (Option Bytes) :=
  match d.find false p with
  | .error e => .error ⟨.openFile, p, e⟩
  | .ok place =>
    if d.isDirectory place then .ok none else .ok (d.contents? place)

/-- Reads a file by its name in the file system that starts at the root. -/
def readName (d : Disk) (name : Path) : Except FileError Bytes :=
  if name.isValid && !name.contains 0 then
    match d.find false (Path.slash :: name) with
    | .error e => .error ⟨.openFile, name, e⟩
    | .ok _ =>
      match d.files.lookup (Path.slash :: name) with
      | some data => .ok data
      | none => .error ⟨.readFile, name, .isDirectory⟩
  else .error ⟨.readWhole, name, .invalid⟩

theorem mem_of_readName {d : Disk} {name : Path} {data : Bytes}
    (h : d.readName name = .ok data) :
    name ∈ d.files.map fun f => f.1.drop 1 := by
  unfold readName at h
  split at h
  · split at h
    · simp at h
    · split at h
      · next hd =>
        exact List.mem_map.mpr ⟨_, mem_of_lookup_eq_some hd, rfl⟩
      · simp at h
  · simp at h

def fileSystem (d : Disk) : FileSystem where
  names := d.files.map fun f => f.1.drop 1
  read := d.readName
  mem_names := mem_of_readName

def put (d : Disk) (place : List Bytes) (data : Bytes) : Disk :=
  { d with files := (pathOf place,
    data) :: d.files.filter fun f => f.1 != pathOf place }

/-- Writes a file; its directory has to exist. -/
def write (d : Disk) (p : Path) (data : Bytes) : Except FileError Disk :=
  match d.find true p with
  | .error e => .error ⟨.openFile, p, e⟩
  | .ok place =>
    if d.isDirectory place then .error ⟨.openFile, p, .isDirectory⟩
    else .ok (d.put place data)

end Disk

end StackC
