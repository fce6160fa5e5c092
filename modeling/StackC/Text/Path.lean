import StackC.Text.Utf8

/-!
Slash-separated paths: cleaning, joining, the directory part and the extension,
all on the text of the path alone.
-/

namespace StackC

abbrev Path := Bytes

namespace Path

def slash : UInt8 := byte '/'

def dot : Path := text "."

def dotDot : Path := text ".."

def elements (p : Path) : List Bytes :=
  Bytes.splitOn slash p

def isRooted (p : Path) : Bool :=
  p.head? == some slash

/-- Adds an element to the elements before it, which are kept in reverse: `.`
and empty elements vanish, `..` removes the element before it. At a root `..`
vanishes too; elsewhere it stays if nothing but `..` stands before it. -/
def push (rooted : Bool) (before : List Bytes) (e : Bytes) : List Bytes :=
  if e == [] || e == dot then before
  else if e == dotDot then
    match before with
    | [] => if rooted then [] else [dotDot]
    | last :: rest => if last == dotDot then dotDot :: last :: rest else rest
  else e :: before

/-- The shortest path with the same meaning; the empty path becomes `.`. -/
def clean (p : Path) : Path :=
  let rooted := isRooted p
  let body := [slash].intercalate ((elements p).foldl (push rooted) []).reverse
  if rooted then slash :: body
  else if body.isEmpty then dot
  else body

/-- The path of `name` inside `dir`. Both empty give the empty path. -/
def join (dir name : Path) : Path :=
  if dir.isEmpty && name.isEmpty then []
  else if dir.isEmpty then clean name
  else clean (dir ++ slash :: name)

/-- The part of a path after its last slash. -/
def base (p : Path) : Bytes :=
  (p.reverse.takeWhile (· != slash)).reverse

def dir (p : Path) : Path :=
  clean (p.take (p.length - (base p).length))

/-- The extension of a path, from the last dot of its last element; empty if
there is none. -/
def ext (p : Path) : Bytes :=
  let last := base p
  if last.contains (byte '.') then
    byte '.' :: (last.reverse.takeWhile (· != byte '.')).reverse
  else []

/-- Whether a path can name something in a file system: well-formed UTF-8, and
`.` or elements that are neither empty nor `.` nor `..`. -/
def isValid (p : Path) : Bool :=
  Utf8.isValid p &&
    (p == dot || (elements p).all fun e => e != [] && e != dot && e != dotDot)

end Path

end StackC
