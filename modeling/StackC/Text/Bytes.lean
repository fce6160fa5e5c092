/-!
Byte strings. Source text, names and messages are sequences of bytes that need
not be valid UTF-8, so they are lists of bytes and not `String`s.
-/

namespace StackC

abbrev Bytes := List UInt8

/-- A name as it stands in the source. -/
abbrev Name := Bytes

/-- The UTF-8 bytes of a string constant. -/
def text (s : String) : Bytes :=
  s.toList.flatMap String.utf8EncodeChar

abbrev byte (c : Char) : UInt8 := c.toUInt8

namespace Bytes

/-- The pieces between occurrences of `sep`; there is always at least one. -/
def splitOn (sep : UInt8) : Bytes → List Bytes
  | [] => [[]]
  | b :: bs =>
    if b = sep then [] :: splitOn sep bs
    else match splitOn sep bs with
      | [] => [[b]]
      | piece :: pieces => (b :: piece) :: pieces

/-- The lines of a text; a final newline is followed by one empty line. -/
def lines (s : Bytes) : List Bytes :=
  splitOn (byte '\n') s

/-- What stands before the first `sep` and what stands after it; all of `s` and
nothing if there is none. -/
def cut (sep : UInt8) (s : Bytes) : Bytes × Bytes :=
  (s.takeWhile (· != sep), (s.dropWhile (· != sep)).drop 1)

/-- The parts of `xs` in square brackets, with one space between neighbours. -/
def bracketed (xs : List Bytes) : Bytes :=
  text "[" ++ (text " ").intercalate xs ++ text "]"

end Bytes

end StackC
