import StackC.Text.Bytes

/-!
Reading UTF-8 without losing anything: a byte string is cut into characters and
stray bytes, where a stray byte is one that starts no well-formed character.
Each stray byte counts as U+FFFD when the text is looked at as characters.
-/

namespace StackC

/-- A part of a byte string: one well-formed character, or a byte that starts
none. -/
inductive Piece where
  | char (c : Char)
  | stray (b : UInt8)
  deriving DecidableEq, Repr

namespace Piece

/-- The character that stands for a stray byte. -/
def replacement : Char := '�'

def toChar : Piece → Char
  | .char c => c
  | .stray _ => replacement

def bytes : Piece → Bytes
  | .char c => String.utf8EncodeChar c
  | .stray b => [b]

end Piece

namespace Utf8

/-- Whether a byte can follow the first byte of a character. -/
def isTail (b : UInt8) : Bool :=
  0x80 ≤ b && b ≤ 0xbf

/-- The low bits that a tail byte contributes. -/
def tailBits (b : UInt8) : Nat :=
  b.toNat - 0x80

/-- The scalar value `n`, if it is one and not below `least`, the least value of
its encoded length. -/
def scalar? (least n : Nat) : Option Char :=
  if least ≤ n then
    if h : n.isValidChar then some (Char.ofNatAux n h) else none
  else none

def two? (a b : UInt8) : Option Char :=
  if 0xc0 ≤ a && a < 0xe0 && isTail b then
    scalar? 0x80 ((a.toNat - 0xc0) * 0x40 + tailBits b)
  else none

def three? (a b c : UInt8) : Option Char :=
  if 0xe0 ≤ a && a < 0xf0 && isTail b && isTail c then
    scalar? 0x800 ((a.toNat - 0xe0) * 0x1000 + tailBits b * 0x40 + tailBits c)
  else none

def four? (a b c d : UInt8) : Option Char :=
  if 0xf0 ≤ a && a < 0xf8 && isTail b && isTail c && isTail d then
    scalar? 0x10000
      ((a.toNat - 0xf0) * 0x40000 + tailBits b * 0x1000 + tailBits c * 0x40 +
        tailBits d)
  else none

/-- Cuts a byte string into characters and stray bytes, from the left. -/
def pieces : Bytes → List Piece
  | [] => []
  | a :: s =>
    if a < 0x80 then .char (Char.ofUInt8 a) :: pieces s
    else match s with
      | [] => [.stray a]
      | b :: s =>
        match two? a b with
        | some ch => .char ch :: pieces s
        | none =>
          match s with
          | [] => .stray a :: pieces [b]
          | c :: s =>
            match three? a b c with
            | some ch => .char ch :: pieces s
            | none =>
              match s with
              | [] => .stray a :: pieces [b, c]
              | d :: s =>
                match four? a b c d with
                | some ch => .char ch :: pieces s
                | none => .stray a :: pieces (b :: c :: d :: s)

def join (ps : List Piece) : Bytes :=
  ps.flatMap Piece.bytes

/-- The characters of a byte string, with U+FFFD for each stray byte. -/
def chars (s : Bytes) : List Char :=
  (pieces s).map Piece.toChar

def encode (cs : List Char) : Bytes :=
  cs.flatMap String.utf8EncodeChar

/-- How many characters a byte string shows. -/
def length (s : Bytes) : Nat :=
  (pieces s).length

def isValid (s : Bytes) : Bool :=
  (pieces s).all fun
    | .char _ => true
    | .stray _ => false

end Utf8

end StackC
