import StackC.Text.Bytes

/-!
Numerals. Numbers are written in decimal or hexadecimal with the fewest digits.
They are read in decimal, or with the base taken from the text: `0x`, `0o`, `0b`
and a leading `0` choose the base, and an underscore may stand between two
digits or between the base mark and a digit.
-/

namespace StackC

namespace Numeral

def decimalNat (n : Nat) : Bytes :=
  (Nat.toDigits 10 n).map Char.toUInt8

def decimal : Int → Bytes
  | .ofNat n => decimalNat n
  | .negSucc n => byte '-' :: decimalNat (n + 1)

/-- The hexadecimal digits of a natural number, in lower case. -/
def hexNat (n : Nat) : Bytes :=
  (Nat.toDigits 16 n).map Char.toUInt8

/-- The hexadecimal digits of a natural number, with zeros in front up to the
given width. -/
def hexPadded (width n : Nat) : Bytes :=
  let digits := hexNat n
  List.replicate (width - digits.length) (byte '0') ++ digits

/-- An integer in decimal, with zeros after the sign up to the given total
width. -/
def zeroPadded (width : Nat) : Int → Bytes
  | .ofNat n =>
    let digits := decimalNat n
    List.replicate (width - digits.length) (byte '0') ++ digits
  | .negSucc n =>
    let digits := decimalNat (n + 1)
    byte '-' ::
      (List.replicate (width - 1 - digits.length) (byte '0') ++ digits)

/-- Why a numeral cannot be read. -/
inductive Failure where
  | malformed
  | outOfRange
  deriving DecidableEq, Repr

/-- The lower case of an ASCII letter; other bytes may change too, but never
into a letter. -/
def lower (b : UInt8) : UInt8 :=
  b ||| 0x20

/-- The value of a byte as a digit in bases up to 36. -/
def digitValue? (b : UInt8) : Option Nat :=
  if byte '0' ≤ b && b ≤ byte '9' then some (b.toNat - (byte '0').toNat)
  else if byte 'a' ≤ lower b && lower b ≤ byte 'z' then
    some ((lower b).toNat - (byte 'a').toNat + 10)
  else none

/-- Reads digits from the left; the value stays at most `greatest` at every
digit. -/
def digits (base greatest : Nat) (underscores : Bool) :
    Nat → Bytes → Except Failure Nat
  | n, [] => .ok n
  | n, b :: bs =>
    if underscores && b == byte '_' then digits base greatest underscores n bs
    else match digitValue? b with
      | none => .error .malformed
      | some d =>
        if base ≤ d then .error .malformed
        else if greatest < n * base + d then .error .outOfRange
        else digits base greatest underscores (n * base + d) bs

/-- Whether each underscore stands after a digit and before a digit;
`afterDigit` tells whether what stands before the text counts as a digit. -/
def underscoresPlaced : (afterDigit : Bool) → Bytes → Bool
  | _, [] => true
  | afterDigit, b :: bs =>
    if b == byte '_' then
      afterDigit && (match bs with
        | [] => false
        | c :: _ => c != byte '_') && underscoresPlaced false bs
    else underscoresPlaced true bs

/-- The base a numeral announces, the text that holds its digits, and whether a
base mark of two bytes stood in front. -/
def announcedBase : Bytes → Nat × Bytes × Bool
  | a :: b :: c :: rest =>
    if a == byte '0' then
      if lower b == byte 'x' then (16, c :: rest, true)
      else if lower b == byte 'o' then (8, c :: rest, true)
      else if lower b == byte 'b' then (2, c :: rest, true)
      else (8, b :: c :: rest, false)
    else (10, a :: b :: c :: rest, false)
  | a :: rest =>
    if a == byte '0' then (8, rest, false) else (10, a :: rest, false)
  | [] => (10, [], false)

/-- Whether the underscores of an unsigned numeral are well placed. -/
def underscoresOk (s : Bytes) : Bool :=
  match announcedBase s with
  | (_, rest, true) => underscoresPlaced true rest
  | (_, _, false) => underscoresPlaced false s

/-- Reads an unsigned numeral of at most `bits` bits whose base is taken from
the text. -/
def readUnsigned (bits : Nat) (s : Bytes) : Except Failure Nat :=
  if s.isEmpty then .error .malformed
  else
    let (base, rest, _) := announcedBase s
    match digits base (1 <<< bits - 1) true 0 rest with
    | .error e => .error e
    | .ok n => if underscoresOk s then .ok n else .error .malformed

def readDecimalUnsigned (bits : Nat) (s : Bytes) : Except Failure Nat :=
  if s.isEmpty then .error .malformed else digits 10 (1 <<< bits - 1) false 0 s

/-- Splits off a sign; the first part tells whether the number is negative. -/
def sign : Bytes → Bool × Bytes
  | b :: bs =>
    if b == byte '-' then (true, bs) else if b == byte '+' then (false, bs)
    else (false, b :: bs)
  | [] => (false, [])

/-- Gives a magnitude its sign if the result fits in `bits` bits of two's
complement. -/
def signed (bits : Nat) (negative : Bool) (n : Nat) : Except Failure Int :=
  if negative then
    if 1 <<< (bits - 1) < n then .error .outOfRange else .ok (-(n : Int))
  else
    if 1 <<< (bits - 1) ≤ n then .error .outOfRange else .ok n

/-- Reads a signed numeral of `bits` bits whose base is taken from the text. -/
def readInt (bits : Nat) (s : Bytes) : Except Failure Int :=
  let (negative, rest) := sign s
  match readUnsigned bits rest with
  | .error e => .error e
  | .ok n => signed bits negative n

def readDecimal (bits : Nat) (s : Bytes) : Except Failure Int :=
  let (negative, rest) := sign s
  match readDecimalUnsigned bits rest with
  | .error e => .error e
  | .ok n => signed bits negative n

end Numeral

end StackC
