import StackC.Text.Numeral
import StackC.Text.Printable
import StackC.Text.Utf8

/-!
Quoted text. Printable characters stand for themselves; the quote and the
backslash are escaped, the usual control characters have names, and the rest is
written in hexadecimal.
-/

namespace StackC

namespace Quoted

def controlName? (c : Char) : Option Char :=
  match c.toNat with
  | 7 => some 'a'
  | 8 => some 'b'
  | 9 => some 't'
  | 10 => some 'n'
  | 11 => some 'v'
  | 12 => some 'f'
  | 13 => some 'r'
  | _ => none

def char (quote c : Char) : Bytes :=
  if c == quote || c == '\\' then byte '\\' :: String.utf8EncodeChar c
  else if isPrintable c then String.utf8EncodeChar c
  else match controlName? c with
    | some n => [byte '\\', byte n]
    | none =>
      if c.toNat < 0x80 then text "\\x" ++ Numeral.hexPadded 2 c.toNat
      else if c.toNat < 0x10000 then text "\\u" ++ Numeral.hexPadded 4 c.toNat
      else text "\\U" ++ Numeral.hexPadded 8 c.toNat

/-- A piece of text inside quotes; a stray byte is written by its number. -/
def piece (quote : Char) : Piece → Bytes
  | .char c => char quote c
  | .stray b => text "\\x" ++ Numeral.hexPadded 2 b.toNat

end Quoted

def quoted (s : Bytes) : Bytes :=
  text "\"" ++ (Utf8.pieces s).flatMap (Quoted.piece '"') ++ text "\""

def quotedChar (c : Char) : Bytes :=
  text "'" ++ Quoted.char '\'' c ++ text "'"

/-- Fills a text with spaces on the right until it shows `width` characters. -/
def padRight (width : Nat) (s : Bytes) : Bytes :=
  s ++ List.replicate (width - Utf8.length s) (byte ' ')

end StackC
