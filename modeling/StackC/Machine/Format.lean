import StackC.Machine.Arith
import StackC.Machine.Basic

/-!
Formatted output. Strings are read from memory up to a zero cell. In a format a
percent sign and a letter stand for the next argument: `d` signed, `u` unsigned,
`x` hexadecimal, `c` one byte, `s` a string in memory; two percent signs stand
for one, and a percent sign at the end for itself.
-/

namespace StackC

/-- Checks that an address can be read or written. -/
def checkAddr (memory : Array Cell) (addr : Cell) : Except Fault Nat :=
  if addr = 0 then .error .nullPointer
  else if addr.toInt < 0 ∨ (memory.size : Int) ≤ addr.toInt then
    .error (.badAddress addr)
  else .ok addr.toInt.toNat

/-- The bytes of the string from `addr` on; `count` cells are left up to the end
of memory. -/
def bytesFrom (memory : Array Cell) : (count addr : Nat) → Except Fault Bytes
  | 0, addr => .error (.badAddress (Int64.ofNat addr))
  | count + 1, addr =>
    match memory[addr]? with
    | none => .error (.badAddress (Int64.ofNat addr))
    | some c =>
      if c = 0 then .ok []
      else (bytesFrom memory count (addr + 1)).map (Cell.lowByte c :: ·)

/-- The string at an address, up to its closing zero. -/
def stringAt (memory : Array Cell) (addr : Cell) : Except Fault Bytes :=
  match checkAddr memory addr with
  | .error f => .error f
  | .ok a => bytesFrom memory (memory.size - a) a

def showArg (memory : Array Cell) (verb : UInt8) (v : Cell) :
    Except Fault Bytes :=
  if verb == byte 'd' then .ok (Cell.decimal v)
  else if verb == byte 'u' then .ok (Numeral.decimalNat v.toUInt64.toNat)
  else if verb == byte 'x' then .ok (Numeral.hexNat v.toUInt64.toNat)
  else if verb == byte 'c' then .ok [Cell.lowByte v]
  else if verb == byte 's' then stringAt memory v
  else .error (.unknownVerb verb)

/-- The text that a format makes of its arguments, of which `used` have been
used. -/
def expandFormat (memory : Array Cell) :
    (used : Nat) → Bytes → List Cell → Except Fault Bytes
  | _, [], _ => .ok []
  | used, b :: rest, args =>
    if b != byte '%' then (expandFormat memory used rest args).map (b :: ·)
    else match rest with
      | [] => .ok [b]
      | verb :: rest =>
        if verb == byte '%' then
          (expandFormat memory used rest args).map (verb :: ·)
        else match args with
          | [] => .error (.missingArgument (used + 1))
          | v :: args =>
            match showArg memory verb v with
            | .error f => .error f
            | .ok shown =>
              (expandFormat memory (used + 1) rest args).map (shown ++ ·)

def formatAt (memory : Array Cell) (addr : Cell) (args : List Cell) :
    Except Fault Bytes :=
  match stringAt memory addr with
  | .error f => .error f
  | .ok format => expandFormat memory 0 format args

end StackC
