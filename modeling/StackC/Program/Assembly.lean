import StackC.Program.Basic
import StackC.Text.Character
import StackC.Text.Upper

/-!
Reading listings. A line holds a label, a directive, or an instruction with an
optional address in front; a semicolon starts a comment. Operands that are
addresses may be written as labels. Labels are collected first, so they may be
used before the line that defines them. One assembler can read several listings,
and then keeps the labels of the earlier ones.
-/

namespace StackC

/-- An assembler: the labels it knows. -/
structure Assembler where
  labels : Symbols := {}
  deriving DecidableEq, Repr

namespace Assembler

/-- Why a listing is refused. Line numbers count from 1. -/
inductive Error where
  | invalidLabel (name : Bytes) (line : Nat)
  | invalidAddress (field : Bytes) (line : Nat)
  | missingInstruction (line : Nat)
  | duplicateLabel (name : Name) (line : Nat)
  | entryOperands (line : Nat)
  | invalidData (field : Bytes) (line : Nat)
  | unknownDirective (name : Bytes) (line : Nat)
  | wrongAddress (written : Nat) (line : Nat) (position : Nat)
  | unknownInstruction (mnemonic : Bytes) (line : Nat)
  | wantsOperand (op : Opcode) (line : Nat)
  | wantsNoOperand (op : Opcode) (line : Nat)
  | undefinedLabel (name : Name) (line : Nat)
  | invalidOperand (field : Bytes) (line : Nat)
  | jumpOutside (op : Opcode) (addr : Nat) (target : Cell)
  | entryOutside (entry : Cell)
  deriving DecidableEq, Repr

def Error.message : Error → Bytes
  | .invalidLabel name line =>
    text "invalid label '" ++ name ++ text "'" ++ onLine line
  | .invalidAddress field line =>
    text "invalid address" ++ onLine line ++ text ": " ++ field
  | .missingInstruction line =>
    text "missing instruction after address" ++ onLine line
  | .duplicateLabel name line =>
    text "duplicate label '" ++ name ++ text "'" ++ onLine line
  | .entryOperands line =>
    text ".entry expects exactly one operand" ++ onLine line
  | .invalidData field line =>
    text "invalid .data value" ++ onLine line ++ text ": " ++ field
  | .unknownDirective name line =>
    text "unknown directive" ++ onLine line ++ text ": " ++ name
  | .wrongAddress written line position =>
    text "address " ++ Numeral.zeroPadded 4 written ++ onLine line ++
      text " does not match position " ++
      Numeral.zeroPadded 4 position
  | .unknownInstruction mnemonic line =>
    text "unknown instruction" ++ onLine line ++ text ": " ++ mnemonic
  | .wantsOperand op line =>
    op.mnemonic ++ text " expects 1 operand" ++ onLine line
  | .wantsNoOperand op line =>
    op.mnemonic ++ text " expects 0 operands" ++ onLine line
  | .undefinedLabel name line =>
    text "undefined label '" ++ name ++ text "'" ++ onLine line
  | .invalidOperand field line =>
    text "invalid operand '" ++ field ++ text "'" ++ onLine line
  | .jumpOutside op addr target =>
    op.mnemonic ++ text " at " ++ Numeral.zeroPadded 4 addr ++
      text " targets " ++ Cell.decimal target ++ text " outside the program"
  | .entryOutside entry =>
    text "entry " ++ Cell.decimal entry ++ text " outside the program"
where
  onLine (line : Nat) : Bytes := text " on line " ++ Numeral.decimalNat line

/-- What a line of a listing holds. Directives and mnemonics are in upper
case. -/
inductive Line where
  | blank
  | label (name : Name)
  | directive (name : Bytes) (operands : List Bytes)
  | instr (addr : Option Nat) (mnemonic : Bytes) (operands : List Bytes)
  deriving DecidableEq, Repr

/-- Whether a text is one or more decimal digits of any script. -/
def isNumber (s : Bytes) : Bool :=
  !s.isEmpty && (Utf8.chars s).all isDigit

def startsName (c : Char) : Bool :=
  isLetter c || c == '_'

def continuesName (c : Char) : Bool :=
  isLetter c || isDigit c || c == '_'

/-- Whether a text can be a label. -/
def isIdentifier (s : Bytes) : Bool :=
  match Utf8.chars s with
  | [] => false
  | c :: cs => startsName c && cs.all continuesName

/-- The line with the given fields, if it is no label. -/
def readFields (line : Nat) : List Bytes → Except Error Line
  | [] => .ok .blank
  | field :: rest =>
    if field.head? == some (byte '.') then
      .ok (.directive (Bytes.upper field) rest)
    else if isNumber field then
      match Numeral.readDecimal 64 field, rest with
      | .error _, _ => .error (.invalidAddress field line)
      | .ok _, [] => .error (.missingInstruction line)
      | .ok addr, mnemonic :: operands =>
        .ok (.instr (some addr.toNat) (Bytes.upper mnemonic) operands)
    else .ok (.instr none (Bytes.upper field) rest)

def readLine (line : Nat) (raw : Bytes) : Except Error Line :=
  let s := Bytes.trim (Bytes.cut (byte ';') raw).1
  if s.isEmpty then .ok .blank
  else if s.getLast? == some (byte ':') then
    let name := Bytes.trim s.dropLast
    if isIdentifier name then .ok (.label name)
    else .error (.invalidLabel name line)
  else readFields line (Bytes.fields s)

def readLines : Nat → List Bytes → Except Error (List (Nat × Line))
  | _, [] => .ok []
  | line, raw :: raws =>
    match readLine line raw with
    | .error e => .error e
    | .ok l =>
      match readLines (line + 1) raws with
      | .error e => .error e
      | .ok ls => .ok ((line, l) :: ls)

/-- Collects the labels of the lines, where `addr` instructions stand before
them. Labels found before a duplicate stay known. -/
def collectLabels : Nat → Symbols → List (Nat × Line) → Symbols × Option Error
  | _, labels, [] => (labels, none)
  | addr, labels, (line, l) :: ls =>
    match l with
    | .label name =>
      if (labels.get? name).isSome then
        (labels, some (.duplicateLabel name line))
      else collectLabels addr (labels.insert name (Int64.ofNat addr)) ls
    | .instr .. => collectLabels (addr + 1) labels ls
    | _ => collectLabels addr labels ls

/-- The value of an operand: a number, or the address of a label. -/
def operandValue (labels : Symbols) (line : Nat) (field : Bytes) :
    Except Error Cell :=
  match Numeral.readInt 64 field with
  | .ok v => .ok (Int64.ofInt v)
  | .error _ =>
    match labels.get? field with
    | some addr => .ok addr
    | none =>
      if isIdentifier field then .error (.undefinedLabel field line)
      else .error (.invalidOperand field line)

def dataValues (line : Nat) : List Bytes → Except Error (List Cell)
  | [] => .ok []
  | field :: fields =>
    match Numeral.readInt 64 field with
    | .error _ => .error (.invalidData field line)
    | .ok v =>
      match dataValues line fields with
      | .error e => .error e
      | .ok vs => .ok (Int64.ofInt v :: vs)

def instruction (labels : Symbols) (line position : Nat) (addr : Option Nat)
    (mnemonic : Bytes) (operands : List Bytes) : Except Error Instr :=
  match addr.filter (· != position) with
  | some written => .error (.wrongAddress written line position)
  | none =>
    match Opcode.ofMnemonic? mnemonic with
    | none => .error (.unknownInstruction mnemonic line)
    | some op =>
      if op.hasOperand then
        match operands with
        | [field] =>
          match operandValue labels line field with
          | .error e => .error e
          | .ok operand => .ok { op, operand }
        | _ => .error (.wantsOperand op line)
      else if operands.isEmpty then .ok { op }
      else .error (.wantsNoOperand op line)

def addLine (labels : Symbols) (p : Program) (line : Nat) :
    Line → Except Error Program
  | .blank => .ok p
  | .label _ => .ok p
  | .directive name operands =>
    if name == text ".ENTRY" then
      match operands with
      | [field] =>
        match operandValue labels line field with
        | .error e => .error e
        | .ok entry => .ok { p with entry }
      | _ => .error (.entryOperands line)
    else if name == text ".DATA" then
      match dataValues line operands with
      | .error e => .error e
      | .ok vs => .ok { p with data := p.data ++ vs }
    else .error (.unknownDirective name line)
  | .instr addr mnemonic operands =>
    match instruction labels line p.code.size addr mnemonic operands with
    | .error e => .error e
    | .ok i => .ok { p with code := p.code.push i }

def addLines (labels : Symbols) (p : Program) :
    List (Nat × Line) → Except Error Program
  | [] => .ok p
  | (line, l) :: ls =>
    match addLine labels p line l with
    | .error e => .error e
    | .ok p => addLines labels p ls

/-- Checks that jumps and, if there is code, the entry go to instructions. -/
def checkTargets (p : Program) : Except Error Program :=
  match Instr.firstOutside p.code.size 0 p.code.toList with
  | some (addr, i) => .error (.jumpOutside i.op addr i.operand)
  | none =>
    if p.code.size ≠ 0 ∧
      (p.entry.toInt < 0 ∨ (p.code.size : Int) ≤ p.entry.toInt) then
      .error (.entryOutside p.entry)
    else .ok p

/-- Reads a listing. The first part is the assembler afterwards. -/
def assemble (a : Assembler) (listing : Bytes) :
    Assembler × Except Error Program :=
  match readLines 1 (Bytes.lines listing) with
  | .error e => (a, .error e)
  | .ok ls =>
    match collectLabels 0 a.labels ls with
    | (labels, some e) => ({ labels }, .error e)
    | (labels, none) =>
      match addLines labels { funcs := labels } ls with
      | .error e => ({ labels }, .error e)
      | .ok p => ({ labels }, checkTargets p)

end Assembler

/-- Reads a listing with no labels known beforehand. -/
def Program.ofListing (listing : Bytes) : Except Assembler.Error Program :=
  (Assembler.assemble {} listing).2

end StackC
