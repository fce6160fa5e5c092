import StackC.Program.Basic

/-!
Images: programs as bytes. An image holds a mark, a version and a program. A
cell takes eight bytes, lowest first; a list is written as its items, each after
a byte that is not 0, and closed by a 0. Every part ends by itself, so an image
that is cut short is never taken for a whole one.
-/

namespace StackC

namespace Image

def mark : Bytes := text "JCCOBJ"

def version : Cell := 1

structure Contents where
  mark : Bytes
  version : Cell
  program : Program
  deriving DecidableEq, Repr

def putCell (v : Cell) : Bytes :=
  let n := v.toUInt64.toNat
  (List.range 8).map fun k => (n >>> (8 * k)).toUInt8

def putList (put : α → Bytes) (xs : List α) : Bytes :=
  xs.flatMap (fun x => 1 :: put x) ++ [0]

def putBytes (s : Bytes) : Bytes :=
  putList (fun b => [b]) s

def putInstr (i : Instr) : Bytes :=
  i.op.code :: putCell i.operand

def putSymbol (e : Name × Cell) : Bytes :=
  putBytes e.1 ++ putCell e.2

def put (c : Contents) : Bytes :=
  putBytes c.mark ++ putCell c.version ++
    putList putInstr c.program.code.toList ++
    putList putCell c.program.data.toList ++
    putCell c.program.entry ++ putList putSymbol c.program.funcs.entries

/-- Why bytes are not the image of a program. -/
inductive Error where
  | empty
  | cutShort
  | wrongMark (mark : Bytes)
  | wrongVersion (version : Cell)
  deriving DecidableEq, Repr

def Error.message (e : Error) : Bytes :=
  text "bad object file: " ++ match e with
    | .empty => text "EOF"
    | .cutShort => text "unexpected EOF"
    | .wrongMark mark => text "magic " ++ quoted mark
    | .wrongVersion version => text "version " ++ Cell.decimal version

abbrev Reader (α : Type) := Bytes → Except Error (α × Bytes)

def getByte : Reader UInt8
  | [] => .error .cutShort
  | b :: bs => .ok (b, bs)

def getCell : Reader Cell
  | a :: b :: c :: d :: e :: f :: g :: h :: rest =>
    let n := [h, g, f, e, d, c, b, a].foldl (fun n b => n * 256 + b.toNat) 0
    .ok (n.toUInt64.toInt64, rest)
  | _ => .error .cutShort

/-- Reads a list; `limit` bounds the number of bytes. -/
def getItems (get : Reader α) : (limit : Nat) → Reader (List α)
  | 0, _ => .error .cutShort
  | _ + 1, [] => .error .cutShort
  | limit + 1, b :: bs =>
    if b = 0 then .ok ([], bs)
    else
      match get bs with
      | .error e => .error e
      | .ok (x, bs) =>
        match getItems get limit bs with
        | .error e => .error e
        | .ok (xs, bs) => .ok (x :: xs, bs)

def getList (get : Reader α) : Reader (List α) :=
  fun bs => getItems get bs.length bs

def getBytes : Reader Bytes :=
  getList getByte

def getInstr : Reader Instr := fun bs =>
  match getByte bs with
  | .error e => .error e
  | .ok (code, bs) =>
    match getCell bs with
    | .error e => .error e
    | .ok (operand, bs) => .ok ({ op := Opcode.ofCode code, operand }, bs)

def getSymbol : Reader (Name × Cell) := fun bs =>
  match getBytes bs with
  | .error e => .error e
  | .ok (name, bs) =>
    match getCell bs with
    | .error e => .error e
    | .ok (addr, bs) => .ok ((name, addr), bs)

def get : Reader Contents := fun bs => do
  let (mark, bs) ← getBytes bs
  let (version, bs) ← getCell bs
  let (code, bs) ← getList getInstr bs
  let (data, bs) ← getList getCell bs
  let (entry, bs) ← getCell bs
  let (funcs, bs) ← getList getSymbol bs
  return ({
    mark, version
    program :=
      { code := code.toArray, data := data.toArray, entry,
        funcs := Symbols.ofList funcs } }, bs)

/-- The program of an image, if it is a whole image with the right mark and
version. What follows the image is not looked at. -/
def decode (bs : Bytes) : Except Error Program :=
  if bs.isEmpty then .error .empty
  else match get bs with
    | .error e => .error e
    | .ok (c, _) =>
      if c.mark ≠ mark then .error (.wrongMark c.mark)
      else if c.version ≠ version then .error (.wrongVersion c.version)
      else .ok c.program

def encode (p : Program) : Bytes :=
  put { mark, version, program := p }

end Image

end StackC
