import StackC.Machine.Format

/-!
One step of the machine. A slot names a cell of the top frame: -1, -2, … are its
arguments and 1, 2, … its locals. The sums that give its address wrap around at
64 bits.
-/

namespace StackC

def hasAtLeast : Nat → List α → Bool
  | 0, _ => true
  | _ + 1, [] => false
  | n + 1, _ :: xs => hasAtLeast n xs

/-- The greatest number of cells a memory can have: cells take eight bytes, and
addresses of bytes have 48 bits. -/
def memoryLimit : Nat := 1 <<< 45

/-- An output: it tells for a machine whether it takes what the next step
writes. The answer can depend on all that was written before and on the number
of the step. -/
abbrev Sink : Type := Machine → Bool

/-- The output that limits alone describe takes everything or nothing. -/
def Limits.sink (lim : Limits) : Sink :=
  fun _ => lim.canWrite

namespace Machine

def slotAddr (m : Machine) (slot : Cell) : Option Cell :=
  match m.frames.back? with
  | none => none
  | some f =>
    if slot < 0 ∧ -slot ≤ Int64.ofNat f.count then
      some (Int64.ofNat f.base + -slot - 1)
    else if 0 < slot then
      let addr := Int64.ofNat f.base + Int64.ofNat f.count + slot - 1
      if addr.toInt < m.memory.size then some addr else none
    else none

def index? (m : Machine) (addr : Cell) : Option Nat :=
  if 0 ≤ addr.toInt ∧ addr.toInt < m.memory.size then some addr.toInt.toNat
  else none

def push (m : Machine) (v : Cell) : Machine :=
  { m with stack := v :: m.stack }

def withPop (m : Machine) (k : Machine → Cell → Machine × Option Stop) :
    Machine × Option Stop :=
  match m.stack with
  | [] => m.fail .stackUnderflow
  | v :: stack => k { m with stack } v

/-- Takes the two top values of the stack; the upper one is the second. -/
def withPop2 (m : Machine) (k : Machine → Cell → Cell → Machine × Option Stop) :
    Machine × Option Stop :=
  m.withPop fun m b => m.withPop fun m a => k m a b

/-- Takes `n` values, lowest first. -/
def takeArgs (m : Machine) (n : Nat) : List Cell × Machine :=
  ((m.stack.take n).reverse, { m with stack := m.stack.drop n })

def write (lim : Limits) (m : Machine) (s : Bytes) : Machine × Option Stop :=
  if lim.canWrite then go { m with output := m.output ++ s }
  else m.fail .outputClosed

/-- Leaves the top frame with the value `v`; the machine halts when the
outermost frame is left. -/
def leaveFrame (m : Machine) (v : Cell) : Machine × Option Stop :=
  match m.frames.back? with
  | none => m.breakDown
  | some f =>
    let frames := m.frames.pop
    let memory := m.memory.shrink f.base
    if frames.isEmpty then
      go { m with frames, memory, halted := true, result := v }
    else go { m with frames, memory, pc := f.returnTo, stack := v :: m.stack }

/-- What an instruction does, when the program counter already stands on the
next one. -/
def exec (lim : Limits) (i : Instr) (m : Machine) : Machine × Option Stop :=
  match i.op with
  | .push => go (m.push i.operand)
  | .pop => m.withPop fun m _ => go m
  | .arith f =>
    m.withPop2 fun m a b =>
      match f.apply a b with
      | some v => go (m.push v)
      | none => m.fail .divisionByZero
  | .signExtend =>
    if i.operand < 1 ∨ 8 < i.operand then m.fail (.badWidth i.op i.operand)
    else m.withPop fun m v => go (m.push (Cell.signExtend v i.operand))
  | .zeroExtend =>
    if i.operand < 1 ∨ 8 < i.operand then m.fail (.badWidth i.op i.operand)
    else m.withPop fun m v => go (m.push (Cell.zeroExtend v i.operand))
  | .loadLocal =>
    match m.slotAddr i.operand with
    | none => m.fail (.badSlot i.operand)
    | some addr =>
      match m.index? addr with
      | none => m.breakDown
      | some k => go (m.push (m.memory.getD k 0))
  | .storeLocal =>
    match m.slotAddr i.operand with
    | none => m.fail (.badSlot i.operand)
    | some addr =>
      m.withPop fun m v =>
        match m.index? addr with
        | none => m.breakDown
        | some k => go { m with memory := m.memory.setIfInBounds k v }
  | .addrLocal =>
    match m.slotAddr i.operand with
    | none => m.fail (.badSlot i.operand)
    | some addr => go (m.push addr)
  | .load =>
    m.withPop fun m addr =>
      match checkAddr m.memory addr with
      | .error f => m.fail f
      | .ok k => go (m.push (m.memory.getD k 0))
  | .store =>
    m.withPop2 fun m addr v =>
      match checkAddr m.memory addr with
      | .error f => m.fail f
      | .ok k => go { m with memory := m.memory.setIfInBounds k v }
  | .jump => go { m with pc := i.operand.toInt }
  | .jumpZero =>
    m.withPop fun m v => if v = 0 then go { m with pc := i.operand.toInt }
      else go m
  | .frame =>
    if i.operand < 0 ∨ !hasAtLeast i.operand.toInt.toNat m.stack then
      m.fail (.tooFewForFrame i.operand m.stack.length)
    else
      let (staged, m) := m.takeArgs i.operand.toInt.toNat
      go { m with staged }
  | .call =>
    if lim.maxDepth ≤ m.frames.size then m.fail (.callDepth lim.maxDepth)
    else
      let f : Frame :=
        { base := m.memory.size, count := m.staged.length, returnTo := m.pc }
      go { m with
        frames := m.frames.push f
        memory := m.memory ++ m.staged
        staged := []
        pc := i.operand.toInt }
  | .entry =>
    if i.operand < 0 then m.fail (.negativeEntry i.operand)
    else if memoryLimit < m.memory.size + i.operand.toInt.toNat then m.breakDown
    else go { m with
      memory := m.memory ++ Array.replicate i.operand.toInt.toNat (0 : Cell) }
  | .ret => m.withPop leaveFrame
  | .printf =>
    if i.operand < 1 ∨ !hasAtLeast i.operand.toInt.toNat m.stack then
      m.fail (.tooFewForPrintf i.operand m.stack.length)
    else
      match m.takeArgs i.operand.toInt.toNat with
      | ([], m) => m.breakDown
      | (format :: args, m) =>
        match formatAt m.memory format args with
        | .error f => m.fail f
        | .ok s => m.write lim s
  | .illegal .. => m.fail (.illegalOpcode i.op)

/-- One step. A machine that has halted stays as it is. -/
def step (p : Program) (lim : Limits) (m : Machine) : Machine × Option Stop :=
  if m.halted then go m
  else if m.pc < 0 then m.fail .pcOutside
  else match p.code[m.pc.toNat]? with
    | none => m.fail .pcOutside
    | some i =>
      let m := { m with steps := m.steps + 1 }
      if lim.maxSteps < m.steps then m.fail (.stepLimit lim.maxSteps)
      else exec lim i { m with pc := m.pc + 1 }

/-- One step, with an output that may or may not take what is written. -/
def stepInto (p : Program) (lim : Limits) (sink : Sink) (m : Machine) :
    Machine × Option Stop :=
  step p { lim with canWrite := sink m } m

/-- Steps until the machine halts or stops, `fuel` times at most. -/
def runForInto (p : Program) (lim : Limits) (sink : Sink) :
    (fuel : Nat) → Machine → Machine × Option Stop
  | 0, m => (m, none)
  | fuel + 1, m =>
    if m.halted then (m, none)
    else match stepInto p lim sink m with
      | (m, none) => runForInto p lim sink fuel m
      | (m, some s) => (m, some s)

/-- What a run gives: the result of the machine, or why it stopped. -/
def outcome : Machine × Option Stop → Machine × Except Stop Cell
  | (m, none) => (m, .ok m.result)
  | (m, some s) => (m, .error s)

/-- Runs to the end. The step limit ends a run that does not end by itself,
so this many steps are enough. -/
def runInto (p : Program) (lim : Limits) (sink : Sink) (m : Machine) :
    Machine × Except Stop Cell :=
  outcome (runForInto p lim sink (lim.maxSteps + 1) m)

def runFor (p : Program) (lim : Limits) :
    Nat → Machine → Machine × Option Stop :=
  runForInto p lim lim.sink

def run (p : Program) (lim : Limits) (m : Machine) :
    Machine × Except Stop Cell :=
  m.runInto p lim lim.sink

/-- Reads the string at an address; a bad address stops the machine. -/
def readString (m : Machine) (addr : Cell) : Machine × Except Stop Bytes :=
  match stringAt m.memory addr with
  | .ok s => (m, .ok s)
  | .error f =>
    ({ m with halted := true }, .error (.fault { pc := m.pc, fault := f }))

end Machine

def Program.runInto (p : Program) (lim : Limits) (sink : Sink) :
    Machine × Except Stop Cell :=
  (Machine.start p).runInto p lim sink

def Program.run (p : Program) (lim : Limits) : Machine × Except Stop Cell :=
  p.runInto lim lim.sink

end StackC
