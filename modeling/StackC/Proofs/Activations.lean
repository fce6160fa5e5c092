import StackC.Proofs.Height
import StackC.Proofs.Runs

/-!
Activations. Beside the frames of a running machine stand the functions they
belong to and the values that each of them has on the operand stack. Every step
changes the innermost activation only, begins a new one or ends the innermost
one. The functions that wait for a call to return find their own values on the
stack unchanged, with the result on top, and the memory as long as it was.
-/

namespace StackC

/-! ### What instructions do -/

/-- Where control is after an instruction, when `next` is the address that
follows it. -/
def Instr.GoesTo (i : Instr) (next pc : Int) : Prop :=
  match i.op with
  | .jump => pc = i.operand.toInt
  | .jumpZero => pc = i.operand.toInt ∨ pc = next
  | _ => pc = next

/-- Whether an instruction leaves the frames and the size of memory as they
are. -/
def Opcode.isInner : Opcode → Bool
  | .frame | .call | .entry | .ret | .illegal .. => false
  | _ => true

theorem Instr.Ready.inner {i : Instr} {L : Link} {addr h : Nat}
    (hready : i.Ready L addr h) (hframe : i.op ≠ .frame) (hret : i.op ≠ .ret) :
    i.op.isInner = true ∧ i.pops ≤ h := by
  obtain ⟨op, operand⟩ := i
  cases op with
  | frame => exact absurd rfl hframe
  | ret => exact absurd rfl hret
  | entry | call | illegal => cases hready
  | printf => exact ⟨rfl, hready.1⟩
  | jump => exact ⟨rfl, Nat.zero_le h⟩
  | _ => exact ⟨rfl, hready⟩

theorem Instr.mem_next {i : Instr} {pc pc' : Int} {h : Nat}
    (hop : i.op.isInner = true) (hgoes : i.GoesTo (pc + 1) pc') (hpc : 0 ≤ pc) :
    (pc'.toNat, h - i.pops + i.pushes) ∈ i.next pc.toNat h := by
  obtain ⟨op, operand⟩ := i
  have hnext : (pc + 1).toNat = pc.toNat + 1 := by omega
  cases op with
  | jump =>
    have hpc' : pc' = operand.toInt := hgoes
    rw [hpc']
    exact List.mem_singleton.mpr rfl
  | jumpZero =>
    rcases hgoes with rfl | rfl
    · exact List.mem_cons_self
    · rw [hnext]
      exact List.mem_cons_of_mem _ List.mem_cons_self
  | frame | call | entry | ret | illegal => cases hop
  | _ =>
    have hpc' : pc' = pc + 1 := hgoes
    rw [hpc', hnext]
    exact List.mem_singleton.mpr rfl

namespace Machine

/-- What an inner instruction does to the machine, apart from the values it
computes. -/
structure Works (i : Instr) (m m' : Machine) : Prop where
  stack : ∃ popped pushed rest, m.stack = popped ++ rest ∧
    popped.length = i.pops ∧ m'.stack = pushed ++ rest ∧
    pushed.length = i.pushes
  pc : i.GoesTo m.pc m'.pc
  frames : m'.frames = m.frames
  memory : m'.memory.size = m.memory.size
  staged : m'.staged = m.staged
  halted : m'.halted = m.halted

variable {m m' : Machine} {lim : Limits} {i : Instr} {f : Frame} {k : Nat}

theorem of_withPop {k : Machine → Cell → Machine × Option Stop}
    (h : m.withPop k = (m', none)) :
    ∃ v stack, m.stack = v :: stack ∧ k { m with stack } v = (m', none) := by
  simp only [withPop] at h
  split at h
  next => cases h
  next v stack hstack => exact ⟨v, stack, hstack, h⟩

theorem of_withPop2 {k : Machine → Cell → Cell → Machine × Option Stop}
    (h : m.withPop2 k = (m', none)) :
    ∃ a b stack, m.stack = b :: a :: stack ∧
      k { m with stack } a b = (m', none) := by
  obtain ⟨b, stack, hstack, h⟩ := of_withPop h
  obtain ⟨a, stack', rfl, h⟩ := of_withPop h
  exact ⟨a, b, stack', hstack, h⟩

theorem hasAtLeast_iff {n : Nat} {xs : List α} :
    hasAtLeast n xs = true ↔ n ≤ xs.length := by
  induction n generalizing xs with
  | zero => simp [hasAtLeast]
  | succ n ih =>
    cases xs with
    | nil => simp [hasAtLeast]
    | cons x xs => simp [hasAtLeast, ih]

theorem width_ok {width : Cell} (h : 1 ≤ width.toInt ∧ width.toInt ≤ 8) :
    ¬ (width < 1 ∨ 8 < width) := by
  rw [Int64.lt_iff_toInt_lt, Int64.lt_iff_toInt_lt,
    show (1 : Cell).toInt = 1 from rfl, show (8 : Cell).toInt = 8 from rfl]
  omega

theorem count_ok {stack : List Cell} {operand least : Cell}
    (hleast : least.toInt ≤ operand.toInt)
    (hstack : operand.toInt.toNat ≤ stack.length) :
    ¬ (operand < least ∨ (!hasAtLeast operand.toInt.toNat stack) = true) := by
  rintro (hlt | hshort)
  · rw [Int64.lt_iff_toInt_lt] at hlt
    omega
  · rw [hasAtLeast_iff.mpr hstack] at hshort
    cases hshort

theorem size_appendList (xs : Array α) (ys : List α) :
    (xs ++ ys).size = xs.size + ys.length := by
  rw [← Array.length_toList, Array.toList_appendList, List.length_append,
    Array.length_toList]

theorem works_of_exec_printf {operand : Cell}
    (h : exec lim { op := .printf, operand } m = (m', none)) :
    Works { op := .printf, operand } m m' := by
  simp only [exec] at h
  split at h
  next => cases h
  next hcount =>
    have hlength : operand.toInt.toNat ≤ m.stack.length :=
      hasAtLeast_iff.mp (by simp_all)
    have hstack :
        m.stack = m.stack.take operand.toInt.toNat ++
        m.stack.drop operand.toInt.toNat := (List.take_append_drop _ _).symm
    simp only [takeArgs] at h
    split at h
    next => cases h
    next format args m₁ htake =>
      obtain ⟨-, rfl⟩ := Prod.mk.inj htake
      split at h
      next => cases h
      next text _ =>
        simp only [write] at h
        split at h
        next =>
          cases h
          exact ⟨⟨_, [], _, hstack, List.length_take_of_le hlength, rfl, rfl⟩,
            rfl, rfl, rfl, rfl, rfl⟩
        next => cases h

theorem works_of_exec (h : exec lim i m = (m', none))
    (hop : i.op.isInner = true) : Works i m m' := by
  obtain ⟨op, operand⟩ := i
  cases op with
  | push =>
    cases h
    exact ⟨⟨[], [operand], m.stack, rfl, rfl, rfl, rfl⟩, rfl, rfl,
      rfl, rfl, rfl⟩
  | pop =>
    simp only [exec] at h
    obtain ⟨v, stack, hstack, h⟩ := of_withPop h
    cases h
    exact ⟨⟨[v], [], stack, hstack, rfl, rfl, rfl⟩, rfl, rfl, rfl, rfl, rfl⟩
  | arith f =>
    simp only [exec] at h
    obtain ⟨a, b, stack, hstack, h⟩ := of_withPop2 h
    split at h
    next v _ =>
      cases h
      exact ⟨⟨[b, a], [v], stack, hstack, rfl, rfl, rfl⟩, rfl, rfl,
        rfl, rfl, rfl⟩
    next => cases h
  | signExtend | zeroExtend =>
    simp only [exec] at h
    split at h
    next => cases h
    next =>
      obtain ⟨v, stack, hstack, h⟩ := of_withPop h
      cases h
      exact ⟨⟨[v], [_], stack, hstack, rfl, rfl, rfl⟩, rfl, rfl, rfl, rfl, rfl⟩
  | loadLocal =>
    simp only [exec] at h
    split at h
    next => cases h
    next =>
      split at h
      next => cases h
      next =>
        cases h
        exact ⟨⟨[], [_], m.stack, rfl, rfl, rfl, rfl⟩, rfl, rfl, rfl, rfl, rfl⟩
  | storeLocal =>
    simp only [exec] at h
    split at h
    next => cases h
    next =>
      obtain ⟨v, stack, hstack, h⟩ := of_withPop h
      split at h
      next => cases h
      next =>
        cases h
        exact ⟨⟨[v], [], stack, hstack, rfl, rfl, rfl⟩, rfl, rfl,
          Array.size_setIfInBounds, rfl, rfl⟩
  | addrLocal =>
    simp only [exec] at h
    split at h
    next => cases h
    next =>
      cases h
      exact ⟨⟨[], [_], m.stack, rfl, rfl, rfl, rfl⟩, rfl, rfl, rfl, rfl, rfl⟩
  | load =>
    simp only [exec] at h
    obtain ⟨v, stack, hstack, h⟩ := of_withPop h
    split at h
    next => cases h
    next =>
      cases h
      exact ⟨⟨[v], [_], stack, hstack, rfl, rfl, rfl⟩, rfl, rfl, rfl, rfl, rfl⟩
  | store =>
    simp only [exec] at h
    obtain ⟨a, b, stack, hstack, h⟩ := of_withPop2 h
    split at h
    next => cases h
    next =>
      cases h
      exact ⟨⟨[b, a], [], stack, hstack, rfl, rfl, rfl⟩, rfl, rfl,
        Array.size_setIfInBounds, rfl, rfl⟩
  | jump =>
    cases h
    exact ⟨⟨[], [], m.stack, rfl, rfl, rfl, rfl⟩, rfl, rfl, rfl, rfl, rfl⟩
  | jumpZero =>
    simp only [exec] at h
    obtain ⟨v, stack, hstack, h⟩ := of_withPop h
    split at h
    next =>
      cases h
      exact ⟨⟨[v], [], stack, hstack, rfl, rfl, rfl⟩, Or.inl rfl, rfl,
        rfl, rfl, rfl⟩
    next =>
      cases h
      exact ⟨⟨[v], [], stack, hstack, rfl, rfl, rfl⟩, Or.inr rfl, rfl,
        rfl, rfl, rfl⟩
  | printf => exact works_of_exec_printf h
  | frame | call | entry | ret | illegal => cases hop

theorem of_exec_frame (h : exec lim i m = (m', none)) (hop : i.op = .frame) :
    m' = { m with staged := (m.stack.take i.pops).reverse,
                  stack := m.stack.drop i.pops } := by
  simp only [exec, hop, takeArgs] at h
  split at h
  next => cases h
  next =>
    cases h
    rw [Instr.pops, hop]

theorem of_exec_call (h : exec lim i m = (m', none))
    (hop : i.op = .call) :
    m' = { m with
      frames :=
        m.frames.push
          { base := m.memory.size, count := m.staged.length, returnTo := m.pc }
      memory := m.memory ++ m.staged
      staged := []
      pc := i.operand.toInt } := by
  simp only [exec, hop] at h
  split at h
  next => cases h
  next =>
    cases h
    rfl

theorem of_exec_entry (h : exec lim i m = (m', none)) (hop : i.op = .entry) :
    m' = { m with
      memory := m.memory ++ Array.replicate i.operand.toInt.toNat (0 : Cell) } ∧
    m.memory.size + i.operand.toInt.toNat ≤ memoryLimit := by
  simp only [exec, hop] at h
  split at h
  next => cases h
  next =>
    split at h
    next => cases h
    next hroom =>
      cases h
      exact ⟨rfl, Nat.le_of_not_lt hroom⟩

theorem of_exec_ret (h : exec lim i m = (m', none))
    (hop : i.op = .ret) (hf : m.frames.back? = some f) :
    ∃ v stack, m.stack = v :: stack ∧
      m' = if m.frames.pop.isEmpty then
          { m with stack, frames := m.frames.pop,
                   memory := m.memory.shrink f.base, halted := true,
                   result := v }
        else
          { m with frames := m.frames.pop, memory := m.memory.shrink f.base,
                   pc := f.returnTo,
                   stack := v :: stack } := by
  simp only [exec, hop] at h
  obtain ⟨v, stack, hstack, h⟩ := of_withPop h
  refine ⟨v, stack, hstack, ?_⟩
  simp only [leaveFrame, hf] at h
  split at h
  next hlast =>
    cases h
    rw [if_pos hlast]
  next hlast =>
    cases h
    rw [if_neg hlast]

theorem slotAddr_arg (hf : m.frames.back? = some f) (hpos : 1 ≤ k)
    (hk : k ≤ f.count) (hbound : f.count < 2 ^ 63) :
    m.slotAddr (-Int64.ofNat k) = some (Int64.ofNat (f.base + k - 1)) := by
  have hneg : -Int64.ofNat k < 0 ∧ - -Int64.ofNat k ≤ Int64.ofNat f.count := by
    rw [Int64.neg_neg, Int64.lt_iff_toInt_lt, Int64.le_iff_toInt_le,
      Int64.toInt_neg_ofNat_of_le (by omega),
      Int64.toInt_ofNat_of_lt (by omega), Int64.toInt_ofNat_of_lt hbound,
      Int64.toInt_zero]
    omega
  have hsum : Int64.ofNat (f.base + k) = Int64.ofNat (f.base + k - 1) + 1 := by
    rw [show f.base + k = f.base + k - 1 + 1 by omega, Int64.ofNat_add]
    rfl
  simp only [slotAddr, hf]
  rw [if_pos hneg, Int64.neg_neg, ← Int64.ofNat_add, hsum, Int64.add_sub_cancel]

theorem slotAddr_local (hf : m.frames.back? = some f) (hpos : 1 ≤ k)
    (hk : f.base + f.count + k ≤ m.memory.size)
    (hbound : m.memory.size < 2 ^ 63) :
    m.slotAddr (Int64.ofNat k) =
      some (Int64.ofNat (f.base + f.count + k - 1)) := by
  have hnonneg :
      ¬ (Int64.ofNat k < 0 ∧ -Int64.ofNat k ≤ Int64.ofNat f.count) := by
    rw [Int64.lt_iff_toInt_lt, Int64.toInt_ofNat_of_lt (by omega),
      Int64.toInt_zero]
    omega
  have hpositive : 0 < Int64.ofNat k := by
    rw [Int64.lt_iff_toInt_lt, Int64.toInt_ofNat_of_lt (by omega),
      Int64.toInt_zero]
    omega
  have hsum : Int64.ofNat (f.base + f.count + k) =
      Int64.ofNat (f.base + f.count + k - 1) + 1 := by
    rw [show f.base + f.count + k = f.base + f.count + k - 1 + 1 by omega,
      Int64.ofNat_add]
    rfl
  simp only [slotAddr, hf]
  rw [if_neg hnonneg, if_pos hpositive, ← Int64.ofNat_add, ← Int64.ofNat_add,
    hsum, Int64.add_sub_cancel, Int64.toInt_ofNat_of_lt (by omega),
    if_pos (by omega)]

theorem index?_ofNat (hk : k < m.memory.size)
    (hbound : m.memory.size < 2 ^ 63) : m.index? (Int64.ofNat k) = some k := by
  rw [index?, Int64.toInt_ofNat_of_lt (by omega), if_pos (by omega),
    Int.toNat_natCast]

end Machine

/-! ### Activations -/

/-- A call that has not returned: its function and where the code of it is, its
frame, and the values that it has on the operand stack. -/
structure Activation where
  fn : Function
  start : Nat
  stop : Nat
  frame : Frame
  values : List Cell

namespace Activation

/-- The end of the cells of an activation that has reserved its local cells. -/
def top (a : Activation) : Nat :=
  a.frame.base + a.frame.count + (Int64.ofNat a.fn.cells).toInt.toNat

structure Valid (a : Activation) (L : Link) (fs : List Function) : Prop where
  mem : a.fn ∈ fs
  laid : LaidFunction L a.fn a.start a.stop
  count : a.frame.count = a.fn.params.length

/-- Where the innermost activation stands: before its local cells are reserved,
at an instruction of its body, or at a call whose arguments have been taken from
the stack. -/
inductive At (a : Activation) (L : Link) (fs : List Function) (m : Machine) :
    Prop
  | entering (hpc : m.pc = a.start) (hvalues : a.values = [])
    (hstaged : m.staged = [])
    (hmemory : m.memory.size = a.frame.base + a.frame.count)
  | running (hpc : 0 ≤ m.pc)
    (hsteady : L.Steady a.start a.stop m.pc.toNat a.values.length)
    (hstaged : m.staged = []) (hmemory : m.memory.size = a.top)
    (hroom : a.top ≤ memoryLimit)
  | calling {f : Function} (hpc : 0 ≤ m.pc)
    (hrange : a.start < m.pc.toNat ∧ m.pc.toNat < a.stop) (hf : f ∈ fs)
    (hcode : L.code[m.pc.toNat]? =
      some { op := .call, operand := L.entry f.name })
    (hsteady : L.Steady a.start a.stop (m.pc.toNat + 1) (a.values.length + 1))
    (hstaged : m.staged.length = f.params.length)
    (hmemory : m.memory.size = a.top) (hroom : a.top ≤ memoryLimit)

/-- Activations that wait for a call to return. The call began at the end of
their cells and returns to where they go on with its result; the memory below
them has `bottom` cells. -/
inductive Suspended (L : Link) (fs : List Function) (bottom : Nat) :
    Int → Nat → List Activation → Prop
  | none : Suspended L fs bottom (-1) bottom []
  | caller {a : Activation} {rest : List Activation} {returnTo : Int}
    (hvalid : a.Valid L fs) (hpc : 0 ≤ returnTo)
    (hsteady : L.Steady a.start a.stop returnTo.toNat (a.values.length + 1))
    (hroom : a.top ≤ memoryLimit)
    (hrest : Suspended L fs bottom a.frame.returnTo a.frame.base rest) :
    Suspended L fs bottom returnTo a.top (a :: rest)

namespace Suspended

variable {L : Link} {fs : List Function} {bottom base : Nat} {returnTo : Int}
  {a : Activation} {rest : List Activation}

theorem base_eq (h : Suspended L fs bottom returnTo base []) :
    base = bottom := by
  cases h
  rfl

theorem of_cons (h : Suspended L fs bottom returnTo base (a :: rest)) :
    base = a.top ∧ a.Valid L fs ∧ 0 ≤ returnTo ∧ a.top ≤ memoryLimit ∧
      L.Steady a.start a.stop returnTo.toNat (a.values.length + 1) ∧
      Suspended L fs bottom a.frame.returnTo a.frame.base rest := by
  cases h with
  | caller hvalid hpc hsteady hroom hrest =>
    exact ⟨rfl, hvalid, hpc, hroom, hsteady, hrest⟩

end Suspended

end Activation

/-- A machine that has not halted, with its innermost activation and those that
wait for it. -/
structure Machine.Active (m : Machine) (L : Link) (fs : List Function)
    (bottom : Nat) (a : Activation) (rest : List Activation) : Prop where
  halted : m.halted = false
  frames : m.frames.toList = ((a :: rest).map (·.frame)).reverse
  stack : m.stack = (a :: rest).flatMap (·.values)
  valid : a.Valid L fs
  state : a.At L fs m
  below : Activation.Suspended L fs bottom a.frame.returnTo a.frame.base rest

/-- All functions of a program keep the heights of the operand stack. -/
structure Program.Steady (p : Program) (fs : List Function) : Prop where
  places : p.Places fs
  size : p.code.size < 2 ^ 63
  steady : ∀ f ∈ fs, ∀ start stop, LaidFunction (p.link fs) f start stop →
    (p.link fs).Steady start stop (start + 1) 0

theorem Program.steady_of_ofFunctions {fs : List Function} {p : Program}
    (h : ofFunctions fs = .ok p) (hsize : p.code.size < 2 ^ 63)
    (hdef : ∀ f ∈ fs, f.isDefined = true) : p.Steady fs where
  places := places_of_ofFunctions h hsize
  size := hsize
  steady f hf _ _ hlaid := hlaid.steady (hdef f hf) hsize

namespace Machine

variable {p : Program} {fs : List Function} {lim : Limits} {bottom : Nat}
  {m m' : Machine} {a : Activation} {rest : List Activation} {i : Instr}

theorem Active.back?_frames (h : m.Active (p.link fs) fs bottom a rest) :
    m.frames.back? = some a.frame := by
  rw [← Array.getLast?_toList, h.frames]
  simp

theorem Active.toList_pop (h : m.Active (p.link fs) fs bottom a rest) :
    m.frames.pop.toList = (rest.map (·.frame)).reverse := by
  rw [Array.toList_pop, h.frames]
  simp

/-- An inner instruction changes the values of the innermost activation only. -/
theorem Active.of_works (h : m.Active (p.link fs) fs bottom a rest)
    (hpc : 0 ≤ m.pc) (hready : i.pops ≤ a.values.length)
    (hstaged : m.staged = []) (hmemory : m.memory.size = a.top)
    (hroom : a.top ≤ memoryLimit)
    (hnext : ∀ q ∈ i.next m.pc.toNat a.values.length,
      (p.link fs).Steady a.start a.stop q.1 q.2)
    (hop : i.op.isInner = true)
    (hworks : Works i { m with steps := m.steps + 1, pc := m.pc + 1 } m') :
    ∃ vs, m'.Active (p.link fs) fs bottom { a with values := vs } rest := by
  obtain ⟨popped, pushed, under, hbefore, hpopped, hafter, hpushed⟩ :=
    hworks.stack
  obtain ⟨kept, hkept, hunder⟩ : ∃ kept, a.values = popped ++ kept ∧
      under = kept ++ rest.flatMap (·.values) := by
    have heq : popped ++ under = a.values ++ rest.flatMap (·.values) :=
      hbefore.symm.trans h.stack
    rcases List.append_eq_append_iff.mp heq with
        ⟨kept, hvalues, hunder⟩ | ⟨extra, hlong, hunder⟩
    · exact ⟨kept, hvalues, hunder⟩
    · have hnil : extra = [] := by
        have := congrArg List.length hlong
        rw [List.length_append] at this
        exact List.eq_nil_of_length_eq_zero (by omega)
      subst hnil
      exact ⟨[], by simpa using hlong.symm, by simpa using hunder.symm⟩
  refine ⟨pushed ++ kept, ?_⟩
  have hlength :
      (pushed ++ kept).length = a.values.length - i.pops + i.pushes := by
    rw [hkept, List.length_append, List.length_append, hpushed, hpopped]
    omega
  have hsteady := hnext _ (Instr.mem_next hop hworks.pc hpc)
  rw [← hlength] at hsteady
  obtain ⟨hrange, -⟩ := hsteady 1
  have hstate :
      Activation.At { a with values := pushed ++ kept } (p.link fs) fs m' :=
    .running (by omega) hsteady (hworks.staged.trans hstaged)
      (hworks.memory.trans hmemory) hroom
  refine ⟨hworks.halted.trans h.halted, hworks.frames ▸ h.frames, ?_,
    ⟨h.valid.mem, h.valid.laid, h.valid.count⟩, hstate, h.below⟩
  rw [hafter, hunder]
  simp

/-- The arguments of a call are taken from the values of the innermost
activation. -/
theorem Active.of_frame (h : m.Active (p.link fs) fs bottom a rest)
    (hpc : 0 ≤ m.pc)
    (hsteady : (p.link fs).Steady a.start a.stop m.pc.toNat a.values.length)
    (hmemory : m.memory.size = a.top) (hroom : a.top ≤ memoryLimit)
    (hi : p.code[m.pc.toNat]? = some i) (hop : i.op = .frame)
    (hexec : exec lim i { m with steps := m.steps + 1, pc := m.pc + 1 } =
      (m', none)) :
    m'.Active (p.link fs) fs bottom
      { a with values := a.values.drop i.pops } rest ∧
    i.pops ≤ a.values.length ∧ m'.memory = m.memory ∧ m'.pc = m.pc + 1 ∧
    ∃ f ∈ fs, p.code[m'.pc.toNat]? =
      some { op := .call, operand := (p.link fs).entry f.name } ∧
    (p.link fs).Steady a.start a.stop (m'.pc.toNat + 1)
      ((a.values.drop i.pops).length + 1) ∧
    m'.staged.length = f.params.length ∧ i.pops = f.params.length := by
  obtain ⟨hrange, j, hj, hready, hnext⟩ := hsteady.step
  have hsame : i = j := Option.some.inj (hi.symm.trans hj)
  subst hsame
  have hcount : i.operand.toInt.toNat = i.pops := by rw [Instr.pops, hop]
  simp only [Instr.Ready, hop] at hready
  obtain ⟨henough, d, hd, hparams, hcall⟩ := hready
  obtain ⟨f, hf, rfl⟩ := List.mem_map.mp hd
  have hafter :=
    hnext (m.pc.toNat + 2, a.values.length - i.pops + 1)
      (by simp [Instr.next, hop])
  obtain ⟨hrange', -⟩ := hafter 1
  have hm' := of_exec_frame hexec hop
  dsimp only at hm'
  have htake : m.stack.take i.pops = a.values.take i.pops := by
    rw [h.stack, List.flatMap_cons, List.take_append_of_le_length henough]
  have hdrop :
      m.stack.drop i.pops = a.values.drop i.pops ++
      rest.flatMap (·.values) := by
    rw [h.stack, List.flatMap_cons, List.drop_append_of_le_length henough]
  rw [htake, hdrop] at hm'
  subst hm'
  have hnextPc : (m.pc + 1).toNat = m.pc.toNat + 1 := by omega
  have hpops : i.pops = f.params.length := by
    rw [← hcount, hparams, Int.toNat_natCast]
    rfl
  have hstaged : (a.values.take i.pops).reverse.length = f.params.length := by
    rw [List.length_reverse, List.length_take_of_le henough, hpops]
  have hcall' :
      p.code[(m.pc + 1).toNat]? =
      some { op := .call, operand := (p.link fs).entry f.name } := by
    rw [hnextPc]
    exact hcall
  have hsteady' : (p.link fs).Steady a.start a.stop ((m.pc + 1).toNat + 1)
      ((a.values.drop i.pops).length + 1) := by
    rw [hnextPc, List.length_drop]
    exact hafter
  refine ⟨⟨h.halted, h.frames, rfl, ⟨h.valid.mem, h.valid.laid, h.valid.count⟩,
    ?_, h.below⟩, henough, rfl, rfl, f, hf, hcall', hsteady', hstaged, hpops⟩
  refine .calling (f := f) (show 0 ≤ m.pc + 1 by omega) ?_ hf hcall' hsteady'
    hstaged hmemory hroom
  dsimp only at hrange' ⊢
  omega

/-- A call begins an activation of its function. -/
theorem Active.of_call (hp : p.Steady fs)
    (h : m.Active (p.link fs) fs bottom a rest) {f : Function} (hpc : 0 ≤ m.pc)
    (hf : f ∈ fs) (hop : i.op = .call)
    (hoperand : i.operand = (p.link fs).entry f.name)
    (hsteady : (p.link fs).Steady a.start a.stop (m.pc.toNat + 1)
      (a.values.length + 1))
    (hstaged : m.staged.length = f.params.length)
    (hmemory : m.memory.size = a.top) (hroom : a.top ≤ memoryLimit)
    (hexec : exec lim i { m with steps := m.steps + 1, pc := m.pc + 1 } =
      (m', none)) :
    ∃ b, i.operand = Int64.ofNat b.start ∧
      m'.Active (p.link fs) fs bottom b (a :: rest) ∧
      b.frame =
        { base := m.memory.size, count := m.staged.length,
          returnTo := m.pc + 1 } := by
  obtain ⟨start, stop, hlaid⟩ := hp.places.laid.exists_start hf
  have hstart : (Int64.ofNat start).toInt = start :=
    Int64.toInt_ofNat_of_lt (Nat.lt_trans hlaid.start_lt hp.size)
  have hentry : i.operand = Int64.ofNat start := hoperand.trans hlaid.entry
  have hm' := of_exec_call hexec hop
  refine ⟨{ fn := f, start, stop, values := []
            frame :=
              { base := m.memory.size, count := m.staged.length,
                returnTo := m.pc + 1 } },
    hentry, ?_, rfl⟩
  subst hm'
  refine ⟨h.halted, ?_, h.stack, ⟨hf, hlaid, hstaged⟩, ?_, ?_⟩
  · simp [h.frames]
  · exact .entering (by rw [hentry, hstart]) rfl rfl (size_appendList _ _)
  · rw [hmemory]
    have hnextPc : (m.pc + 1).toNat = m.pc.toNat + 1 := by omega
    exact .caller h.valid (by dsimp only; omega) (hnextPc ▸ hsteady)
      hroom h.below

/-- The first instruction of a function reserves its local cells. -/
theorem Active.of_entry (hp : p.Steady fs)
    (h : m.Active (p.link fs) fs bottom a rest) (hpc : m.pc = a.start)
    (hvalues : a.values = []) (hstaged : m.staged = [])
    (hmemory : m.memory.size = a.frame.base + a.frame.count)
    (hop : i.op = .entry) (hoperand : i.operand = Int64.ofNat a.fn.cells)
    (hexec : exec lim i { m with steps := m.steps + 1, pc := m.pc + 1 } =
      (m', none)) : m'.Active (p.link fs) fs bottom a rest := by
  obtain ⟨hm', hroom⟩ := of_exec_entry hexec hop
  subst hm'
  have htop : m.memory.size + i.operand.toInt.toNat = a.top := by
    rw [hmemory, hoperand]
    rfl
  have hsteady := hp.steady a.fn h.valid.mem a.start a.stop h.valid.laid
  have hnextPc : (m.pc + 1).toNat = a.start + 1 := by omega
  refine ⟨h.halted, h.frames, h.stack, h.valid,
    .running (by dsimp only; omega) ?_ hstaged ?_ ?_, h.below⟩
  · rw [hvalues, hnextPc]
    exact hsteady
  · rw [Array.size_append, Array.size_replicate]
    exact htop
  · rw [← htop]
    exact hroom

/-- A return ends the innermost activation: the one below goes on with the
result, or the machine halts. -/
theorem Active.of_ret (h : m.Active (p.link fs) fs bottom a rest)
    (hvalues : a.values.length = 1) (hstaged : m.staged = [])
    (hmemory : m.memory.size = a.top) (hop : i.op = .ret)
    (hexec : exec lim i { m with steps := m.steps + 1, pc := m.pc + 1 } =
      (m', none)) :
    (∃ v b rest', rest = b :: rest' ∧
      m'.Active (p.link fs) fs bottom { b with values := v :: b.values } rest' ∧
      m'.pc = a.frame.returnTo ∧ m'.memory.size = a.frame.base) ∨
    (rest = [] ∧ m'.halted = true ∧ m'.frames.size = 0 ∧ m'.stack = [] ∧
      m'.memory.size = bottom) := by
  obtain ⟨v, stack, hstack, hm'⟩ := of_exec_ret hexec hop h.back?_frames
  obtain ⟨w, hw⟩ := List.length_eq_one_iff.mp hvalues
  have hcons : v :: stack = w :: rest.flatMap (·.values) := by
    rw [← hstack]
    simpa [hw] using h.stack
  obtain ⟨rfl, rfl⟩ := List.cons.inj hcons
  have hbase : (m.memory.shrink a.frame.base).size = a.frame.base := by
    rw [Array.size_shrink, hmemory, Activation.top]
    omega
  have hframes := h.toList_pop
  cases hrest : rest with
  | nil =>
    have hempty : m.frames.pop.isEmpty = true := by
      rw [← Array.isEmpty_toList, hframes, hrest]
      rfl
    rw [if_pos hempty] at hm'
    subst hm'
    refine Or.inr
      ⟨rfl, rfl, Array.isEmpty_iff_size_eq_zero.mp hempty, by simp [hrest], ?_⟩
    exact hbase.trans (hrest ▸ h.below).base_eq
  | cons b rest' =>
    have hmore : ¬ m.frames.pop.isEmpty = true := by
      rw [← Array.isEmpty_toList, hframes, hrest]
      simp
    rw [if_neg hmore] at hm'
    subst hm'
    obtain ⟨htop, hvalid, hpc, hroom, hsteady, hbelow⟩ :=
      (hrest ▸ h.below).of_cons
    refine Or.inl ⟨v, b, rest', rfl, ?_, rfl, hbase⟩
    refine ⟨h.halted, hrest ▸ hframes, by simp [hrest],
      ⟨hvalid.mem, hvalid.laid, hvalid.count⟩, ?_, hbelow⟩
    exact .running hpc hsteady hstaged (hbase.trans htop) hroom

/-- How a step changes the activations: it works on the innermost one, begins a
new one or ends it. -/
inductive Moves (p : Program) (fs : List Function) (bottom : Nat) (i : Instr)
    (m' : Machine) : Activation → List Activation → Prop
  | inner {a : Activation} {rest : List Activation} (vs : List Cell)
    (hcall : i.op ≠ .call) (hret : i.op ≠ .ret)
    (h : m'.Active (p.link fs) fs bottom { a with values := vs } rest) :
    Moves p fs bottom i m' a rest
  | call {a b : Activation} {rest : List Activation} (hop : i.op = .call)
    (hoperand : i.operand = Int64.ofNat b.start)
    (h : m'.Active (p.link fs) fs bottom b (a :: rest)) :
    Moves p fs bottom i m' a rest
  | ret {a b : Activation} {rest : List Activation} (v : Cell)
    (hop : i.op = .ret)
    (h : m'.Active (p.link fs) fs bottom
      { b with values := v :: b.values } rest)
    (hpc : m'.pc = a.frame.returnTo) (hmemory : m'.memory.size = a.frame.base) :
    Moves p fs bottom i m' a (b :: rest)
  | halt {a : Activation} (hop : i.op = .ret) (hhalted : m'.halted = true)
    (hframes : m'.frames.size = 0) (hstack : m'.stack = [])
    (hmemory : m'.memory.size = bottom) : Moves p fs bottom i m' a []

theorem Active.moves (hp : p.Steady fs)
    (h : m.Active (p.link fs) fs bottom a rest)
    (hstep : step p lim m = (m', none)) :
    ∃ i, p.code[m.pc.toNat]? = some i ∧ Moves p fs bottom i m' a rest := by
  obtain ⟨i, -, hi, -, hexec⟩ := exec_of_step hstep h.halted
  refine ⟨i, hi, ?_⟩
  cases h.state with
  | entering hpc hvalues hstaged hmemory =>
    have hreserve := h.valid.laid.shape.reserve
    have haddr : m.pc.toNat = a.start := by omega
    rw [haddr] at hi
    have hsame := Option.some.inj (hi.symm.trans hreserve)
    have hop : i.op = .entry := by rw [hsame]
    refine .inner a.values (by simp [hop]) (by simp [hop]) ?_
    exact h.of_entry hp hpc hvalues hstaged hmemory hop (by rw [hsame]) hexec
  | calling hpc hrange hf hcode hsteady hstaged hmemory hroom =>
    have hsame := Option.some.inj (hi.symm.trans hcode)
    have hop : i.op = .call := by rw [hsame]
    obtain ⟨b, hoperand, hactive, -⟩ :=
      h.of_call hp hpc hf hop (by rw [hsame]) hsteady hstaged hmemory
        hroom hexec
    exact .call hop hoperand hactive
  | running hpc hsteady hstaged hmemory hroom =>
    obtain ⟨hrange, j, hj, hready, hnext⟩ := hsteady.step
    have hsame : i = j := Option.some.inj (hi.symm.trans hj)
    subst hsame
    by_cases hframe : i.op = .frame
    · obtain ⟨hactive, -⟩ :=
        h.of_frame hpc hsteady hmemory hroom hi hframe hexec
      exact .inner _ (by simp [hframe]) (by simp [hframe]) hactive
    by_cases hret : i.op = .ret
    · have hone : a.values.length = 1 := by
        simpa [Instr.Ready, hret] using hready
      rcases h.of_ret hone hstaged hmemory hret hexec with
          ⟨v, b, rest', rfl, hactive, hpc', hsize⟩
          | ⟨rfl, hhalted, hframes, hstack, hsize⟩
      · exact .ret v hret hactive hpc' hsize
      · exact .halt hret hhalted hframes hstack hsize
    -- All other instructions that may stand here are inner ones.
    obtain ⟨hinner, henough⟩ := Instr.Ready.inner hready hframe hret
    obtain ⟨vs, hactive⟩ :=
      h.of_works hpc henough hstaged hmemory hroom hnext hinner
        (works_of_exec hexec hinner)
    refine .inner vs (fun hcall => ?_) hret hactive
    simp [hcall, Opcode.isInner] at hinner

end Machine

end StackC
