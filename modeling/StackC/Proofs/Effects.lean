import StackC.Proofs.Calls

/-!
What one instruction can do, in any code. An instruction computes on the operand
stack, writes to one cell, writes text, sets arguments aside, begins or ends a
call, reserves cells, or stops. Whatever every step keeps is read off this list.
-/

namespace StackC

namespace Machine

/-- What an instruction does to a machine, and how it ends. A store to a
variable stays inside the memory that the top frame begins. -/
inductive Effect (lim : Limits) (i : Instr) (m : Machine) :
    Machine × Option Stop → Prop
  | fault (stack : List Cell) (f : Fault) :
    Effect lim i m ({ m with stack, halted := true },
      some (.fault { pc := m.pc, fault := f }))
  | crash (stack : List Cell) : Effect lim i m ({ m with stack }, some .crash)
  | compute (pc : Int) (stack : List Cell) :
    Effect lim i m ({ m with pc, stack }, none)
  | print (stack : List Cell) (s : Bytes) :
    Effect lim i m ({ m with stack, output := m.output ++ s }, none)
  | stage (staged stack : List Cell) :
    Effect lim i m ({ m with staged, stack }, none)
  | store {addr v : Cell} {stack : List Cell} {k : Nat} (hop : i.op = .store)
    (hstack : m.stack = v :: addr :: stack) (haddr : addr.toInt = k) :
    Effect lim i m
      ({ m with stack, memory := m.memory.setIfInBounds k v }, none)
  | storeLocal {addr : Cell} {k : Nat} (v : Cell) (stack : List Cell)
    (hslot : m.slotAddr i.operand = some addr)
    (hindex : m.index? addr = some k) :
    Effect lim i m
      ({ m with stack, memory := m.memory.setIfInBounds k v }, none)
  | reserve (n : Nat) :
    Effect lim i m
      ({ m with memory := m.memory ++ Array.replicate n (0 : Cell) }, none)
  | call (hop : i.op = .call) (hdepth : m.frames.size < lim.maxDepth) :
    Effect lim i m ({ m with
      frames :=
        m.frames.push
          { base := m.memory.size, count := m.staged.length, returnTo := m.pc }
      memory := m.memory ++ m.staged
      staged := []
      pc := i.operand.toInt }, none)
  | leave {f : Frame} {v : Cell} {stack : List Cell} (hop : i.op = .ret)
      (hf : m.frames.back? = some f) (hstack : m.stack = v :: stack)
      (hmore : 1 < m.frames.size) : Effect lim i m ({ m with
      frames := m.frames.pop, memory := m.memory.shrink f.base, pc :=
        f.returnTo, stack := v :: stack }, none)
  | finish {f : Frame} {v : Cell} {stack : List Cell} (hop : i.op = .ret)
      (hf : m.frames.back? = some f) (hstack : m.stack = v :: stack)
      (hlast : m.frames.size = 1) : Effect lim i m ({ m with
      frames := m.frames.pop, memory := m.memory.shrink f.base, stack, halted :=
        true, result := v }, none)

section

variable {lim : Limits} {i : Instr} {m : Machine}

theorem effect_fail (f : Fault) : Effect lim i m (m.fail f) :=
  .fault m.stack f

theorem effect_withPop {k : Machine → Cell → Machine × Option Stop}
    (hk : ∀ v stack, m.stack = v :: stack →
      Effect lim i m (k { m with stack } v)) :
    Effect lim i m (m.withPop k) := by
  rw [withPop]
  split
  next => exact effect_fail _
  next v stack hstack => exact hk v stack hstack

theorem effect_withPop2 {k : Machine → Cell → Cell → Machine × Option Stop}
    (hk : ∀ a b stack, m.stack = b :: a :: stack →
      Effect lim i m (k { m with stack } a b)) :
    Effect lim i m (m.withPop2 k) := by
  apply effect_withPop
  intro b under hunder
  rw [withPop]
  split
  next => exact .fault _ _
  next a stack hstack =>
    have hboth : under = a :: stack := hstack
    exact hk a b stack (hboth ▸ hunder)

theorem toInt_of_checkAddr {memory : Array Cell} {addr : Cell} {k : Nat}
    (h : checkAddr memory addr = .ok k) : addr.toInt = k := by
  simp only [checkAddr] at h
  obtain ⟨-, h⟩ := ok_of_else h
  obtain ⟨hinside, h⟩ := ok_of_else h
  cases h
  omega

theorem effect_leaveFrame {v : Cell} {stack : List Cell} (hop : i.op = .ret)
    (hstack : m.stack = v :: stack) :
    Effect lim i m (leaveFrame { m with stack } v) := by
  simp only [leaveFrame]
  split
  next => exact .crash stack
  next f hf =>
    have hsize : m.frames.size ≠ 0 := by
      intro hzero
      rw [Array.eq_empty_of_size_eq_zero hzero] at hf
      cases hf
    have hpop : m.frames.pop.size = m.frames.size - 1 := Array.size_pop
    split
    next hlast =>
      have hzero : m.frames.pop.size = 0 :=
        Array.isEmpty_iff_size_eq_zero.mp hlast
      exact .finish hop hf hstack (by omega)
    next hmore =>
      have hpos : m.frames.pop.size ≠ 0 :=
        fun hzero => hmore (Array.isEmpty_iff_size_eq_zero.mpr hzero)
      exact .leave hop hf hstack (by omega)

theorem effect_printf (operand : Cell) (hop : i = { op := .printf, operand }) :
    Effect lim i m (exec lim i m) := by
  subst hop
  simp only [exec, takeArgs]
  split
  next => exact effect_fail _
  next =>
    split
    next htake =>
      obtain ⟨-, rfl⟩ := Prod.mk.inj htake
      exact .crash _
    next htake =>
      obtain ⟨-, rfl⟩ := Prod.mk.inj htake
      split
      next => exact .fault _ _
      next =>
        rw [write]
        split
        next => exact .print _ _
        next => exact .fault _ _

/-- Every instruction has one of these effects. -/
theorem effect_exec (lim : Limits) (i : Instr) (m : Machine) :
    Effect lim i m (exec lim i m) := by
  obtain ⟨op, operand⟩ := i
  cases op with
  | push => exact .compute m.pc _
  | pop =>
    simp only [exec]
    apply effect_withPop
    intro v stack hstack
    exact .compute m.pc stack
  | arith f =>
    simp only [exec]
    apply effect_withPop2
    intro a b stack hstack
    cases f.apply a b with
    | some v => exact .compute m.pc _
    | none => exact .fault _ _
  | signExtend | zeroExtend =>
    simp only [exec]
    split
    next => exact effect_fail _
    next =>
      apply effect_withPop
      intro v stack hstack
      exact .compute m.pc _
  | loadLocal =>
    simp only [exec]
    split
    next => exact effect_fail _
    next =>
      split
      next => exact .crash _
      next => exact .compute m.pc _
  | storeLocal =>
    simp only [exec]
    split
    next => exact effect_fail _
    next hslot =>
      apply effect_withPop
      intro v stack hstack
      split
      next => exact .crash _
      next hindex => exact .storeLocal v stack hslot hindex
  | addrLocal =>
    simp only [exec]
    split
    next => exact effect_fail _
    next => exact .compute m.pc _
  | load =>
    simp only [exec]
    apply effect_withPop
    intro addr stack hstack
    split
    next => exact .fault _ _
    next => exact .compute m.pc _
  | store =>
    simp only [exec]
    apply effect_withPop2
    intro addr v stack hstack
    split
    next => exact .fault _ _
    next hcheck => exact .store rfl hstack (toInt_of_checkAddr hcheck)
  | jump => exact .compute _ m.stack
  | jumpZero =>
    simp only [exec]
    apply effect_withPop
    intro v stack hstack
    split
    next => exact .compute _ stack
    next => exact .compute m.pc stack
  | frame =>
    simp only [exec, takeArgs]
    split
    next => exact effect_fail _
    next => exact .stage _ _
  | call =>
    simp only [exec]
    split
    next => exact effect_fail _
    next hdepth => exact .call rfl (Nat.lt_of_not_le hdepth)
  | entry =>
    simp only [exec]
    split
    next => exact effect_fail _
    next =>
      split
      next => exact .crash _
      next => exact .reserve _
  | ret =>
    simp only [exec]
    apply effect_withPop
    intro v stack hstack
    exact effect_leaveFrame rfl hstack
  | printf => exact effect_printf operand rfl
  | illegal => exact effect_fail _

end

/-- How a step goes: a machine that has halted stays as it is, control may be
outside the code, the steps may be used up, or an instruction has its effect. -/
inductive StepEffect (p : Program) (lim : Limits) (m : Machine) :
    Machine × Option Stop → Prop
  | halted (hhalted : m.halted = true) : StepEffect p lim m (m, none)
  | outside (hrunning : m.halted = false) :
    StepEffect p lim m ({ m with halted := true },
      some (.fault { pc := m.pc, fault := .pcOutside }))
  | exhausted (hrunning : m.halted = false) (hsteps : lim.maxSteps ≤ m.steps) :
    StepEffect p lim m ({ m with steps := m.steps + 1, halted := true },
      some (.fault { pc := m.pc, fault := .stepLimit lim.maxSteps }))
  | instr {i : Instr} {r : Machine × Option Stop} (hrunning : m.halted = false)
    (hpc : 0 ≤ m.pc) (hi : p.code[m.pc.toNat]? = some i)
    (hsteps : m.steps < lim.maxSteps)
    (h : Effect lim i { m with steps := m.steps + 1, pc := m.pc + 1 } r) :
    StepEffect p lim m r

theorem stepEffect_step (p : Program) (lim : Limits) (m : Machine) :
    StepEffect p lim m (step p lim m) := by
  rw [step]
  by_cases hhalted : m.halted = true
  · rw [if_pos hhalted]
    exact .halted hhalted
  · rw [if_neg hhalted]
    have hrunning : m.halted = false := Bool.eq_false_iff.mpr hhalted
    split
    next => exact .outside hrunning
    next hpc =>
      split
      next => exact .outside hrunning
      next i hi =>
        dsimp only
        split
        next hsteps => exact .exhausted hrunning (Nat.le_of_lt_succ hsteps)
        next hsteps =>
          exact .instr hrunning (by omega) hi (by omega) (effect_exec lim i _)

theorem stepEffect_stepInto {p : Program} {lim : Limits} {sink : Sink}
    {m : Machine} {r : Machine × Option Stop}
    (hstep : stepInto p lim sink m = r) :
    StepEffect p { lim with canWrite := sink m } m r := by
  rw [← hstep]
  exact stepEffect_step p _ m

end Machine

end StackC
