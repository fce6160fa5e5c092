import StackC.Proofs.Effects

/-!
Frames in any code. However instructions follow one another, the frames lie one
behind the other in memory, and a call that returns leaves the frames and the
size of memory as it found them. Below the frame of a call only store
instructions change memory: a variable has its cell in the top frame.
-/

namespace StackC

/-- A limit on calls that is set by numbers is positive. -/
theorem Limits.maxDepth_ofInts_pos (maxSteps maxDepth : Int) (canWrite : Bool) :
    0 < (Limits.ofInts maxSteps maxDepth canWrite).maxDepth := by
  simp only [ofInts]
  split
  next => decide
  next hpos => omega

/-- Frames that lie one behind the other: each one ends, with its arguments,
before the next one begins, and the last one before `top`. -/
def Frame.Stacked (frames : Array Frame) (top : Nat) : Prop :=
  ∀ (k : Nat) (f : Frame), frames[k]? = some f →
    f.base + f.count ≤ ((frames[k + 1]?).map (·.base)).getD top

namespace Frame.Stacked

variable {frames : Array Frame} {top top' : Nat} {f g : Frame}

theorem mono (h : Stacked frames top) (hle : top ≤ top') :
    Stacked frames top' := by
  intro k f hf
  have hend := h k f hf
  cases hnext : frames[k + 1]? with
  | none =>
    rw [hnext] at hend
    exact Nat.le_trans hend hle
  | some g => rwa [hnext] at hend

theorem push (h : Stacked frames g.base) (htop : g.base + g.count ≤ top) :
    Stacked (frames.push g) top := by
  intro k f hf
  rw [Array.getElem?_push] at hf ⊢
  split at hf
  next hlast =>
    cases hf
    rw [if_neg (by omega), Array.getElem?_eq_none (by omega)]
    exact htop
  next hbelow =>
    have hend := h k f hf
    have hk : k < frames.size := (Array.getElem?_eq_some_iff.mp hf).1
    split
    next hnext =>
      rw [Array.getElem?_eq_none (by omega)] at hend
      exact hend
    next hnext =>
      rw [Array.getElem?_eq_getElem (by omega)] at hend ⊢
      exact hend

theorem pop (h : Stacked frames top) (hf : frames.back? = some f) :
    Stacked frames.pop f.base := by
  intro k g hg
  rw [Array.getElem?_pop] at hg ⊢
  obtain ⟨hk, hg⟩ := Option.ite_none_right_eq_some.mp hg
  have hend := h k g hg
  split
  next hnext =>
    rw [Array.getElem?_eq_getElem (by omega)] at hend ⊢
    exact hend
  next hnext =>
    have hlast : frames[k + 1]? = some f := by
      rw [Array.back?, show frames.size - 1 = k + 1 by omega] at hf
      exact hf
    rw [hlast] at hend
    exact hend

/-- Frames further up begin further up. -/
theorem base_le (h : Stacked frames top) {j k : Nat} (hf : frames[j]? = some f)
    (hg : frames[k]? = some g) (hle : j ≤ k) : f.base ≤ g.base := by
  induction k generalizing g with
  | zero =>
    cases Nat.le_zero.mp hle
    cases hf.symm.trans hg
    exact Nat.le_refl _
  | succ k ih =>
    by_cases hlast : j = k + 1
    · subst hlast
      cases hf.symm.trans hg
      exact Nat.le_refl _
    · have hk : k + 1 < frames.size := (Array.getElem?_eq_some_iff.mp hg).1
      have hbelow : frames[k]? = some frames[k] :=
        Array.getElem?_eq_getElem (by omega)
      have hend := h k frames[k] hbelow
      rw [hg] at hend
      have hfirst := ih hbelow (by omega)
      dsimp only [Option.map_some, Option.getD_some] at hend
      omega

end Frame.Stacked

namespace Machine

/-- The frames of a machine until the outermost call has returned. There is at
least one and there are at most `depth`, the first begins at `bottom`, and they
lie one behind the other in memory. -/
structure Framed (m : Machine) (depth bottom : Nat) : Prop where
  pos : 1 ≤ m.frames.size
  le_depth : m.frames.size ≤ depth
  first : (m.frames[0]?).map (·.base) = some bottom
  stacked : Frame.Stacked m.frames m.memory.size

/-- A machine is about to leave its last frame, with the value on top of the
operand stack. -/
structure AtLastReturn (p : Program) (maxSteps : Nat) (m : Machine) (v : Cell) :
    Prop where
  running : m.halted = false
  instr : 0 ≤ m.pc ∧ ∃ i, p.code[m.pc.toNat]? = some i ∧ i.op = .ret
  steps : m.steps < maxSteps
  frames : m.frames.size = 1
  value : ∃ stack, m.stack = v :: stack

section

variable {p : Program} {lim : Limits} {sink : Sink} {depth bottom : Nat}
  {i : Instr} {m m' : Machine} {s : Option Stop} {f : Frame}

theorem framed_start (p : Program) (hdepth : 0 < depth) :
    (start p).Framed depth (start p).memory.size where
  pos := Nat.le_refl 1
  le_depth := hdepth
  first := rfl
  stacked := by
    intro k f hf
    have hsize : (start p).frames.size = 1 := rfl
    have hk : k < (start p).frames.size := (Array.getElem?_eq_some_iff.mp hf).1
    rw [Array.getElem?_eq_none (by omega)]
    obtain rfl : k = 0 := by omega
    cases hf
    exact Nat.le_refl _

theorem Framed.top_le_size (h : m.Framed depth bottom)
    (hf : m.frames.back? = some f) : f.base + f.count ≤ m.memory.size := by
  have hend := h.stacked (m.frames.size - 1) f hf
  have hpos := h.pos
  rwa [Array.getElem?_eq_none (by omega)] at hend

/-- An instruction keeps the frames in order, as long as one is left. -/
theorem Framed.effect (h : m.Framed lim.maxDepth bottom)
    (heffect : Effect lim i m (m', s)) (hleft : 0 < m'.frames.size) :
    m'.Framed lim.maxDepth bottom := by
  cases heffect with
  | fault | crash | compute | print | stage =>
    exact ⟨h.pos, h.le_depth, h.first, h.stacked⟩
  | store | storeLocal =>
    exact ⟨h.pos, h.le_depth, h.first,
      h.stacked.mono (by rw [Array.size_setIfInBounds])⟩
  | reserve n =>
    exact ⟨h.pos, h.le_depth, h.first,
      h.stacked.mono (by rw [Array.size_append]; omega)⟩
  | call hop hdepth =>
    have hpos := h.pos
    refine ⟨hleft, ?_, ?_, h.stacked.push ?_⟩
    · rw [Array.size_push]
      exact hdepth
    · rw [Array.getElem?_push, if_neg (by omega)]
      exact h.first
    · rw [size_appendList]
  | leave hop hf hstack hmore =>
    have hbase := h.top_le_size hf
    refine ⟨hleft, ?_, ?_, (h.stacked.pop hf).mono ?_⟩
    · exact Nat.le_trans (by rw [Array.size_pop]; omega) h.le_depth
    · rw [Array.getElem?_pop, if_pos (by omega)]
      exact h.first
    · rw [Array.size_shrink]
      omega
  | finish hop hf hstack hlast =>
    rw [Array.size_pop, hlast] at hleft
    cases hleft

/-- The outermost return halts the machine with the value that it takes from the
stack. -/
theorem AtLastReturn.exists_step {maxSteps : Nat} {v : Cell}
    (h : m.AtLastReturn p maxSteps v) :
    ∃ m', (∀ lim : Limits, lim.maxSteps = maxSteps →
      step p lim m = (m', none)) ∧
    m'.halted = true ∧ m'.frames.size = 0 ∧ m'.result = v := by
  obtain ⟨hpc, i, hi, hop⟩ := h.instr
  obtain ⟨stack, hstack⟩ := h.value
  have hsize := h.frames
  have hsteps := h.steps
  obtain ⟨f, hf⟩ : ∃ f, m.frames.back? = some f :=
    ⟨_, Array.getElem?_eq_getElem (by omega)⟩
  have hempty : m.frames.pop.size = 0 := by rw [Array.size_pop, hsize]
  refine ⟨{ m with
    steps := m.steps + 1, pc := m.pc + 1, frames := m.frames.pop, memory :=
      m.memory.shrink f.base, stack
    halted := true, result := v }, fun lim hlim => ?_, rfl, hempty, rfl⟩
  rw [step, if_neg (by rw [h.running]; exact Bool.false_ne_true),
    if_neg (by omega)]
  simp only [hi]
  rw [if_neg (by omega)]
  simp only [exec, hop, withPop, hstack, leaveFrame, hf,
    Array.isEmpty_iff_size_eq_zero.mpr hempty, if_true]
  rfl

/-- A step keeps the frames in order, or it is the return of the outermost
call. -/
theorem Framed.of_step (h : m.Framed lim.maxDepth bottom)
    (hstep : StepEffect p lim m (m', s)) :
    m'.Framed lim.maxDepth bottom ∨ ∃ v, m.AtLastReturn p lim.maxSteps v := by
  cases hstep with
  | halted => exact Or.inl h
  | outside | exhausted => exact Or.inl ⟨h.pos, h.le_depth, h.first, h.stacked⟩
  | instr hrunning hpc hi hsteps heffect =>
    have hcounted :
        Framed { m with steps := m.steps + 1, pc := m.pc + 1 } lim.maxDepth
        bottom := ⟨h.pos, h.le_depth, h.first, h.stacked⟩
    by_cases hleft : 0 < m'.frames.size
    · exact Or.inl (hcounted.effect heffect hleft)
    · right
      have hpos := h.pos
      have hnone : m'.frames.size = 0 := by omega
      cases heffect with
      | finish hop hf hstack hlast =>
        exact ⟨_, hrunning, ⟨hpc, _, hi, hop⟩, hsteps, hlast, _, hstack⟩
      | call =>
        rw [Array.size_push] at hnone
        cases hnone
      | leave _ _ _ hmore =>
        rw [Array.size_pop] at hnone
        dsimp only at hmore hnone
        omega
      | fault | crash | compute | print | stage | store | storeLocal
      | reserve =>
        exact absurd hnone (Nat.ne_of_gt hpos)

theorem Framed.of_stepInto (h : m.Framed lim.maxDepth bottom)
    (hstep : stepInto p lim sink m = (m', s)) :
    m'.Framed lim.maxDepth bottom ∨ ∃ v, m.AtLastReturn p lim.maxSteps v := by
  have hdepth : m.Framed { lim with canWrite := sink m }.maxDepth bottom := h
  exact hdepth.of_step (stepEffect_stepInto hstep)

theorem AtLastReturn.exists_stepInto {v : Cell}
    (h : m.AtLastReturn p lim.maxSteps v) (sink : Sink) :
    ∃ m', stepInto p lim sink m = (m', none) ∧ m'.halted = true ∧
      m'.frames.size = 0 ∧ m'.result = v := by
  obtain ⟨m', hstep, hrest⟩ := h.exists_step
  exact ⟨m', hstep _ rfl, hrest⟩

theorem framed_of_reaches (hdepth : 0 < lim.maxDepth)
    (h : Reaches p lim sink (start p) m) :
    m.Framed lim.maxDepth (start p).memory.size ∨
      ∃ last v, Reaches p lim sink (start p) last ∧
        last.AtLastReturn p lim.maxSteps v ∧
        stepInto p lim sink last = (m, none) := by
  obtain ⟨way, h⟩ := h
  induction h with
  | refl => exact Or.inl (framed_start p hdepth)
  | @step way m m' hway hrunning hstep ih =>
    rcases ih with hframed | ⟨last, v, -, hreturn, hfinal⟩
    · rcases hframed.of_stepInto hstep with hframed' | ⟨v, hreturn⟩
      · exact Or.inl hframed'
      · exact Or.inr ⟨m, v, ⟨way, hway⟩, hreturn, hstep⟩
    · obtain ⟨final, hsame, hhalted, -⟩ := hreturn.exists_stepInto sink
      cases hsame.symm.trans hfinal
      cases hhalted.symm.trans hrunning

/-- Every machine that a run comes to has its frames in order, until the
outermost call returns. -/
theorem framed_of_visits (hdepth : 0 < lim.maxDepth)
    (h : Visits p lim sink (start p) m) :
    m.Framed lim.maxDepth (start p).memory.size ∨
      ∃ last v, Visits p lim sink (start p) last ∧
        last.AtLastReturn p lim.maxSteps v ∧
        stepInto p lim sink last = (m, none) := by
  rcases h with hreaches | ⟨before, e, hreaches, hrunning, hstop⟩
  · rcases framed_of_reaches hdepth hreaches
      with hframed | ⟨last, v, hlast, hreturn, hfinal⟩
    · exact Or.inl hframed
    · exact Or.inr ⟨last, v, Or.inl hlast, hreturn, hfinal⟩
  · -- Neither the outermost return nor a machine that has halted fails.
    rcases framed_of_reaches hdepth hreaches
      with hframed | ⟨last, v, -, hreturn, hfinal⟩
    · rcases hframed.of_stepInto hstop with hframed' | ⟨v, hreturn⟩
      · exact Or.inl hframed'
      · obtain ⟨final, hsame, -⟩ := hreturn.exists_stepInto sink
        cases hsame.symm.trans hstop
    · obtain ⟨final, hsame, hhalted, -⟩ := hreturn.exists_stepInto sink
      cases hsame.symm.trans hfinal
      cases hhalted.symm.trans hrunning

/-- A step begins a call, ends one, or leaves the frames alone. -/
theorem frames_of_stepInto (h : stepInto p lim sink m = (m', none)) :
    m'.frames = m.frames ∨ (∃ g, m'.frames = m.frames.push g) ∨
      m'.frames = m.frames.pop := by
  cases stepEffect_stepInto h with
  | halted => exact Or.inl rfl
  | instr hrunning hpc hi hsteps heffect =>
    cases heffect with
    | compute | print | stage | store | storeLocal | reserve => exact Or.inl rfl
    | call => exact Or.inr (Or.inl ⟨_, rfl⟩)
    | leave | finish => exact Or.inr (Or.inr rfl)

variable {entered : Machine} {fs : Array Frame} {k : Nat}

/-- While a call is open, the frames that were there before it stay, with its
own frame above them. -/
theorem Framed.inside (h : entered.Framed lim.maxDepth bottom)
    (hframes : entered.frames = fs.push f)
    (hinside : ReachesInside p lim sink fs.size entered m) :
    m.Framed lim.maxDepth bottom ∧
      ∃ inner, m.frames.toList = fs.toList ++ f :: inner := by
  induction hinside using ReachesInside.induction with
  | refl => exact ⟨h, [], by rw [hframes, Array.toList_push]⟩
  | @step m m' _ hstep hdepth ih =>
    obtain ⟨hframed, inner, hinner⟩ := ih
    constructor
    · rcases hframed.of_stepInto hstep with hframed' | ⟨v, hreturn⟩
      · exact hframed'
      · obtain ⟨final, hfinal, -, hnone, -⟩ := hreturn.exists_stepInto sink
        cases hfinal.symm.trans hstep
        rw [hnone] at hdepth
        cases hdepth
    · rcases frames_of_stepInto hstep with hsame | ⟨g, hpush⟩ | hpop
      · exact ⟨inner, by rw [hsame, hinner]⟩
      · exact ⟨inner ++ [g], by rw [hpush, Array.toList_push, hinner,
          List.append_assoc, List.cons_append]⟩
      · have hlist : m'.frames.toList = fs.toList ++ (f :: inner).dropLast := by
          rw [hpop, Array.toList_pop, hinner,
            List.dropLast_append_of_ne_nil (List.cons_ne_nil _ _)]
        cases inner with
        | nil =>
          have hsize : m'.frames.size = fs.size := by
            rw [← Array.length_toList, hlist]
            simp
          omega
        | cons g inner => exact ⟨_, hlist⟩

/-- A machine is about to execute a store instruction that writes a value to a
cell. -/
structure AtStore (p : Program) (m : Machine) (k : Nat) (v : Cell) : Prop where
  instr : 0 ≤ m.pc ∧ ∃ i, p.code[m.pc.toNat]? = some i ∧ i.op = .store
  operands : ∃ addr stack, m.stack = v :: addr :: stack ∧ addr.toInt = k

/-- The cell of a variable is in the top frame, when memory is not longer than
addresses can tell. -/
theorem base_le_of_slot {slot addr : Cell} (hf : m.frames.back? = some f)
    (hend : f.base + f.count ≤ m.memory.size) (hsmall : m.memory.size < 2 ^ 63)
    (hslot : m.slotAddr slot = some addr) (hindex : m.index? addr = some k) :
    f.base ≤ k := by
  have hbase : (Int64.ofNat f.base).toInt = f.base :=
    Int64.toInt_ofNat_of_lt (by omega)
  have hcount : (Int64.ofNat f.count).toInt = f.count :=
    Int64.toInt_ofNat_of_lt (by omega)
  have hone : (1 : Cell).toInt = 1 := rfl
  have hmin : -9223372036854775808 ≤ slot.toInt := slot.le_toInt
  have hmax : slot.toInt < 9223372036854775808 := slot.toInt_lt
  have hcell : addr.toInt = k := by
    rw [index?] at hindex
    obtain ⟨hinside, hindex⟩ := Option.ite_none_right_eq_some.mp hindex
    cases hindex
    omega
  -- A sum that wraps around is negative, and then it is no index of a cell.
  simp only [slotAddr, hf] at hslot
  split at hslot
  next harg =>
    have hneg : slot.toInt < 0 := by
      have hlt := Int64.lt_iff_toInt_lt.mp harg.1
      rwa [Int64.toInt_zero] at hlt
    cases hslot
    rw [Int64.toInt_sub, Int64.toInt_add, Int64.toInt_neg, hbase, hone,
      Int.add_bmod_bmod, Int.bmod_sub_bmod, Int.bmod_def] at hcell
    split at hcell
    next => omega
    next => omega
  next =>
    obtain ⟨hlocal, hslot⟩ := Option.ite_none_right_eq_some.mp hslot
    have hpos : 0 < slot.toInt := by
      have hlt := Int64.lt_iff_toInt_lt.mp hlocal
      rwa [Int64.toInt_zero] at hlt
    obtain ⟨-, hslot⟩ := Option.ite_none_right_eq_some.mp hslot
    cases hslot
    rw [Int64.toInt_sub, Int64.toInt_add, Int64.toInt_add, hbase, hcount, hone,
      Int.bmod_add_bmod, Int.bmod_sub_bmod, Int.bmod_def] at hcell
    split at hcell
    next => omega
    next => omega

theorem getElem?_appendList {α : Type} {xs : Array α} {ys : List α}
    (hk : k < xs.size) : (xs ++ ys)[k]? = xs[k]? := by
  rw [← Array.getElem?_toList, Array.toList_appendList,
    List.getElem?_append_left (by simpa using hk), Array.getElem?_toList]

theorem getElem?_shrink {α : Type} {xs : Array α} {n : Nat} (hk : k < n) :
    (xs.shrink n)[k]? = xs[k]? := by
  rw [Array.shrink_eq_take, Array.take_eq_extract, Array.getElem?_extract,
    Nat.zero_add]
  by_cases hsize : k < xs.size
  · rw [if_pos (by omega)]
  · rw [if_neg (by omega), Array.getElem?_eq_none (by omega)]

/-- A cell below the top frame keeps its value in a step, unless a store
instruction writes to it. -/
theorem Framed.cell_of_step (h : m.Framed depth bottom)
    (hsmall : m.memory.size < 2 ^ 63) (hf : m.frames.back? = some f)
    (hk : k < f.base) (hstep : stepInto p lim sink m = (m', none)) :
    m'.memory[k]? = m.memory[k]? ∨
      ∃ v, m'.memory[k]? = some v ∧ m.AtStore p k v := by
  have htop := h.top_le_size hf
  cases stepEffect_stepInto hstep with
  | halted => exact Or.inl rfl
  | instr hrunning hpc hi hsteps heffect =>
    cases heffect with
    | compute | print | stage => exact Or.inl rfl
    | @store addr v stack j hop hstack haddr =>
      by_cases hj : j = k
      · subst hj
        refine Or.inr ⟨v, ?_, ⟨⟨hpc, _, hi, hop⟩, addr, stack, hstack, haddr⟩⟩
        exact Array.getElem?_setIfInBounds_self_of_lt (by dsimp only; omega)
      · exact Or.inl (Array.getElem?_setIfInBounds_ne hj)
    | @storeLocal addr j v stack hslot hindex =>
      have hbase : f.base ≤ j := base_le_of_slot hf htop hsmall hslot hindex
      exact Or.inl (Array.getElem?_setIfInBounds_ne (by omega))
    | reserve n =>
      exact Or.inl (Array.getElem?_append_left (by dsimp only; omega))
    | call => exact Or.inl (getElem?_appendList (by dsimp only; omega))
    | leave hop hg hstack =>
      cases hf.symm.trans hg
      exact Or.inl (getElem?_shrink hk)
    | finish hop hg hstack =>
      cases hf.symm.trans hg
      exact Or.inl (getElem?_shrink hk)

/-- A call from the instruction that makes it up to its return: the step from
`last` is the first one after which no more frames are open than at `m`. -/
structure CallReturns (p : Program) (lim : Limits) (sink : Sink)
    (m entered last m' : Machine) : Prop where
  instr : ∃ i, p.code[m.pc.toNat]? = some i ∧ i.op = .call
  enter : stepInto p lim sink m = (entered, none)
  inside : ReachesInside p lim sink m.frames.size entered last
  leave : stepInto p lim sink last = (m', none)
  depth : m'.frames.size ≤ m.frames.size

/-- A store instruction has written a value to a cell on the way from one
machine to another. -/
def Stored (p : Program) (lim : Limits) (sink : Sink) (depth : Nat)
    (first last : Machine) (k : Nat) (v : Cell) : Prop :=
  ∃ m m', ReachesInside p lim sink depth first m ∧ m.AtStore p k v ∧
    stepInto p lim sink m = (m', none) ∧ ReachesInside p lim sink depth m' last

/-- What a call instruction does. -/
theorem CallReturns.entered_eq {last : Machine}
    (h : CallReturns p lim sink m entered last m') :
    entered.frames =
      m.frames.push
      { base := m.memory.size, count := m.staged.length,
        returnTo := m.pc + 1 } ∧
    entered.memory = m.memory ++ m.staged := by
  obtain ⟨i, hi, hop⟩ := h.instr
  have hrunning : m.halted = false := by
    cases hhalted : m.halted with
    | false => rfl
    | true =>
      obtain ⟨rfl, -⟩ :=
        Prod.mk.inj ((stepInto_of_halted hhalted).symm.trans h.enter)
      exact absurd h.inside.depth_lt (Nat.lt_irrefl _)
  obtain ⟨j, -, hj, -, hexec⟩ := exec_of_step h.enter hrunning
  cases hi.symm.trans hj
  rw [of_exec_call hexec hop]
  exact ⟨rfl, rfl⟩

/-- The top frame inside a call does not begin below the frame of the call. -/
theorem Framed.base_le_of_inside {g : Frame} {inner : List Frame}
    (h : m.Framed depth bottom)
    (hframes : m.frames.toList = fs.toList ++ f :: inner)
    (hg : m.frames.back? = some g) : f.base ≤ g.base := by
  have hf : m.frames[fs.size]? = some f := by
    rw [← Array.getElem?_toList, hframes, ← Array.length_toList,
      List.getElem?_append_right (Nat.le_refl _)]
    simp
  have hsize : fs.size < m.frames.size := (Array.getElem?_eq_some_iff.mp hf).1
  exact h.stacked.base_le hf hg (by omega)

/-- While a call is open, a cell below its frame keeps its value until a store
instruction writes to it. -/
theorem Framed.cell_inside (h : entered.Framed lim.maxDepth bottom)
    (hframes : entered.frames = fs.push f)
    (hinside : ReachesInside p lim sink fs.size entered m)
    (hsmall : ∀ m, ReachesInside p lim sink fs.size entered m →
      m.memory.size < 2 ^ 63)
    (hk : k < f.base) :
    m.memory[k]? = entered.memory[k]? ∨
      ∃ v, m.memory[k]? = some v ∧ Stored p lim sink fs.size entered m k v := by
  induction hinside using ReachesInside.induction with
  | refl => exact Or.inl rfl
  | @step m m' hinside hstep hdepth ih =>
    obtain ⟨hframed, inner, hinner⟩ := h.inside hframes hinside
    obtain ⟨g, hg⟩ : ∃ g, m.frames.back? = some g :=
      ⟨_, Array.getElem?_eq_getElem (Nat.sub_lt hframed.pos Nat.one_pos)⟩
    have hbase := hframed.base_le_of_inside hinner hg
    have hcell :=
      hframed.cell_of_step (hsmall m hinside) hg
        (Nat.lt_of_lt_of_le hk hbase) hstep
    rcases hcell with hsame | ⟨v, hv, hstore⟩
    · rcases ih with hkept | ⟨v, hv, m₁, m₂, hfirst, hstore, hnext, hrest⟩
      · exact Or.inl (hsame.trans hkept)
      · exact Or.inr ⟨v, hsame.trans hv, m₁, m₂, hfirst, hstore, hnext,
          hrest.step hstep hdepth⟩
    · exact Or.inr ⟨v, hv, m, m', hinside, hstore, hstep, .refl hdepth⟩

/-- What the return of a call restores. -/
theorem Framed.of_callReturns {last : Machine}
    (h : m.Framed lim.maxDepth bottom)
    (hreturns : CallReturns p lim sink m entered last m') :
    m'.frames = m.frames ∧ m'.pc = m.pc + 1 ∧ m'.memory.size = m.memory.size ∧
      (∃ i, p.code[last.pc.toNat]? = some i ∧ i.op = .ret) ∧
      ((∀ s, ReachesInside p lim sink m.frames.size entered s →
        s.memory.size < 2 ^ 63) →
        ∀ k < m.memory.size, m'.memory[k]? = m.memory[k]? ∨
          ∃ v, m'.memory[k]? = some v ∧
            Stored p lim sink m.frames.size entered last k v) := by
  obtain ⟨hframes, hmemory⟩ := hreturns.entered_eq
  have hentered : entered.Framed lim.maxDepth bottom := by
    rcases h.of_stepInto hreturns.enter with hframed | ⟨v, hlast⟩
    · exact hframed
    · obtain ⟨final, hfinal, -, hnone, -⟩ := hlast.exists_stepInto sink
      cases hfinal.symm.trans hreturns.enter
      rw [hframes, Array.size_push] at hnone
      cases hnone
  obtain ⟨hframed, inner, hinner⟩ := hentered.inside hframes hreturns.inside
  have hpos := h.pos
  have hdepth := hreturns.depth
  have hsize : last.frames.size = m.frames.size + 1 + inner.length := by
    rw [← Array.length_toList, hinner, List.length_append, Array.length_toList,
      List.length_cons]
    omega
  -- Only a return takes a frame away, and it takes one.
  cases stepEffect_stepInto hreturns.leave with
  | halted => omega
  | instr hrunning hpc hi hsteps heffect =>
    cases heffect with
    | compute | print | stage | store | storeLocal | reserve =>
      dsimp only at hdepth
      omega
    | call =>
      rw [Array.size_push] at hdepth
      dsimp only at hdepth
      omega
    | finish hop hg hstack hone =>
      dsimp only at hone
      omega
    | @leave g v stack hop hg hstack hmore =>
      dsimp only at hdepth hg
      rw [Array.size_pop] at hdepth
      obtain rfl : inner = [] := List.eq_nil_of_length_eq_zero (by omega)
      have hpush :
          last.frames =
          m.frames.push
          { base := m.memory.size, count := m.staged.length,
            returnTo := m.pc + 1 } := by
        rw [← Array.toList_inj, hinner, Array.toList_push]
      rw [hpush, Array.back?_push] at hg
      cases hg
      have htop := hframed.top_le_size (by rw [hpush, Array.back?_push])
      dsimp only at htop ⊢
      refine ⟨by rw [hpush, Array.pop_push], rfl, ?_, ⟨_, hi, hop⟩,
        fun hsmall k hk => ?_⟩
      · rw [Array.size_shrink]
        omega
      · rw [getElem?_shrink hk]
        have hbefore : entered.memory[k]? = m.memory[k]? := by
          rw [hmemory, getElem?_appendList hk]
        rcases hentered.cell_inside hframes hreturns.inside hsmall hk with
            hkept | hstored
        · exact Or.inl (hkept.trans hbefore)
        · exact Or.inr hstored

end

end Machine

/-- The discipline of frames, for any code. Until the outermost call returns, a
machine has at least one frame and not more than its limit, the first frame
begins at the end of the initial memory, and the frames lie one behind the other
in memory. When a call returns, the frames are those before it, control is at
the instruction after the call, memory is as long as it was, and a cell of it
has another value only if a store instruction wrote that value to it since the
call; for this, memory must not get longer than addresses can tell. -/
theorem Program.frames_are_disciplined (p : Program) {lim : Limits}
    (hlim : 0 < lim.maxDepth) (sink : Sink) :
    (∀ m, Machine.Visits p lim sink (Machine.start p) m →
      m.Framed lim.maxDepth (Machine.start p).memory.size ∨
        ∃ last v, Machine.Visits p lim sink (Machine.start p) last ∧
          last.AtLastReturn p lim.maxSteps v ∧
          Machine.stepInto p lim sink last = (m, none)) ∧
    ∀ m entered last m', Machine.Visits p lim sink (Machine.start p) m →
      Machine.CallReturns p lim sink m entered last m' →
      m'.frames = m.frames ∧ m'.pc = m.pc + 1 ∧ m'.memory.size = m.memory.size ∧
        (∃ i, p.code[last.pc.toNat]? = some i ∧ i.op = .ret) ∧
        ((∀ s, Machine.ReachesInside p lim sink m.frames.size entered s →
          s.memory.size < 2 ^ 63) →
          ∀ k < m.memory.size, m'.memory[k]? = m.memory[k]? ∨
            ∃ v, m'.memory[k]? = some v ∧
              Machine.Stored p lim sink m.frames.size entered last k v) := by
  refine ⟨fun m hm => Machine.framed_of_visits hlim hm,
    fun m entered last m' hm hreturns => ?_⟩
  rcases Machine.framed_of_visits hlim hm with
      hframed | ⟨before, v, hbefore, hreturn, hfinal⟩
  · exact hframed.of_callReturns hreturns
  · -- After the outermost return nothing is called any more.
    obtain ⟨final, hsame, hhalted, -⟩ := hreturn.exists_stepInto sink
    cases hsame.symm.trans hfinal
    obtain ⟨rfl, -⟩ :=
      Prod.mk.inj
        ((Machine.stepInto_of_halted hhalted).symm.trans hreturns.enter)
    exact absurd hreturns.inside.depth_lt (Nat.lt_irrefl _)

/-- Code that reserves cells twice in the function it calls, and stores to a
variable of the caller. -/
def storeThroughCall : Program where
  code := #[ { op := .entry, operand := 1 }, { op := .addrLocal, operand := 1 },
    { op := .frame, operand := 1 }, { op := .call, operand := 5 },
    { op := .ret }, { op := .entry, operand := 1 },
    { op := .entry, operand := 1 }, { op := .loadLocal, operand := -1 },
    { op := .push, operand := 7 }, { op := .store },
    { op := .push, operand := 5 }, { op := .ret }]
  data := #[0]
  entry := 0
  funcs := .ofList []

/-- The call begins after three steps and returns with the eleventh; in between
the ninth step stores 7 to cell 1, which is a variable of the caller. -/
theorem Program.frames_are_disciplined_storeThroughCall :
    let p := storeThroughCall
    let lim := Limits.ofInts 0 2 true
    let sink := lim.sink
    let after (n : Nat) : Machine :=
      (Machine.runFor p lim n (Machine.start p)).1
    0 < lim.maxDepth ∧ Machine.Visits p lim sink (Machine.start p) (after 3) ∧
      (after 3).Framed lim.maxDepth 1 ∧
      Machine.CallReturns p lim sink (after 3) (after 4) (after 10) (after 11) ∧
      (∀ s, Machine.ReachesInside p lim sink (after 3).frames.size (after 4) s →
        s.memory.size < 2 ^ 63) ∧ (after 11).frames = (after 3).frames ∧
        (after 11).pc = (after 3).pc + 1 ∧
        (after 11).memory.size = (after 3).memory.size ∧
        (after 11).memory[1]? ≠ (after 3).memory[1]? ∧
        Machine.Stored p lim sink (after 3).frames.size (after 4)
        (after 10) 1 7 := by
  intro p lim sink after
  have hlim : 0 < lim.maxDepth := Limits.maxDepth_ofInts_pos 0 2 true
  have hthree : Machine.Visits p lim sink (Machine.start p) (after 3) :=
    Or.inl ⟨_, Machine.proceeds_of_steps after 3 (by decide +kernel)⟩
  have hinside : Machine.ReachesInside p lim sink (after 3).frames.size
      (after 4) (after 10) :=
    ⟨_, Machine.proceeds_of_steps (fun k => after (4 + k)) 6
      (by decide +kernel), by decide +kernel⟩
  have hreturns :
      Machine.CallReturns p lim sink (after 3) (after 4) (after 10)
      (after 11) :=
    ⟨⟨{ op := .call, operand := 5 }, by decide +kernel⟩, by decide +kernel,
      hinside, by decide +kernel,
      by decide +kernel⟩
  have hsmall :
      ∀ s, Machine.ReachesInside p lim sink (after 3).frames.size (after 4) s →
      s.memory.size < 2 ^ 63 := by
    intro s hs
    have hmem : s ∈ (List.range 7).map fun n => after (n + 4) :=
      hs.mem_of_closed (by decide +kernel) (by decide +kernel)
    have hall : ∀ s ∈ (List.range 7).map fun n => after (n + 4),
        s.memory.size < 2 ^ 63 := by decide +kernel
    exact hall s hmem
  obtain ⟨hframed, hcalls⟩ := frames_are_disciplined p hlim sink
  obtain ⟨hframes, hpc, hsize, -, hcells⟩ := hcalls _ _ _ _ hthree hreturns
  have hchanged : (after 11).memory[1]? ≠ (after 3).memory[1]? := by
    decide +kernel
  rcases hcells hsmall 1 (by decide +kernel) with hsame | ⟨v, hv, hstored⟩
  · exact absurd hsame hchanged
  · have hseven : (after 11).memory[1]? = some 7 := by decide +kernel
    cases hseven.symm.trans hv
    refine ⟨hlim, hthree, ?_, hreturns, hsmall, hframes, hpc, hsize,
      hchanged, hstored⟩
    rcases hframed _ hthree with hordered | ⟨last, w, -, hreturn, hfinal⟩
    · exact hordered
    · obtain ⟨final, hsame, hhalted, -⟩ := hreturn.exists_stepInto sink
      obtain ⟨rfl, -⟩ := Prod.mk.inj (hsame.symm.trans hfinal)
      exact absurd hhalted (by decide +kernel)

end StackC
