import Mathlib
import StackC.Proofs.Runs

/-!
Programs with the same code at other addresses. If corresponding addresses of
two programs hold instructions that differ in addresses of the code only, and
control passes from corresponding addresses to corresponding ones, then the two
programs run alike: their machines differ in the program counter and in the
addresses to return to, and in nothing else.
-/

namespace StackC

/-- Control may pass from an operation to the instruction after it. -/
def Opcode.goesOn : Opcode → Bool
  | .jump | .ret => false
  | _ => true

/-- Instructions that differ in an address of the code only, where `R` says
which addresses correspond. -/
structure Instr.Corresponds (R : Nat → Nat → Prop) (i i' : Instr) : Prop where
  op : i'.op = i.op
  operand : i.op.isJump = false → i'.operand = i.operand
  target : i.op.isJump = true →
    ∃ a a' : Nat, R a a' ∧ i.operand.toInt = a ∧ i'.operand.toInt = a'

/-- The code of `p` stands in `p'` at the addresses that `R` gives. -/
structure Program.Relocates (R : Nat → Nat → Prop) (p p' : Program) : Prop where
  data : p'.data = p.data
  entry : ∃ a a' : Nat, R a a' ∧ p.entry.toInt = a ∧ p'.entry.toInt = a'
  fetch : ∀ {a a' : Nat}, R a a' → ∃ i i', p.code[a]? = some i ∧
    p'.code[a']? = some i' ∧ i.Corresponds R i' ∧
    (i.op.goesOn = true → R (a + 1) (a' + 1))

/-- Program counters at corresponding addresses, or both at the address that the
outermost call returns to. -/
def MatchingAddr (R : Nat → Nat → Prop) (pc pc' : Int) : Prop :=
  (pc = -1 ∧ pc' = -1) ∨ ∃ a a' : Nat, R a a' ∧ pc = a ∧ pc' = a'

/-- Calls that return to corresponding addresses. -/
structure Frame.Matches (R : Nat → Nat → Prop) (f f' : Frame) : Prop where
  base : f'.base = f.base
  count : f'.count = f.count
  returnTo : MatchingAddr R f.returnTo f'.returnTo

/-- Stops for the same reason. -/
def Stop.Alike : Stop → Stop → Prop
  | .fault e, .fault e' => e.fault = e'.fault
  | .crash, .crash => True
  | _, _ => False

/-- The same result, or a stop for the same reason. -/
def OutcomesAlike : Except Stop Cell → Except Stop Cell → Prop
  | .ok v, .ok v' => v = v'
  | .error s, .error s' => s.Alike s'
  | _, _ => False

namespace Machine

def moved (m : Machine) (pc : Int) (frames : Array Frame) : Machine :=
  { m with pc, frames }

/-- Machines that differ in their control only. -/
def Alike (m m' : Machine) : Prop :=
  m' = m.moved m'.pc m'.frames

theorem Alike.output {m m' : Machine} (h : m.Alike m') :
    m.output = m'.output := by
  rw [h]
  rfl

theorem Alike.steps {m m' : Machine} (h : m.Alike m') : m.steps = m'.steps := by
  rw [h]
  rfl

end Machine

/-- An output that tells alike machines the same. Its answer can depend on what
was written before and on the number of the step, and not on addresses of the
code. -/
def Sink.IgnoresControl (sink : Sink) : Prop :=
  ∀ m m' : Machine, m.Alike m' → sink m = sink m'

theorem Sink.ignoresControl_upTo (n : Nat) : (Sink.upTo n).IgnoresControl := by
  intro m m' h
  rw [upTo, upTo, h.output]

namespace Machine

/-- The calls in progress return to corresponding addresses. -/
def FramesMatch (R : Nat → Nat → Prop) (frames frames' : Array Frame) : Prop :=
  List.Forall₂ (Frame.Matches R) frames.toList frames'.toList

/-- Machines whose control is at corresponding addresses, as long as they
run. -/
structure Matches (R : Nat → Nat → Prop) (m m' : Machine) : Prop where
  alike : m.Alike m'
  frames : FramesMatch R m.frames m'.frames
  pc : m.halted = false → MatchingAddr R m.pc m'.pc

/-- Steps that end in the same way. -/
inductive StepsMatch (R : Nat → Nat → Prop) :
    Machine × Option Stop → Machine × Option Stop → Prop
  | go {m m' : Machine} (h : m.Matches R m') : StepsMatch R (m, none) (m', none)
  | stop {m m' : Machine} {s s' : Stop} (h : m.Alike m') (hs : s.Alike s') :
    StepsMatch R (m, some s) (m', some s')

section

variable {R : Nat → Nat → Prop} {m : Machine} {pc : Int} {frames : Array Frame}

theorem stepsMatch_fail (m : Machine) (pc : Int) (frames : Array Frame)
    (f : Fault) : StepsMatch R (m.fail f) ((m.moved pc frames).fail f) :=
  .stop rfl rfl

theorem stepsMatch_breakDown (m : Machine) (pc : Int) (frames : Array Frame) :
    StepsMatch R m.breakDown (m.moved pc frames).breakDown :=
  .stop rfl trivial

theorem stepsMatch_go (hframes : FramesMatch R m.frames frames)
    (hpc : MatchingAddr R m.pc pc) :
    StepsMatch R (go m) (go (m.moved pc frames)) :=
  .go ⟨rfl, hframes, fun _ => hpc⟩

theorem stepsMatch_withPop {k k' : Machine → Cell → Machine × Option Stop}
    (hk : ∀ v stack,
      StepsMatch R (k { m with stack } v)
      (k' ({ m with stack }.moved pc frames) v)) :
    StepsMatch R (m.withPop k) ((m.moved pc frames).withPop k') := by
  have hsame : (m.moved pc frames).stack = m.stack := rfl
  rw [withPop, withPop, hsame]
  cases m.stack with
  | nil => exact stepsMatch_fail m pc frames _
  | cons v stack => exact hk v stack

theorem stepsMatch_withPop2
    {k k' : Machine → Cell → Cell → Machine × Option Stop}
    (hk : ∀ a b stack,
      StepsMatch R (k { m with stack } a b)
      (k' ({ m with stack }.moved pc frames) a b)) :
    StepsMatch R (m.withPop2 k) ((m.moved pc frames).withPop2 k') :=
  stepsMatch_withPop fun b _ => stepsMatch_withPop fun a stack => hk a b stack

variable {frames' : Array Frame} {p p' : Program} {m' : Machine}

/-- The innermost calls correspond. -/
theorem FramesMatch.back? (h : FramesMatch R frames' frames) :
    (frames'.back? = none ∧ frames.back? = none) ∨
      ∃ f f', frames'.back? = some f ∧ frames.back? = some f' ∧
        f.Matches R f' := by
  have hreverse := List.rel_reverse h
  rw [← Array.getLast?_toList, ← Array.getLast?_toList, ← List.head?_reverse,
    ← List.head?_reverse]
  generalize frames'.toList.reverse = calls' at hreverse
  generalize frames.toList.reverse = calls at hreverse
  cases hreverse with
  | nil => exact Or.inl ⟨rfl, rfl⟩
  | cons hf _ => exact Or.inr ⟨_, _, rfl, rfl, hf⟩

theorem FramesMatch.size (h : FramesMatch R frames' frames) :
    frames.size = frames'.size := by
  simpa using (List.Forall₂.length_eq h).symm

theorem FramesMatch.push {f f' : Frame} (h : FramesMatch R frames' frames)
    (hf : f.Matches R f') :
    FramesMatch R (frames'.push f) (frames.push f') := by
  rw [FramesMatch, Array.toList_push, Array.toList_push]
  exact List.rel_append h (.cons hf .nil)

theorem FramesMatch.pop (h : FramesMatch R frames' frames) :
    FramesMatch R frames'.pop frames.pop := by
  rw [FramesMatch, Array.toList_pop, Array.toList_pop, List.dropLast_eq_take,
    List.dropLast_eq_take]
  rw [← List.Forall₂.length_eq h]
  exact List.forall₂_take _ h

/-- A slot has the same address, since it is counted from the base of the
frame. -/
theorem slotAddr_moved (pc : Int) (hframes : FramesMatch R m.frames frames)
    (slot : Cell) : (m.moved pc frames).slotAddr slot = m.slotAddr slot := by
  simp only [slotAddr, moved]
  rcases hframes.back? with ⟨hnone, hnone'⟩ | ⟨f, f', hf, hf', hmatch⟩
  · rw [hnone, hnone']
  · simp only [hf, hf', hmatch.base, hmatch.count]

/-- Returning goes to corresponding addresses; the machines halt together when
the last call is left. -/
theorem stepsMatch_leaveFrame (hframes : FramesMatch R m.frames frames)
    (v : Cell) :
    StepsMatch R (m.leaveFrame v) ((m.moved pc frames).leaveFrame v) := by
  have hempty : frames.pop.isEmpty = m.frames.pop.isEmpty := by
    simp only [Array.isEmpty, hframes.pop.size]
  simp only [leaveFrame, moved]
  rcases hframes.back? with ⟨hnone, hnone'⟩ | ⟨f, f', hf, hf', hmatch⟩
  · simp only [hnone, hnone']
    exact stepsMatch_breakDown m pc frames
  · simp only [hf, hf', hempty, hmatch.base]
    split
    · exact .go ⟨rfl, hframes.pop, fun hrunning => by cases hrunning⟩
    · exact .go ⟨rfl, hframes.pop, fun _ => hmatch.returnTo⟩

theorem stepsMatch_loadLocal (lim : Limits) (slot : Cell)
    (hframes : FramesMatch R m.frames frames) (hpc : MatchingAddr R m.pc pc) :
    StepsMatch R (exec lim { op := .loadLocal, operand := slot } m)
      (exec lim { op := .loadLocal, operand := slot } (m.moved pc frames)) := by
  simp only [exec, slotAddr_moved pc hframes]
  cases m.slotAddr slot with
  | none => exact stepsMatch_fail m pc frames _
  | some addr =>
    have hindex : (m.moved pc frames).index? addr = m.index? addr := rfl
    simp only [hindex]
    cases m.index? addr with
    | none => exact stepsMatch_breakDown m pc frames
    | some k => exact stepsMatch_go hframes hpc

theorem stepsMatch_storeLocal (lim : Limits) (slot : Cell)
    (hframes : FramesMatch R m.frames frames) (hpc : MatchingAddr R m.pc pc) :
    StepsMatch R (exec lim { op := .storeLocal, operand := slot } m)
      (exec lim { op := .storeLocal, operand := slot }
        (m.moved pc frames)) := by
  simp only [exec, slotAddr_moved pc hframes]
  cases m.slotAddr slot with
  | none => exact stepsMatch_fail m pc frames _
  | some addr =>
    apply stepsMatch_withPop
    intro v stack
    have hindex :
        ({ m with stack }.moved pc frames).index? addr = m.index? addr := rfl
    have hindex' : { m with stack }.index? addr = m.index? addr := rfl
    simp only [hindex, hindex']
    cases m.index? addr with
    | none => exact stepsMatch_breakDown _ pc frames
    | some k => exact stepsMatch_go hframes hpc

theorem stepsMatch_addrLocal (lim : Limits) (slot : Cell)
    (hframes : FramesMatch R m.frames frames) (hpc : MatchingAddr R m.pc pc) :
    StepsMatch R (exec lim { op := .addrLocal, operand := slot } m)
      (exec lim { op := .addrLocal, operand := slot }
        (m.moved pc frames)) := by
  simp only [exec, slotAddr_moved pc hframes]
  cases m.slotAddr slot with
  | none => exact stepsMatch_fail m pc frames _
  | some addr => exact stepsMatch_go hframes hpc

/-- An address is checked alike, since memory is the same. -/
theorem stepsMatch_checkAddr {addr : Cell}
    {k k' : Nat → Machine × Option Stop}
    (hk : ∀ n, StepsMatch R (k n) (k' n)) :
    StepsMatch R
      (match checkAddr m.memory addr with
        | .error f => m.fail f
        | .ok n => k n)
      (match checkAddr m.memory addr with
        | .error f => (m.moved pc frames).fail f
        | .ok n => k' n) := by
  cases checkAddr m.memory addr with
  | error f => exact stepsMatch_fail m pc frames f
  | ok n => exact hk n

theorem stepsMatch_jumpZero (lim : Limits) {a a' : Nat} {c c' : Cell}
    (ha : R a a') (htarget : c.toInt = a) (htarget' : c'.toInt = a')
    (hframes : FramesMatch R m.frames frames) (hpc : MatchingAddr R m.pc pc) :
    StepsMatch R (exec lim { op := .jumpZero, operand := c } m)
      (exec lim { op := .jumpZero, operand := c' } (m.moved pc frames)) := by
  simp only [exec]
  apply stepsMatch_withPop
  intro v stack
  by_cases hv : v = 0
  · simp only [if_pos hv]
    exact .go ⟨rfl, hframes, fun _ => Or.inr ⟨a, a', ha, htarget, htarget'⟩⟩
  · simp only [if_neg hv]
    exact stepsMatch_go hframes hpc

theorem stepsMatch_call (lim : Limits) {a a' : Nat} {c c' : Cell}
    (ha : R a a') (htarget : c.toInt = a) (htarget' : c'.toInt = a')
    (hframes : FramesMatch R m.frames frames) (hpc : MatchingAddr R m.pc pc) :
    StepsMatch R (exec lim { op := .call, operand := c } m)
      (exec lim { op := .call, operand := c' } (m.moved pc frames)) := by
  have hdepth : (m.moved pc frames).frames.size = m.frames.size := hframes.size
  simp only [exec, hdepth]
  split
  · exact stepsMatch_fail m pc frames _
  · exact .go ⟨rfl, hframes.push ⟨rfl, rfl, hpc⟩,
      fun _ => Or.inr ⟨a, a', ha, htarget, htarget'⟩⟩

theorem stepsMatch_write (lim : Limits) (s : Bytes)
    (hframes : FramesMatch R m.frames frames) (hpc : MatchingAddr R m.pc pc) :
    StepsMatch R (m.write lim s) ((m.moved pc frames).write lim s) := by
  simp only [write]
  split
  · exact stepsMatch_go hframes hpc
  · exact stepsMatch_fail m pc frames _

theorem stepsMatch_printf (lim : Limits) (n : Cell)
    (hframes : FramesMatch R m.frames frames) (hpc : MatchingAddr R m.pc pc) :
    StepsMatch R (exec lim { op := .printf, operand := n } m)
      (exec lim { op := .printf, operand := n } (m.moved pc frames)) := by
  have hstack : (m.moved pc frames).stack = m.stack := rfl
  simp only [exec, hstack, takeArgs]
  split
  · exact stepsMatch_fail m pc frames _
  · cases (m.stack.take n.toInt.toNat).reverse with
    | nil => exact stepsMatch_breakDown _ pc frames
    | cons format args =>
      have hmemory : (m.moved pc frames).memory = m.memory := rfl
      simp only [hmemory]
      cases formatAt m.memory format args with
      | error f => exact stepsMatch_fail _ pc frames f
      | ok s =>
        exact stepsMatch_write
          (m := { m with stack := m.stack.drop n.toInt.toNat }) lim s hframes
          hpc

/-- Corresponding instructions act alike. -/
theorem stepsMatch_exec (lim : Limits) (pc : Int) {i i' : Instr}
    (hi : i.Corresponds R i') (hframes : FramesMatch R m.frames frames)
    (hpc : i.op.goesOn = true → MatchingAddr R m.pc pc) :
    StepsMatch R (exec lim i m) (exec lim i' (m.moved pc frames)) := by
  obtain ⟨op, operand⟩ := i
  obtain ⟨op', operand'⟩ := i'
  obtain ⟨hop, hoperand, htarget⟩ := hi
  dsimp only at hop hoperand htarget hpc
  subst hop
  cases op' with
  | push =>
    cases hoperand rfl
    exact stepsMatch_go hframes (hpc rfl)
  | pop =>
    simp only [exec]
    apply stepsMatch_withPop
    intro v stack
    exact stepsMatch_go hframes (hpc rfl)
  | arith f =>
    simp only [exec]
    apply stepsMatch_withPop2
    intro a b stack
    cases f.apply a b with
    | none => exact stepsMatch_fail _ pc frames _
    | some v => exact stepsMatch_go hframes (hpc rfl)
  | signExtend | zeroExtend =>
    cases hoperand rfl
    simp only [exec]
    split
    · exact stepsMatch_fail m pc frames _
    · apply stepsMatch_withPop
      intro v stack
      exact stepsMatch_go hframes (hpc rfl)
  | loadLocal =>
    cases hoperand rfl
    exact stepsMatch_loadLocal lim operand hframes (hpc rfl)
  | storeLocal =>
    cases hoperand rfl
    exact stepsMatch_storeLocal lim operand hframes (hpc rfl)
  | addrLocal =>
    cases hoperand rfl
    exact stepsMatch_addrLocal lim operand hframes (hpc rfl)
  | load =>
    simp only [exec]
    apply stepsMatch_withPop
    intro addr stack
    exact stepsMatch_checkAddr fun _ => stepsMatch_go hframes (hpc rfl)
  | store =>
    simp only [exec]
    apply stepsMatch_withPop2
    intro addr v stack
    exact stepsMatch_checkAddr fun _ => stepsMatch_go hframes (hpc rfl)
  | jump =>
    obtain ⟨a, a', ha, htarget, htarget'⟩ := htarget rfl
    exact .go ⟨rfl, hframes, fun _ => Or.inr ⟨a, a', ha, htarget, htarget'⟩⟩
  | jumpZero =>
    obtain ⟨a, a', ha, htarget, htarget'⟩ := htarget rfl
    exact stepsMatch_jumpZero lim ha htarget htarget' hframes (hpc rfl)
  | frame =>
    cases hoperand rfl
    have hstack : (m.moved pc frames).stack = m.stack := rfl
    simp only [exec, hstack]
    split
    · exact stepsMatch_fail m pc frames _
    · exact stepsMatch_go hframes (hpc rfl)
  | call =>
    obtain ⟨a, a', ha, htarget, htarget'⟩ := htarget rfl
    exact stepsMatch_call lim ha htarget htarget' hframes (hpc rfl)
  | entry =>
    cases hoperand rfl
    have hmemory : (m.moved pc frames).memory = m.memory := rfl
    simp only [exec, hmemory]
    split
    · exact stepsMatch_fail m pc frames _
    · split
      · exact stepsMatch_breakDown m pc frames
      · exact stepsMatch_go hframes (hpc rfl)
  | ret =>
    simp only [exec]
    apply stepsMatch_withPop
    intro v stack
    exact stepsMatch_leaveFrame (m := { m with stack }) hframes v
  | printf =>
    cases hoperand rfl
    exact stepsMatch_printf lim operand hframes (hpc rfl)
  | illegal n hn => exact stepsMatch_fail m pc frames _

/-- Machines at corresponding addresses take corresponding steps. -/
theorem stepsMatch_step (hp : p.Relocates R p') (lim : Limits)
    (h : m.Matches R m') : StepsMatch R (step p lim m) (step p' lim m') := by
  obtain ⟨halike, hframes, hpc⟩ := h
  rw [show m' = m.moved m'.pc m'.frames from halike]
  generalize m'.pc = pc at hpc ⊢
  generalize m'.frames = frames at hframes ⊢
  have hhalted : (m.moved pc frames).halted = m.halted := rfl
  rw [step, step, hhalted]
  by_cases hrunning : m.halted = true
  · rw [if_pos hrunning, if_pos hrunning]
    exact .go ⟨rfl, hframes, hpc⟩
  · rw [if_neg hrunning, if_neg hrunning]
    rcases hpc (Bool.eq_false_iff.mpr hrunning) with
        ⟨hend, hend'⟩ | ⟨a, a', ha, haddr, haddr'⟩
    · have hbelow : m.pc < 0 := by omega
      have hbelow' : (m.moved pc frames).pc < 0 := by
        show pc < 0
        omega
      rw [if_pos hbelow, if_pos hbelow']
      exact stepsMatch_fail m pc frames _
    · obtain ⟨i, i', hi, hi', hsame, hnext⟩ := hp.fetch ha
      have hinside : ¬ m.pc < 0 := by omega
      have hinside' : ¬ (m.moved pc frames).pc < 0 := by
        show ¬ pc < 0
        omega
      have hfetch : p.code[m.pc.toNat]? = some i := by
        rwa [haddr, Int.toNat_natCast]
      have hfetch' : p'.code[(m.moved pc frames).pc.toNat]? = some i' := by
        show p'.code[pc.toNat]? = some i'
        rwa [haddr', Int.toNat_natCast]
      rw [if_neg hinside, if_neg hinside']
      simp only [hfetch, hfetch']
      have hsteps : (m.moved pc frames).steps = m.steps := rfl
      rw [hsteps]
      split
      · exact stepsMatch_fail { m with steps := m.steps + 1 } pc frames _
      · refine stepsMatch_exec
          (m := { m with steps := m.steps + 1, pc := m.pc + 1 }) lim (pc + 1)
          hsame hframes fun hgoes => Or.inr ⟨a + 1, a' + 1, hnext hgoes, ?_, ?_⟩
        · simp only [haddr, Nat.cast_add, Nat.cast_one]
        · simp only [haddr', Nat.cast_add, Nat.cast_one]

theorem stepsMatch_stepInto (hp : p.Relocates R p') (lim : Limits) {sink : Sink}
    (hsink : sink.IgnoresControl) (h : m.Matches R m') :
    StepsMatch R (stepInto p lim sink m) (stepInto p' lim sink m') := by
  rw [stepInto, stepInto, hsink m m' h.alike]
  exact stepsMatch_step hp _ h

/-- Runs from corresponding addresses end alike. -/
theorem runForInto_matches (hp : p.Relocates R p') (lim : Limits) {sink : Sink}
    (hsink : sink.IgnoresControl) (fuel : Nat) (h : m.Matches R m') :
    StepsMatch R (runForInto p lim sink fuel m)
      (runForInto p' lim sink fuel m') := by
  induction fuel generalizing m m' with
  | zero => exact .go h
  | succ fuel ih =>
    have hhalted : m'.halted = m.halted := by rw [h.alike]; rfl
    have hstep := stepsMatch_stepInto hp lim hsink h
    rw [runForInto, runForInto, hhalted]
    cases m.halted with
    | true => exact .go h
    | false =>
      rw [if_neg Bool.false_ne_true, if_neg Bool.false_ne_true]
      generalize stepInto p lim sink m = next at hstep
      generalize stepInto p' lim sink m' = next' at hstep
      cases hstep with
      | go hnext => exact ih hnext
      | stop halike hs => exact .stop halike hs

theorem matches_start (hp : p.Relocates R p') :
    (start p).Matches R (start p') := by
  obtain ⟨a, a', ha, hentry, hentry'⟩ := hp.entry
  have hdata := hp.data
  constructor
  · simp only [Alike, start, moved, hdata]
  · simp only [start, hdata]
    exact .cons ⟨rfl, rfl, Or.inl ⟨rfl, rfl⟩⟩ .nil
  · intro _
    exact Or.inr ⟨a, a', ha, hentry, hentry'⟩

end

end Machine

/-- A program that has the same code at other addresses runs alike. -/
theorem Program.Relocates.runInto {R : Nat → Nat → Prop} {p p' : Program}
    (h : p.Relocates R p') (lim : Limits) {sink : Sink}
    (hsink : sink.IgnoresControl) :
    (p.runInto lim sink).1.Alike (p'.runInto lim sink).1 ∧
      OutcomesAlike (p.runInto lim sink).2 (p'.runInto lim sink).2 := by
  have hruns :=
    Machine.runForInto_matches h lim hsink (lim.maxSteps + 1)
      (Machine.matches_start h)
  rw [Program.runInto, Program.runInto, Machine.runInto, Machine.runInto]
  generalize Machine.runForInto p lim sink (lim.maxSteps + 1)
    (Machine.start p) = last at hruns
  generalize Machine.runForInto p' lim sink (lim.maxSteps + 1)
    (Machine.start p') = last' at hruns
  cases hruns with
  | @go m m' hmatch =>
    refine ⟨hmatch.alike, ?_⟩
    show m.result = m'.result
    rw [hmatch.alike]
    rfl
  | stop halike hs => exact ⟨halike, hs⟩

end StackC
