import StackC.Proofs.Execution

/-!
Compiled programs do what their functions mean. A call instruction, with all
that happens up to the matching return, meets the evaluation of a call; so a run
of a program meets its evaluation, and ends as that does unless the limits that
are set for it are too narrow.
-/

namespace StackC

/-! ### Functions -/

theorem reserve_eq (cells : Nat) (s : Store) :
    reserve cells s = if memoryLimit < s.memory.size + cells then
      .error .outOfMemory s
      else .ok ()
      { s with memory := s.memory ++ Array.replicate cells (0 : Cell) } := by
  show (if memoryLimit < s.memory.size + cells then throw .outOfMemory
    else set { s with memory := s.memory ++ Array.replicate cells (0 : Cell) } :
    Eval Unit) s = _
  split <;> rfl

theorem pushArgs_nil (s : Store) : pushArgs [] s = .ok s.memory.size s := by
  have hmemory : s.memory ++ ([] : List Cell) = s.memory := by simp
  show EStateM.Result.ok s.memory.size
    { s with memory := s.memory ++ ([] : List Cell) } = _
  rw [hmemory]

theorem bindParams_eq {fr : Frame} {ps : List Param} {i : Nat} (env : Env)
    (h : i + ps.length < 2 ^ 63) :
    bindParams (fr.base + i) ps env = (paramVars (i + 1) ps).reverse.map
      (LocalVar.binding fr) ++ env := by
  induction ps generalizing i env with
  | nil => rfl
  | cons p ps ih =>
    rw [List.length_cons] at h
    have hslot : (Int64.ofNat (i + 1)).toInt.toNat = i + 1 := by
      rw [Int64.toInt_ofNat_of_lt (by omega), Int.toNat_natCast]
    have hfirst :
        LocalVar.binding fr
        { ty := p.ty, name := p.name, isParam := true,
          slot := Int64.ofNat (i + 1) } =
            { name := p.name, ty := p.ty, addr := fr.base + i } := by
      simp only [LocalVar.binding, LocalVar.addr, hslot, if_true,
        Binding.mk.injEq, true_and]
      omega
    rw [bindParams, Nat.add_assoc, ih _ (by omega), paramVars,
      List.reverse_cons, List.map_append, List.map_singleton, hfirst,
      List.append_assoc]
    rfl

namespace Machine

variable {p : Program} {m : Machine} {addr : Nat}

/-- A machine stands before the code of a function that has been called. -/
structure Enters (m : Machine) (fr : Frame) (addr : Nat) : Prop where
  pc : m.pc = addr
  halted : m.halted = false
  frame : m.frames.back? = some fr
  staged : m.staged = []
  base : 1 ≤ fr.base
  size : m.memory.size = fr.base + fr.count

/-- A machine is about to return `v` from the function that another one stands
before. -/
structure Returns (p : Program) (m : Machine) (v : Cell) (m' : Machine) :
    Prop where
  pc : ∃ addr : Nat, p.code[addr]? = some { op := .ret } ∧ m'.pc = addr
  stack : m'.stack = v :: m.stack
  frames : m'.frames = m.frames
  staged : m'.staged = m.staged
  halted : m'.halted = m.halted
  size : m.memory.size ≤ m'.memory.size

/-- The first instruction of a function either reserves its cells or finds that
there is not enough memory. -/
theorem advance_entry {cells : Nat} (hrunning : m.halted = false)
    (hpc : m.pc = addr)
    (hi : p.code[addr]? = some { op := .entry, operand := Int64.ofNat cells })
    (hcells : cells < 2 ^ 63) :
    advance p m =
      if memoryLimit < m.memory.size + cells then
        ({ m with steps := m.steps + 1, pc := addr + 1 }, some .crash)
      else ({ m with
        steps := m.steps + 1
        pc := addr + 1
        memory := m.memory ++ Array.replicate cells (0 : Cell) }, none) := by
  have hcount := Int64.toInt_ofNat_of_lt hcells
  rw [advance_eq hrunning hpc hi]
  generalize Int64.ofNat cells = operand at hcount
  have hpos : ¬ operand < 0 := by
    rw [Int64.lt_iff_toInt_lt, hcount, Int64.toInt_zero]
    omega
  simp only [exec, if_neg hpos, hcount, Int.toNat_natCast, breakDown, go]

/-- A return drops the cells of the function; the outermost one ends the run. -/
theorem advance_ret {fr : Frame} {frames : Array Frame} {v : Cell}
    {stack : List Cell}
    (hrunning : m.halted = false) (hpc : m.pc = addr)
    (hi : p.code[addr]? = some { op := .ret })
    (hstack : m.stack = v :: stack) (hframes : m.frames = frames.push fr) :
    advance p m =
      if frames.isEmpty then
        ({ m with
          steps := m.steps + 1, pc := addr + 1, stack, frames, memory :=
            m.memory.shrink fr.base
          halted := true, result := v }, none)
      else
        ({ m with
          steps := m.steps + 1, pc := fr.returnTo, stack := v :: stack, frames
          memory := m.memory.shrink fr.base }, none) := by
  rw [advance_eq hrunning hpc hi]
  simp only [exec, withPop, hstack, leaveFrame, hframes, Array.back?_push,
    Array.pop_push, go]

theorem advance_call {target : Nat} (hrunning : m.halted = false)
    (hpc : m.pc = addr)
    (hi : p.code[addr]? = some { op := .call, operand := Int64.ofNat target })
    (htarget : target < 2 ^ 63) :
    advance p m =
      ({ m with
        steps := m.steps + 1
        frames :=
          m.frames.push
            { base := m.memory.size, count := m.staged.length,
              returnTo := addr + 1 }
        memory := m.memory ++ m.staged
        staged := []
        pc := target }, none) := by
  rw [advance_eq hrunning hpc hi]
  have hdepth : ¬ m.frames.size + 1 ≤ m.frames.size := Nat.not_succ_le_self _
  simp only [exec, if_neg hdepth, go, Int64.toInt_ofNat_of_lt htarget]

end Machine

variable {c : Setting} {stop : Nat}

theorem Setting.Lands.returns {s : Scope} {ends : Bool} {m m' : Machine}
    {v : Cell} (h : c.Lands s stop ends m (.returned v) m') :
    m.Returns c.program v m' := by
  obtain ⟨addr, hret, hafter⟩ := h
  exact ⟨⟨addr, hret, hafter.pc⟩, hafter.stack, hafter.frames, hafter.staged,
    hafter.halted, Nat.le_of_eq hafter.size.symm⟩

/-- The code of a function carries out the execution of its body. -/
theorem LaidFunction.meets_body {w : World} {f : Function} {start : Nat}
    {m : Machine}
    (h : LaidFunction c.link f start stop) (hw : c.Fits w)
    (hsize : c.program.code.size < 2 ^ 63)
    (hdef : f.isDefined = true) (hcells : c.cells = f.cells)
    (hcount : c.frame.count = f.params.length)
    (hpc : m.pc = ↑(start + 1)) (hm : m.Inside c.frame c.cells) :
    m.Meets c.program (m.steps + c.depth) (m.Returns c.program)
      ((do
        let flow ←
          execAll w f.ret c.depth (bindParams c.frame.base f.params [])
            (c.frame.base + f.params.length) f.body
        return flow.result) m.store) := by
  have hle := h.shape.le
  cases h with
  | @intro params last mid _ ends hparams hentry hreserve hbody hreturn hstop =>
    have hmid : mid ≤ stop := by rw [hstop]; split <;> omega
    have hparamScope := paramScope_eq hparams
    have hloops : params.loops = [] := by rw [hparamScope]
    have hlength : 0 + f.params.length < 2 ^ 63 := by
      have hroom := hm.size_lt
      have := hm.size
      omega
    have henv : params.env c.frame = bindParams c.frame.base f.params [] := by
      have hvisible : params.visible = (paramVars 1 f.params).reverse := by
        rw [hparamScope]
        simp [Scope.visible]
      rw [Scope.env, hvisible, ← List.append_nil (List.map _ _)]
      exact (bindParams_eq [] hlength).symm
    have hs : params.Numbered c.frame.count 0 :=
      hcount ▸ numbered_paramScope hparams
    have hexec :=
      hbody.carriesOut hw hsize hdef (Nat.le_trans hmid hle) (by simp [hloops])
        (by simp) 0 m hs (by rw [Nat.zero_add, hcells]; exact Nat.le_refl _)
        hpc hm
    rw [henv, Nat.add_zero, hcount] at hexec
    refine Machine.Meets.bind hexec fun flow m' _ hsteps hlands => ?_
    cases flow with
    | next =>
      obtain ⟨hends, hafter⟩ := hlands
      have hzero :
          m'.Meets c.program _
            (fun v => c.Lands params stop false m' (.returned v)) _ :=
        Setting.meets_returnZero (hreturn hends) hafter.pc (hafter.inside hm)
      exact hzero.mono (by omega) fun v last _ h => (h.of_after hafter).returns
    | broken =>
      obtain ⟨target, htarget, -⟩ := hlands
      simp [Scope.breakTarget, hloops] at htarget
    | continued =>
      obtain ⟨target, htarget, -⟩ := hlands
      simp [Scope.continueTarget, hloops] at htarget
    | returned v => exact .value hlands.returns

theorem LaidFunction.meets_run {w : World} {f : Function} {start : Nat}
    {m : Machine} (h : LaidFunction c.link f start stop) (hw : c.Fits w)
    (hsize : c.program.code.size < 2 ^ 63) (hdef : f.isDefined = true)
    (hsmall : f.cells < 2 ^ 63) (hcells : c.cells = f.cells)
    (hcount : c.frame.count = f.params.length) (hm : m.Enters c.frame start) :
    m.Meets c.program (m.steps + c.depth) (m.Returns c.program)
      (f.run w c.depth c.frame.base m.store) := by
  have hstep := Machine.advance_entry hm.halted hm.pc h.shape.reserve hsmall
  have hreserve := reserve_eq f.cells m.store
  have hstore : m.store.memory = m.memory := rfl
  rw [hstore] at hreserve
  by_cases hroom : memoryLimit < m.memory.size + f.cells
  · rw [if_pos hroom] at hstep hreserve
    rw [Function.run, Eval.bind_of_error hreserve]
    exact ⟨m, _, .refl m, hm.halted, hstep, rfl⟩
  · rw [if_neg hroom] at hstep hreserve
    rw [Function.run, Eval.bind_of_ok hreserve]
    refine .of_step hm.halted hstep ?_
    have hsize' : (m.memory ++ Array.replicate f.cells (0 : Cell)).size =
        m.memory.size + f.cells := by simp
    have hinside : Machine.Inside { m with
        steps := m.steps + 1
        pc := start + 1
        memory := m.memory ++ Array.replicate f.cells (0 : Cell) }
          c.frame c.cells := by
      refine ⟨hm.halted, hm.frame, hm.staged, hm.base, ?_, ?_⟩
      · rw [hsize', hm.size, hcells]
      · rw [hsize']
        omega
    refine (h.meets_body hw hsize hdef hcells hcount rfl hinside).mono
      (by dsimp only; omega) ?_
    intro v m' _ hreturns
    refine ⟨hreturns.pc, hreturns.stack, hreturns.frames, hreturns.staged,
      hreturns.halted, ?_⟩
    exact Nat.le_trans (by rw [hsize']; omega) hreturns.size

/-! ### Calls -/

section

variable {p : Program} {fs : List Function}

/-- What the bodies of functions refer to when calls have the given depth. -/
def callWorld (fs : List Function) (depth : Nat) : World where
  functions := fs
  strings s := ((stringPool fs).address? s).getD 0
  call := invoke fs depth

/-- A program is put together from functions whose operators have a meaning, and
its addresses and the numbers of its local cells do not wrap around. -/
structure Program.Regular (p : Program) (fs : List Function) : Prop where
  places : p.Places fs
  size : p.code.size < 2 ^ 63
  defined : ∀ f ∈ fs, f.isDefined = true
  cells : ∀ f ∈ fs, f.cells < 2 ^ 63

/-- Every function of a program has code that carries out its body, if call
instructions meet calls. -/
theorem Program.Regular.meets_run (hp : p.Regular fs) {depth : Nat}
    (hcalls : p.Calls fs depth (invoke fs depth)) {f : Function} (hf : f ∈ fs) :
    ∃ start : Nat, (p.link fs).entry f.name = Int64.ofNat start ∧
      start < 2 ^ 63 ∧
      ∀ (m : Machine) (fr : Frame), m.Enters fr start →
        fr.count = f.params.length →
        m.Meets p (m.steps + depth) (m.Returns p)
          (f.run (callWorld fs depth) depth fr.base m.store) := by
  obtain ⟨start, stop, hlaid⟩ := hp.places.laid.exists_start hf
  refine ⟨start, hlaid.entry, Nat.lt_trans hlaid.start_lt hp.size,
    fun m fr hm hcount => ?_⟩
  exact LaidFunction.meets_run
    (c := { program := p, functions := fs, depth, frame := fr,
            cells := f.cells }) hlaid ⟨rfl, rfl, hcalls⟩ hp.size
              (hp.defined f hf) (hp.cells f hf) rfl hcount hm

/-- Call instructions meet the evaluation of calls, up to any depth. -/
theorem Program.Regular.calls (hp : p.Regular fs) (depth : Nat) :
    p.Calls fs depth (invoke fs depth) := by
  induction depth with
  | zero => exact fun f _ m _ _ _ _ _ _ _ => ⟨m, .refl m, Nat.le_refl _⟩
  | succ depth ih =>
    intro f hf m addr hcall hpc hrunning hframes hstaged hmemory
    obtain ⟨start, hentry, hstart, hrun⟩ := hp.meets_run ih hf
    rw [hentry] at hcall
    have hinvoke :
        invoke fs (depth + 1) f m.staged m.store =
        (f.run (callWorld fs depth) depth m.memory.size >>= fun v =>
        release m.memory.size >>= fun _ => pure v)
        { m.store with memory := m.memory ++ m.staged } := Eval.bind_of_ok rfl
    rw [hinvoke]
    refine .of_step hrunning (Machine.advance_call hrunning hpc hcall hstart) ?_
    have hbody := hrun { m with
        steps := m.steps + 1
        frames :=
          m.frames.push
            { base := m.memory.size, count := m.staged.length,
              returnTo := addr + 1 }
        memory := m.memory ++ m.staged
        staged := []
        pc := start }
          { base := m.memory.size, count := m.staged.length,
            returnTo := addr + 1 }
      ⟨rfl, hrunning, Array.back?_push, rfl, hmemory,
        Machine.size_appendList _ _⟩ hstaged
    refine (hbody.mono (by dsimp only; omega) fun _ _ _ h => h).bind
      fun v last _ _ hreturns => ?_
    obtain ⟨ret, hret, hlast⟩ := hreturns.pc
    have hstep :=
      Machine.advance_ret (hreturns.halted.trans hrunning) hlast hret
        hreturns.stack hreturns.frames
    have hnonempty : m.frames.isEmpty = false := by
      rw [Array.isEmpty_eq_false_iff]
      rintro hempty
      simp [hempty] at hframes
    rw [if_neg (by simp [hnonempty])] at hstep
    refine ⟨_, .head (hreturns.halted.trans hrunning) hstep (.refl _), rfl, rfl,
      rfl, rfl, hreturns.staged, hreturns.halted, ?_⟩
    have hlength := hreturns.size
    simp only [Array.size_shrink, Machine.size_appendList] at hlength ⊢
    omega

/-- A run of a program is the call of its function `main`. -/
theorem Program.Regular.meets_evaluate (hp : p.Regular fs) (depth : Nat) :
    (Machine.start p).Meets p (depth - 1) (fun v m => m.halted = true ∧
      m.result = v) (evaluate fs depth) := by
  obtain ⟨f, hf, hname, hparams⟩ := hp.places.main
  have hfind : fs.find? (·.name == f.name) = some f :=
    find?_of_mem Function.name hp.places.names hf
  rw [hname] at hfind
  rw [evaluate, hfind]
  cases depth with
  | zero => exact ⟨_, .refl _, Nat.zero_le _⟩
  | succ depth =>
    obtain ⟨start, hentry, hstart, hrun⟩ := hp.meets_run (hp.calls depth) hf
    have hdata := Machine.memory_start hp.places.data_pos
    have hpc : (Machine.start p).pc = start := by
      have hsame : (p.link fs).entry f.name = p.entry := by
        simp [Program.link, hname, hp.places.entry]
      have hfirst : (Machine.start p).pc = p.entry.toInt := rfl
      rw [hfirst, ← hsame, hentry, Int64.toInt_ofNat_of_lt hstart]
    have hstore :
        { memory := (stringPool fs).data } = (Machine.start p).store := by
      rw [← hp.places.data, ← hdata]
      rfl
    have hinvoke :
        invoke fs (depth + 1) f [] (Machine.start p).store =
        (f.run (callWorld fs depth) depth (Machine.start p).memory.size >>=
          fun v => release (Machine.start p).memory.size >>= fun _ => pure v)
          (Machine.start p).store :=
      Eval.bind_of_ok (pushArgs_nil _)
    dsimp only
    rw [hstore, hinvoke]
    let fr : Frame :=
      { base := (Machine.start p).memory.size, count := 0, returnTo := -1 }
    have hframes : (Machine.start p).frames = #[].push fr := rfl
    have hbase : 1 ≤ (Machine.start p).memory.size := by
      rw [hdata]
      exact hp.places.data_pos
    have hbody :=
      hrun (Machine.start p) fr ⟨hpc, rfl, rfl, rfl, hbase, rfl⟩
        (by rw [hparams]; rfl)
    have hsteps : (Machine.start p).steps = 0 := rfl
    refine (hbody.mono (by omega) fun _ _ _ h => h).bind
      fun v last _ _ hreturns => ?_
    obtain ⟨ret, hret, hlast⟩ := hreturns.pc
    have hstep :=
      Machine.advance_ret hreturns.halted hlast hret hreturns.stack
        (hreturns.frames.trans hframes)
    exact ⟨_, .head hreturns.halted hstep (.refl _), rfl, rfl, rfl⟩

/-! ### Limits -/

/-- A fault that the limits of a run cause, or an output that cannot be written
to. -/
def Fault.isLimit : Fault → Bool
  | .stepLimit _ | .callDepth _ | .outputClosed => true
  | _ => false

def Stop.isLimit : Stop → Bool
  | .fault e => e.fault.isLimit
  | .crash => false

def Machine.AtLimit (lim : Limits) (m : Machine) : Prop :=
  lim.maxSteps ≤ m.steps ∨ lim.maxDepth ≤ m.frames.size ∨ lim.canWrite = false

namespace Machine

variable {lim : Limits} {m m' : Machine}

/-- An instruction that is not stopped at a limit does what it does under wider
limits. -/
theorem exec_cases (lim' : Limits) (hdepth : m.frames.size < lim'.maxDepth)
    (hwrite : lim'.canWrite = true) (i : Instr) :
    exec lim i m = exec lim' i m ∨
      (∃ m' s, exec lim i m = (m', some s) ∧ s.isLimit = true) ∧
        (lim.maxDepth ≤ m.frames.size ∨ lim.canWrite = false) := by
  obtain ⟨op, operand⟩ := i
  cases op with
  | call =>
    by_cases hlimit : lim.maxDepth ≤ m.frames.size
    · simp only [exec, if_pos hlimit]
      exact Or.inr ⟨⟨_, _, rfl, rfl⟩, Or.inl hlimit⟩
    · refine Or.inl ?_
      simp only [exec, if_neg hlimit, if_neg (Nat.not_le.mpr hdepth)]
  | printf =>
    cases hclosed : lim.canWrite with
    | true =>
      refine Or.inl ?_
      simp only [exec, write, hclosed, hwrite]
    | false =>
      simp only [exec]
      split
      next => exact Or.inl rfl
      next =>
        split
        next => exact Or.inl rfl
        next =>
          split
          next => exact Or.inl rfl
          next =>
            refine Or.inr ⟨?_, Or.inr trivial⟩
            rw [write, if_neg (by simp [hclosed])]
            exact ⟨_, _, rfl, rfl⟩
  | _ => exact Or.inl rfl

/-- The same for a step. -/
theorem step_cases (p : Program) (lim : Limits) (m : Machine) :
    step p lim m = advance p m ∨
      (∃ m' s, step p lim m = (m', some s) ∧ s.isLimit = true) ∧
        m.AtLimit lim := by
  simp only [advance, step]
  split
  next => exact Or.inl rfl
  next =>
    split
    next => exact Or.inl rfl
    next =>
      split
      next => exact Or.inl rfl
      next i _ =>
        rw [if_neg (Nat.lt_irrefl _)]
        split
        next hsteps =>
          exact Or.inr ⟨⟨_, _, rfl, rfl⟩, Or.inl (Nat.le_of_lt_succ hsteps)⟩
        next =>
          have hdepth : m.frames.size < m.frames.size + 1 := Nat.lt_succ_self _
          rcases exec_cases
            (m := { m with steps := m.steps + 1, pc := m.pc + 1 })
            { maxSteps := m.steps + 1, maxDepth := m.frames.size + 1 } hdepth
            rfl i with hsame | hlimit
          · exact Or.inl hsame
          · exact Or.inr ⟨hlimit.1, Or.inr hlimit.2⟩

/-- Frames are added one by one. -/
theorem size_frames_of_exec {i : Instr} (h : exec lim i m = (m', none)) :
    m'.frames.size ≤ m.frames.size + 1 := by
  cases hinner : i.op.isInner with
  | true =>
    rw [(works_of_exec h hinner).frames]
    exact Nat.le_succ _
  | false =>
    obtain ⟨op, operand⟩ := i
    cases op with
    | frame =>
      rw [of_exec_frame h rfl]
      exact Nat.le_succ _
    | call =>
      exact Nat.le_of_eq (by rw [of_exec_call h rfl, Array.size_push])
    | entry =>
      rw [(of_exec_entry h rfl).1]
      exact Nat.le_succ _
    | ret =>
      simp only [exec] at h
      obtain ⟨v, stack, -, h⟩ := of_withPop h
      have hpop : m.frames.pop.size ≤ m.frames.size + 1 := by
        rw [Array.size_pop]
        omega
      simp only [leaveFrame] at h
      split at h
      next => cases h
      next =>
        split at h
        next =>
          cases h
          exact hpop
        next =>
          cases h
          exact hpop
    | illegal => cases h
    | _ => cases hinner

theorem Steps.frames_le (h : Steps p m m') :
    m'.frames.size + m.steps ≤ m.frames.size + m'.steps := by
  induction h with
  | refl => exact Nat.le_refl _
  | head hrunning hstep _ ih =>
    obtain ⟨i, -, -, -, hexec⟩ := exec_of_step hstep hrunning
    obtain ⟨hcount, -⟩ := steps_of_step hstep hrunning
    have hframes := size_frames_of_exec hexec
    dsimp only at hframes
    omega

/-! ### Runs -/

/-- A machine has halted with the result of an evaluation, or its next step
stops for the reason for which the evaluation halts. -/
def Ends (p : Program) (m : Machine) : EStateM.Result Halt Store Cell → Prop
  | .ok v s => m.halted = true ∧ m.result = v ∧ m.store = s
  | .error (.fault f) s => m.halted = false ∧
      ∃ m' e, advance p m = (m', some (.fault e)) ∧ e.fault = f ∧ m'.store = s
  | .error .outOfMemory s =>
    m.halted = false ∧ ∃ m', advance p m = (m', some .crash) ∧ m'.store = s
  | .error .timeout _ | .error .stuck _ => False

theorem Meets.ends {N : Nat} {r : EStateM.Result Halt Store Cell}
    (h : Meets p N m (fun v m' => m'.halted = true ∧ m'.result = v) r) :
    ∃ m', Steps p m m' ∧
      (isGivenUp r = false ∨ m'.steps < N → m'.Ends p r) := by
  cases r with
  | ok v s =>
    obtain ⟨m', hsteps, hstore, hhalted, hresult⟩ := h
    exact ⟨m', hsteps, fun _ => ⟨hhalted, hresult, hstore⟩⟩
  | error e s =>
    cases e with
    | fault f =>
      obtain ⟨m', m'', e, hsteps, hrunning, hstop, hfault, hstore⟩ := h
      exact ⟨m', hsteps, fun _ => ⟨hrunning, m'', e, hstop, hfault, hstore⟩⟩
    | outOfMemory =>
      obtain ⟨m', m'', hsteps, hrunning, hstop, hstore⟩ := h
      exact ⟨m', hsteps, fun _ => ⟨hrunning, m'', hstop, hstore⟩⟩
    | timeout =>
      obtain ⟨m', hsteps, hN⟩ := h
      refine ⟨m', hsteps, fun hend => ?_⟩
      rcases hend with hend | hend
      · cases hend
      · omega
    | stuck => cases h

end Machine

/-- A run ends as an evaluation does, with the same value or for the same
reason, and with the same memory and output. -/
def Agrees (run : Machine × Except Stop Cell) :
    EStateM.Result Halt Store Cell → Prop
  | .ok v s => run.2 = .ok v ∧ run.1.store = s
  | .error (.fault f) s =>
    ∃ pc, run.2 = .error (.fault { pc, fault := f }) ∧ run.1.store = s
  | .error .outOfMemory s => run.2 = .error .crash ∧ run.1.store = s
  | .error .timeout _ | .error .stuck _ => False

theorem Agrees.isGivenUp_eq_false {run : Machine × Except Stop Cell}
    {r : EStateM.Result Halt Store Cell} (h : Agrees run r) :
    isGivenUp r = false := by
  cases r with
  | ok => rfl
  | error e s =>
    cases e with
    | timeout => cases h
    | fault | outOfMemory | stuck => rfl

def StopsAtLimit (run : Machine × Except Stop Cell) : Prop :=
  ∃ s, run.2 = .error s ∧ s.isLimit = true

namespace Machine

variable {lim : Limits} {m m' : Machine} {r : EStateM.Result Halt Store Cell}

/-- A machine that runs makes its next step, unless it stops at a limit. -/
theorem running_cases (lim : Limits) (fuel : Nat)
    (hrunning : m.halted = false) :
    step p lim m = advance p m ∨
      StopsAtLimit (outcome (runFor p lim (fuel + 1) m)) ∧ m.AtLimit lim := by
  rcases step_cases p lim m with hsame | ⟨⟨m', s, hstop, hlimit⟩, hat⟩
  · exact Or.inl hsame
  · rw [runFor_of_stop hrunning hstop]
    exact Or.inr ⟨⟨s, rfl, hlimit⟩, hat⟩

theorem Ends.cases (h : m.Ends p r) (lim : Limits) (fuel : Nat) :
    Agrees (outcome (runFor p lim (fuel + 1) m)) r ∨
      StopsAtLimit (outcome (runFor p lim (fuel + 1) m)) ∧ m.AtLimit lim := by
  cases r with
  | ok v s =>
    obtain ⟨hhalted, hresult, hstore⟩ := h
    rw [runFor, runForInto_of_halted hhalted]
    exact Or.inl ⟨congrArg Except.ok hresult, hstore⟩
  | error e s =>
    cases e with
    | fault f =>
      obtain ⟨hrunning, m', e, hstop, rfl, hstore⟩ := h
      rcases running_cases lim fuel hrunning with hsame | hlimit
      · rw [runFor_of_stop hrunning (hsame.trans hstop)]
        exact Or.inl ⟨e.pc, rfl, hstore⟩
      · exact Or.inr hlimit
    | outOfMemory =>
      obtain ⟨hrunning, m', hstop, hstore⟩ := h
      rcases running_cases lim fuel hrunning with hsame | hlimit
      · rw [runFor_of_stop hrunning (hsame.trans hstop)]
        exact Or.inl ⟨rfl, hstore⟩
      · exact Or.inr hlimit
    | timeout | stuck => cases h

/-- A run comes to the end of an evaluation unless it stops because of a limit.
The induction is on the steps up to there; the steps that are left are those
that the limit allows. -/
theorem Steps.cases_of_ends {fuel : Nat} (h : Steps p m m')
    (hend : m'.steps ≤ lim.maxSteps → m'.Ends p r)
    (hle : m.steps ≤ lim.maxSteps) (hfuel : m.steps + fuel = lim.maxSteps + 1) :
    Agrees (outcome (runFor p lim fuel m)) r ∨
      StopsAtLimit (outcome (runFor p lim fuel m)) ∧
        ∃ mid, Steps p m mid ∧ mid.steps ≤ m'.steps ∧ mid.AtLimit lim := by
  obtain ⟨rest, rfl⟩ : ∃ rest, fuel = rest + 1 := ⟨fuel - 1, by omega⟩
  induction h generalizing rest with
  | refl m =>
    rcases (hend hle).cases lim rest with hagrees | ⟨hstop, hlimit⟩
    · exact Or.inl hagrees
    · exact Or.inr ⟨hstop, m, .refl m, Nat.le_refl _, hlimit⟩
  | @head m mid m' hrunning hstep hrest ih =>
    obtain ⟨hcount, -⟩ := steps_of_step hstep hrunning
    have hlater := hrest.steps_le
    rcases running_cases lim rest hrunning with hsame | ⟨hstop, hlimit⟩
    · obtain ⟨-, hmid⟩ := steps_of_step (hsame.trans hstep) hrunning
      obtain ⟨rest, rfl⟩ : ∃ n, rest = n + 1 := ⟨rest - 1, by omega⟩
      rw [runFor_of_step hrunning (hsame.trans hstep)]
      rcases ih hend hmid rest (by omega) with
          hagrees | ⟨hstop, last, hlast, hbefore, hlimit⟩
      · exact Or.inl hagrees
      · exact Or.inr ⟨hstop, last, .head hrunning hstep hlast, hbefore, hlimit⟩
    · exact Or.inr ⟨hstop, m, .refl m, by omega, hlimit⟩

end Machine

/-- The value of an evaluation that has one, and the store that it leaves. -/
def value? : EStateM.Result Halt Store α → Option (α × Store)
  | .ok a s => some (a, s)
  | .error .. => none

theorem eq_ok_of_value? {r : EStateM.Result Halt Store α} {a : α} {s : Store}
    (h : value? r = some (a, s)) : r = .ok a s := by
  cases r with
  | ok =>
    cases h
    rfl
  | error => cases h

/-- The result of a program, at a depth that suffices for it. -/
def Evaluates (fs : List Function) (r : EStateM.Result Halt Store Cell) :
    Prop :=
  ∃ depth, evaluate fs depth = r ∧ isGivenUp r = false

theorem Evaluates.unique {r r' : EStateM.Result Halt Store Cell}
    (h : Evaluates fs r) (h' : Evaluates fs r') : r = r' := by
  obtain ⟨depth, rfl, hfinished⟩ := h
  obtain ⟨depth', rfl, hfinished'⟩ := h'
  rcases Nat.le_total depth depth' with hle | hle
  · exact (evaluate_of_le hle hfinished).symm
  · exact evaluate_of_le hle hfinished'

end

/-- Compiled programs do what their functions mean. If a program has a result,
then every run of its code with limits that are wide enough ends with that
result. Whatever the limits are, a run stops because of them or ends with the
result of the program; so a program without a result only runs until it is
stopped. -/
theorem Program.runs_agree_with_evaluation {fs : List Function} {p : Program}
    (h : ofFunctions fs = .ok p) (hsize : p.code.size < 2 ^ 63)
    (hdef : ∀ f ∈ fs, f.isDefined = true)
    (hcells : ∀ f ∈ fs, f.cells < 2 ^ 63) :
    (∀ r r', Evaluates fs r → Evaluates fs r' → r = r') ∧
      (∀ r, Evaluates fs r →
        ∃ N, ∀ lim : Limits, N ≤ lim.maxSteps → N ≤ lim.maxDepth →
          lim.canWrite = true → Agrees (p.run lim) r) ∧
      ∀ lim : Limits, StopsAtLimit (p.run lim) ∨
        ∃ r, Evaluates fs r ∧ Agrees (p.run lim) r := by
  have hp : p.Regular fs := ⟨places_of_ofFunctions h hsize, hsize, hdef, hcells⟩
  refine ⟨fun r r' hr hr' => hr.unique hr', fun r hr => ?_, fun lim => ?_⟩
  · obtain ⟨depth, rfl, hfinished⟩ := hr
    obtain ⟨m', hsteps, hends⟩ := (hp.meets_evaluate depth).ends
    refine ⟨m'.steps + 2, fun lim hmaxSteps hmaxDepth hwrite => ?_⟩
    rcases hsteps.cases_of_ends (fun _ => hends (Or.inl hfinished))
      (Nat.zero_le lim.maxSteps) (Nat.zero_add _) with hagrees
      | ⟨-, mid, hmid, hbefore, hlimit⟩
    · exact hagrees
    · have hframes := hmid.frames_le
      have hfirst : (Machine.start p).frames.size = 1 := rfl
      have hzero : (Machine.start p).steps = 0 := rfl
      rcases hlimit with hlimit | hlimit | hlimit
      · omega
      · omega
      · rw [hwrite] at hlimit
        cases hlimit
  · -- At this depth an evaluation is given up only after more steps than the
    -- limit allows.
    obtain ⟨m', hsteps, hends⟩ := (hp.meets_evaluate (lim.maxSteps + 2)).ends
    rcases hsteps.cases_of_ends
      (fun hle => hends (Or.inr (Nat.lt_succ_of_le hle)))
      (Nat.zero_le lim.maxSteps) (Nat.zero_add _) with hagrees | ⟨hstop, -⟩
    · exact Or.inr ⟨_, ⟨_, rfl, hagrees.isGivenUp_eq_false⟩, hagrees⟩
    · exact Or.inl hstop

/-- `main` doubles a variable until it is at least 4, by way of its address, and
prints it. -/
def doubling : List Function :=
  [{ ret := .void, name := text "twice",
     params := [{ ty := .pointer .int, name := text "p" }]
     body :=
      [.assign (.deref (.var (text "p")))
        (.binary .add (.deref (.var (text "p"))) (.deref (.var (text "p"))))] },
   { ret := .int, name := mainName, params := []
     body :=
      [.init .int (text "n") (.int 1 none),
       .whileDo (.int 1 none)
        (.block
          [.ifThen (.binary .ge (.var (text "n")) (.int 4 none)) .breakLoop,
           .expr (.call (text "twice") [.addr (.var (text "n"))])]),
       .printf (.str (text "%d")) [.var (text "n")],
       .ret (some (.var (text "n")))] }]

def doublingProgram : Program where
  code := #[ { op := .entry }, { op := .loadLocal, operand := -1 },
    { op := .loadLocal, operand := -1 }, { op := .load },
    { op := .loadLocal, operand := -1 }, { op := .load }, { op := .arith .add },
    { op := .store }, { op := .push }, { op := .ret },
    { op := .entry, operand := 1 }, { op := .push, operand := 1 },
    { op := .storeLocal, operand := 1 }, { op := .push, operand := 1 },
    { op := .jumpZero, operand := 25 }, { op := .loadLocal, operand := 1 },
    { op := .push, operand := 4 }, { op := .arith .ge },
    { op := .jumpZero, operand := 20 }, { op := .jump, operand := 25 },
    { op := .addrLocal, operand := 1 }, { op := .frame, operand := 1 },
    { op := .call }, { op := .pop }, { op := .jump, operand := 13 },
    { op := .push, operand := 1 }, { op := .loadLocal, operand := 1 },
    { op := .printf, operand := 2 }, { op := .loadLocal, operand := 1 },
    { op := .ret }]
  data := #[0, 37, 100, 0]
  entry := 10
  funcs := .ofList [(mainName, 10), (text "twice", 0)]

theorem Program.runs_agree_with_evaluation_doubling :
    let r : EStateM.Result Halt Store Cell :=
      .ok 4 { memory := doublingProgram.data, output := #[52] }
    ofFunctions doubling = .ok doublingProgram ∧
      doublingProgram.code.size < 2 ^ 63 ∧
      (∀ f ∈ doubling, f.isDefined = true) ∧
      (∀ f ∈ doubling, f.cells < 2 ^ 63) ∧ Evaluates doubling r ∧
      (∀ r', Evaluates doubling r' → r' = r) ∧
      (∃ N, ∀ lim : Limits, N ≤ lim.maxSteps → N ≤ lim.maxDepth →
        lim.canWrite = true → Agrees (doublingProgram.run lim) r) ∧
        ∀ lim : Limits, StopsAtLimit (doublingProgram.run lim) ∨
        Agrees (doublingProgram.run lim) r := by
  intro r
  have hp : ofFunctions doubling = .ok doublingProgram :=
    ok_of_toOption (by decide +kernel)
  have hdef : ∀ f ∈ doubling, f.isDefined = true := by decide
  have hcells : ∀ f ∈ doubling, f.cells < 2 ^ 63 := by decide
  have hr : Evaluates doubling r :=
    ⟨4, eq_ok_of_value? (by decide +kernel), rfl⟩
  obtain ⟨hunique, hwide, hany⟩ :=
    runs_agree_with_evaluation hp (by decide) hdef hcells
  refine ⟨hp, by decide, hdef, hcells, hr, fun r' hr' => hunique r' r hr' hr,
    hwide r hr, fun lim => ?_⟩
  rcases hany lim with hstop | ⟨r', hr', hagrees⟩
  · exact Or.inl hstop
  · exact Or.inr (hunique r' r hr' hr ▸ hagrees)

end StackC
