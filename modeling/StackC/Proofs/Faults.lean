import StackC.Proofs.Calls
import StackC.Proofs.Formats

/-!
Faults of compiled code. A run of a compiled program stops with a fault only
because of the values that it computes, of the output, or of the limits set for
it: there are always enough values on the operand stack, variables have cells,
and control stays in the code of the function that was called last. No store can
change this, since neither frames nor code are kept in memory.
-/

namespace StackC

/-- A fault that values, the output or the limits can cause. -/
def Fault.isOrdinary : Fault → Bool
  | .divisionByZero | .nullPointer
  | .badAddress _ | .missingArgument _ | .unknownVerb _ | .outputClosed
  | .stepLimit _ | .callDepth _ => true
  | _ => false

variable {memory : Array Cell} {addr : Cell} {f : Fault}

theorem isOrdinary_of_checkAddr (h : checkAddr memory addr = .error f) :
    f.isOrdinary = true := by
  rcases fault_of_checkAddr h with rfl | rfl <;> rfl

theorem isOrdinary_of_stringAt (h : stringAt memory addr = .error f) :
    f.isOrdinary = true := by
  rcases fault_of_stringAt h with rfl | ⟨_, rfl⟩ <;> rfl

theorem isOrdinary_of_showArg {verb : UInt8} {v : Cell}
    (h : showArg memory verb v = .error f) : f.isOrdinary = true := by
  simp only [showArg] at h
  split at h
  · cases h
  split at h
  · cases h
  split at h
  · cases h
  split at h
  · cases h
  split at h
  · exact isOrdinary_of_stringAt h
  · cases h
    rfl

theorem isOrdinary_of_expandFormat {used : Nat} {format : Bytes}
    {args : List Cell} (h : expandFormat memory used format args = .error f) :
    f.isOrdinary = true := by
  fun_induction expandFormat memory used format args with
  | case1 => cases h
  | case2 _ _ _ _ _ ih => exact ih (error_of_map h)
  | case3 => cases h
  | case4 _ _ _ _ _ _ _ ih => exact ih (error_of_map h)
  | case5 =>
    cases h
    rfl
  | case6 _ _ _ _ _ _ _ _ _ hshow =>
    cases h
    exact isOrdinary_of_showArg hshow
  | case7 _ _ _ _ _ _ _ _ _ _ ih => exact ih (error_of_map h)

theorem isOrdinary_of_formatAt {args : List Cell}
    (h : formatAt memory addr args = .error f) : f.isOrdinary = true := by
  simp only [formatAt] at h
  split at h
  next hformat =>
    cases h
    exact isOrdinary_of_stringAt hformat
  next => exact isOrdinary_of_expandFormat h

namespace Machine

/-- How a step of compiled code may stop: with an ordinary fault, or because the
cells that a function reserves do not fit. -/
inductive Stops (p : Program) (m : Machine) : Stop → Prop
  | fault (e : RuntimeError) (h : e.fault.isOrdinary = true) :
    Stops p m (.fault e)
  | crash (i : Instr) (hi : p.code[(m.pc - 1).toNat]? = some i)
    (hop : i.op = .entry)
    (hfull : memoryLimit < m.memory.size + i.operand.toInt.toNat) :
    Stops p m .crash

section

variable {p : Program} {fs : List Function} {lim : Limits} {m m' : Machine}
  {i : Instr} {s : Stop}

theorem stop_of_withPop {k : Machine → Cell → Machine × Option Stop}
    (hstack : 1 ≤ m.stack.length) (h : m.withPop k = (m', some s)) :
    ∃ v stack, m.stack = v :: stack ∧ k { m with stack } v = (m', some s) := by
  simp only [withPop] at h
  split at h
  next hnil => simp [hnil] at hstack
  next v stack hcons => exact ⟨v, stack, hcons, h⟩

theorem stop_of_withPop2 {k : Machine → Cell → Cell → Machine × Option Stop}
    (hstack : 2 ≤ m.stack.length) (h : m.withPop2 k = (m', some s)) :
    ∃ a b stack, m.stack = b :: a :: stack ∧
      k { m with stack } a b = (m', some s) := by
  obtain ⟨b, stack, hb, h⟩ := stop_of_withPop (by omega) h
  have hrest : 1 ≤ stack.length := by
    rw [hb, List.length_cons] at hstack
    omega
  obtain ⟨a, stack', rfl, h⟩ := stop_of_withPop hrest h
  exact ⟨a, b, stack', hb, h⟩

/-- A step that stops leaves control and the frames where they are. -/
theorem kept_of_exec (h : exec lim i m = (m', some s)) :
    m'.pc = m.pc ∧ m'.frames = m.frames := by
  obtain ⟨op, operand⟩ := i
  cases op with
  | printf =>
    simp only [exec, takeArgs] at h
    split at h
    next =>
      cases h
      exact ⟨rfl, rfl⟩
    next =>
      split at h
      next htake =>
        obtain ⟨-, rfl⟩ := Prod.mk.inj htake
        cases h
        exact ⟨rfl, rfl⟩
      next htake =>
        obtain ⟨-, rfl⟩ := Prod.mk.inj htake
        split at h
        next =>
          cases h
          exact ⟨rfl, rfl⟩
        next =>
          simp only [write] at h
          split at h
          next => cases h
          next =>
            cases h
            exact ⟨rfl, rfl⟩
  | _ =>
    simp only [exec, withPop, withPop2, leaveFrame, takeArgs] at h
    repeat' split at h
    all_goals cases h
    all_goals exact ⟨rfl, rfl⟩

/-- What stops an inner instruction, when there are values for it and variables
have cells. -/
theorem ordinary_of_exec {L : Link} {params cells addr : Nat}
    {inside : Nat → Prop} (hop : i.op.isInner = true)
    (hpops : i.pops ≤ m.stack.length)
    (hprintf : i.op = .printf → 1 ≤ i.operand.toInt)
    (hshaped : i.Shaped L params cells inside addr)
    (hslots : ∀ c, IsSlot params cells c → ∃ k,
      m.slotAddr c = some (Int64.ofNat k) ∧ m.index? (Int64.ofNat k) = some k)
    (h : exec lim i m = (m', some s)) :
    ∃ e, s = .fault e ∧ e.fault.isOrdinary = true := by
  obtain ⟨op, operand⟩ := i
  cases op with
  | push | jump => cases h
  | pop =>
    simp only [exec] at h
    obtain ⟨v, stack, -, h⟩ := stop_of_withPop hpops h
    cases h
  | arith f =>
    simp only [exec] at h
    obtain ⟨a, b, stack, -, h⟩ := stop_of_withPop2 hpops h
    split at h
    next => cases h
    next =>
      cases h
      exact ⟨_, rfl, rfl⟩
  | signExtend | zeroExtend =>
    simp only [exec] at h
    rw [if_neg (width_ok hshaped)] at h
    obtain ⟨v, stack, -, h⟩ := stop_of_withPop hpops h
    cases h
  | loadLocal =>
    obtain ⟨k, hslot, hindex⟩ := hslots operand hshaped
    simp only [exec, hslot, hindex] at h
    cases h
  | addrLocal =>
    obtain ⟨k, hslot, -⟩ := hslots operand hshaped
    simp only [exec, hslot] at h
    cases h
  | storeLocal =>
    obtain ⟨k, hslot, hindex⟩ := hslots operand hshaped
    simp only [exec, hslot] at h
    obtain ⟨v, stack, -, h⟩ := stop_of_withPop hpops h
    have hindex' : index? { m with stack } (Int64.ofNat k) = some k := hindex
    rw [hindex'] at h
    cases h
  | load =>
    simp only [exec] at h
    obtain ⟨v, stack, -, h⟩ := stop_of_withPop hpops h
    split at h
    next f hcheck =>
      cases h
      exact ⟨_, rfl, isOrdinary_of_checkAddr hcheck⟩
    next => cases h
  | store =>
    simp only [exec] at h
    obtain ⟨a, b, stack, -, h⟩ := stop_of_withPop2 hpops h
    split at h
    next f hcheck =>
      cases h
      exact ⟨_, rfl, isOrdinary_of_checkAddr hcheck⟩
    next => cases h
  | jumpZero =>
    simp only [exec] at h
    obtain ⟨v, stack, -, h⟩ := stop_of_withPop hpops h
    split at h
    next => cases h
    next => cases h
  | printf =>
    have hone : (1 : Cell).toInt ≤ operand.toInt := hprintf rfl
    have hcount : operand.toInt.toNat ≤ m.stack.length := hpops
    simp only [exec, takeArgs] at h
    rw [if_neg (count_ok hone hcount)] at h
    split at h
    next htake =>
      obtain ⟨hnil, -⟩ := Prod.mk.inj htake
      have hlength := congrArg List.length hnil
      rw [List.length_reverse, List.length_take_of_le hcount, List.length_nil]
        at hlength
      have hone' : 1 ≤ operand.toInt := hone
      omega
    next htake =>
      obtain ⟨-, rfl⟩ := Prod.mk.inj htake
      split at h
      next f hformat =>
        cases h
        exact ⟨_, rfl, isOrdinary_of_formatAt hformat⟩
      next =>
        simp only [write] at h
        split at h
        next => cases h
        next =>
          cases h
          exact ⟨_, rfl, rfl⟩
  | frame | call | entry | ret | illegal => cases hop

/-- What a step that stops does: the limit of steps is reached, or the
instruction stops. -/
theorem stop_of_step (hrunning : m.halted = false) (hpc : 0 ≤ m.pc)
    (hi : p.code[m.pc.toNat]? = some i) (h : step p lim m = (m', some s)) :
    (∃ e, s = .fault e ∧ e.fault = .stepLimit lim.maxSteps ∧ m'.pc = m.pc ∧
      m'.frames = m.frames) ∨
    exec lim i { m with steps := m.steps + 1, pc := m.pc + 1 } =
      (m', some s) := by
  rw [step, if_neg (by simp [hrunning]), if_neg (by omega)] at h
  simp only [hi] at h
  split at h
  next =>
    cases h
    exact Or.inl ⟨_, rfl, rfl, rfl, rfl⟩
  next => exact Or.inr h

section

variable {bottom : Nat} {a : Activation} {rest : List Activation}

/-- The variables of the innermost activation have cells. -/
theorem Active.slots (h : m.Active (p.link fs) fs bottom a rest)
    (hmemory : m.memory.size = a.top) (hroom : a.top ≤ memoryLimit)
    (hcells : a.fn.cells < 2 ^ 63) {c : Cell}
    (hc : IsSlot a.fn.params.length a.fn.cells c) :
    ∃ k, m.slotAddr c = some (Int64.ofNat k) ∧
      m.index? (Int64.ofNat k) = some k := by
  have hframe := h.back?_frames
  have hcount := h.valid.count
  have hsize : m.memory.size < 2 ^ 63 := by
    rw [hmemory]
    exact Nat.lt_of_le_of_lt hroom (by decide)
  have htop : m.memory.size = a.frame.base + a.frame.count + a.fn.cells := by
    rw [hmemory, Activation.top, Int64.toInt_ofNat_of_lt hcells,
      Int.toNat_natCast]
  rcases hc with ⟨k, hpos, hk, rfl⟩ | ⟨k, hpos, hk, rfl⟩
  · exact ⟨_, slotAddr_arg hframe hpos (by omega) (by omega),
      index?_ofNat (by omega) hsize⟩
  · exact ⟨_, slotAddr_local hframe hpos (by omega) hsize,
      index?_ofNat (by omega) hsize⟩

theorem exec_entry_stops (hop : i.op = .entry) (hoperand : 0 ≤ i.operand.toInt)
    (hi : p.code[(m.pc - 1).toNat]? = some i)
    (h : exec lim i m = (m', some s)) : Stops p m' s := by
  have hnonneg : ¬ i.operand < 0 := by
    rw [Int64.lt_iff_toInt_lt, Int64.toInt_zero]
    omega
  simp only [exec, hop] at h
  rw [if_neg hnonneg] at h
  split at h
  next hfull =>
    cases h
    exact .crash i hi hop hfull
  next => cases h

theorem exec_call_stops (hop : i.op = .call) (h : exec lim i m = (m', some s)) :
    Stops p m' s := by
  simp only [exec, hop] at h
  split at h
  next =>
    cases h
    exact .fault _ rfl
  next => cases h

theorem exec_frame_ne_stop (hop : i.op = .frame)
    (hoperand : 0 ≤ i.operand.toInt) (hpops : i.pops ≤ m.stack.length) :
    exec lim i m ≠ (m', some s) := by
  intro h
  have hcount : i.operand.toInt.toNat ≤ m.stack.length := by
    simpa only [Instr.pops, hop] using hpops
  have hleast : (0 : Cell).toInt ≤ i.operand.toInt := hoperand
  simp only [exec, hop] at h
  rw [if_neg (count_ok hleast hcount)] at h
  cases h

theorem exec_ret_ne_stop {f : Frame} (hop : i.op = .ret)
    (hstack : 1 ≤ m.stack.length) (hf : m.frames.back? = some f) :
    exec lim i m ≠ (m', some s) := by
  intro h
  simp only [exec, hop] at h
  obtain ⟨v, stack, -, h⟩ := stop_of_withPop hstack h
  simp only [leaveFrame, hf] at h
  split at h
  next => cases h
  next => cases h

theorem goesTo_next (hop : i.op ≠ .jump) (next : Int) : i.GoesTo next next := by
  obtain ⟨op, operand⟩ := i
  cases op with
  | jump => exact absurd rfl hop
  | jumpZero => exact Or.inr rfl
  | _ => rfl

/-- The instruction at which an activation stands, with what may stop it, and
where control stays if it does. -/
theorem Active.stops_exec (lim : Limits) (hcells : ∀ f ∈ fs, f.cells < 2 ^ 63)
    (h : m.Active (p.link fs) fs bottom a rest) :
    0 ≤ m.pc ∧ (a.start ≤ m.pc ∧ m.pc < a.stop) ∧
      ∃ i, p.code[m.pc.toNat]? = some i ∧
        ∀ m' s, exec lim i { m with steps := m.steps + 1, pc := m.pc + 1 } =
          (m', some s) →
        Stops p m' s ∧ m.pc + 1 < a.stop := by
  have hshape := h.valid.laid.shape
  have hback := h.back?_frames
  have hsmall := hcells a.fn h.valid.mem
  cases h.state with
  | entering hpc hvalues hstaged hmemory =>
    have hlt := hshape.lt
    have hreserve :
        p.code[m.pc.toNat]? =
        some { op := .entry, operand := Int64.ofNat a.fn.cells } := by
      rw [hpc, Int.toNat_natCast]
      exact hshape.reserve
    refine ⟨by omega, by omega, _, hreserve, fun m' s hexec =>
      ⟨exec_entry_stops rfl ?_ ?_ hexec, by omega⟩⟩
    · rw [Int64.toInt_ofNat_of_lt hsmall]
      omega
    · rw [show m.pc + 1 - 1 = m.pc by omega]
      exact hreserve
  | calling hpc hrange hf hcode hsteady hstaged hmemory hroom =>
    obtain ⟨hrange', -⟩ := hsteady 1
    exact ⟨hpc, by omega, _, hcode, fun m' s hexec =>
      ⟨exec_call_stops rfl hexec, by omega⟩⟩
  | running hpc hsteady hstaged hmemory hroom =>
    obtain ⟨hrange, i, hi, hready, hnext⟩ := hsteady.step
    refine ⟨hpc, by omega, i, hi, fun m' s hexec => ?_⟩
    have hlength : a.values.length ≤ m.stack.length := by
      rw [h.stack, List.flatMap_cons, List.length_append]
      exact Nat.le_add_right _ _
    by_cases hframe : i.op = .frame
    · simp only [Instr.Ready, hframe] at hready
      obtain ⟨hpops, f, -, hoperand, -⟩ := hready
      exact absurd hexec
        (exec_frame_ne_stop hframe (by omega) (Nat.le_trans hpops hlength))
    by_cases hret : i.op = .ret
    · have hone : a.values.length = 1 := by
        simpa [Instr.Ready, hret] using hready
      exact absurd hexec (exec_ret_ne_stop hret (hone ▸ hlength) hback)
    obtain ⟨hinner, hpops⟩ := Instr.Ready.inner hready hframe hret
    obtain ⟨i', hi', hshaped⟩ := hshape.body m.pc.toNat hrange.1 hrange.2
    cases Option.some.inj (hi.symm.trans hi')
    have hprintf (hop : i.op = .printf) : 1 ≤ i.operand.toInt := by
      simp only [Instr.Ready, hop] at hready
      exact hready.2
    obtain ⟨e, rfl, he⟩ :=
      ordinary_of_exec (m := { m with steps := m.steps + 1, pc := m.pc + 1 })
        hinner (Nat.le_trans hpops hlength) hprintf hshaped
        (fun c hc => h.slots hmemory hroom hsmall hc) hexec
    refine ⟨.fault e he, ?_⟩
    have hjump : i.op ≠ .jump := by
      intro hjump
      simp only [exec, hjump] at hexec
      cases hexec
    obtain ⟨hrange', -⟩ :=
      hnext _ (Instr.mem_next hinner (goesTo_next hjump (m.pc + 1)) hpc) 1
    omega

/-- A step that stops does so for an ordinary reason, and control is still in
the function. -/
theorem Active.stops (hcells : ∀ f ∈ fs, f.cells < 2 ^ 63)
    (h : m.Active (p.link fs) fs bottom a rest)
    (hstep : step p lim m = (m', some s)) :
    Stops p m' s ∧ m'.frames = m.frames ∧ a.start ≤ m'.pc ∧ m'.pc < a.stop := by
  obtain ⟨hpc, hinside, i, hi, hexec⟩ := h.stops_exec lim hcells
  rcases stop_of_step h.halted hpc hi hstep with
      ⟨e, rfl, hfault, hpc', hframes⟩ | hstop
  · exact ⟨.fault e (by rw [hfault]; rfl), hframes, by omega⟩
  · obtain ⟨hstops, hnext⟩ := hexec m' s hstop
    obtain ⟨hpc', hframes⟩ := kept_of_exec hstop
    dsimp only at hpc' hframes
    exact ⟨hstops, hframes, by omega⟩

end

end

end Machine

/-- The addresses of the functions whose calls are open after an instruction,
the innermost first. -/
def Instr.openCalls (i : Instr) (calls : List Cell) : List Cell :=
  match i.op with
  | .call => i.operand :: calls
  | .ret => calls.tail
  | _ => calls

/-- The calls that are open when a run has left some machines behind. -/
def Program.openCalls (p : Program) : (way : List Machine) → List Cell
  | [] => [p.entry]
  | m :: way =>
    match p.code[m.pc.toNat]? with
    | some i => i.openCalls (p.openCalls way)
    | none => p.openCalls way

/-- A run comes to a machine by steps that end normally, and the open calls
there are those of the functions at the given addresses. -/
def Machine.ReachesWith (p : Program) (lim : Limits) (sink : Sink)
    (calls : List Cell) (m : Machine) : Prop :=
  ∃ way, Proceeds p lim sink (start p) way m ∧ p.openCalls way = calls

/-- Control is in the code of the function that starts at an address: it is not
before it, and not at or behind the start of a function that follows. -/
structure Program.InCodeOf (p : Program) (fs : List Function) (start : Cell)
    (pc : Int) : Prop where
  function : ∃ f ∈ fs, p.funcs.get? f.name = some start
  le : start.toInt ≤ pc
  lt : pc < p.code.size
  next : ∀ f ∈ fs, ∀ other, p.funcs.get? f.name = some other →
    start.toInt < other.toInt → pc < other.toInt

section

variable {p : Program} {fs : List Function} {lim : Limits} {sink : Sink}
  {m m' : Machine} {a : Activation} {rest : List Activation} {calls : List Cell}

/-- Only the first instruction of a function reserves cells, so no function
starts inside another one. -/
theorem Activation.Valid.inCodeOf (h : a.Valid (p.link fs) fs)
    (hp : p.Steady fs) {pc : Int} (hle : a.start ≤ pc) (hlt : pc < a.stop) :
    p.InCodeOf fs (Int64.ofNat a.start) pc := by
  have hshape := h.laid.shape
  have hsize : a.stop ≤ p.code.size := hshape.le
  have hstart : (Int64.ofNat a.start).toInt = a.start :=
    Int64.toInt_ofNat_of_lt (Nat.lt_trans h.laid.start_lt hp.size)
  refine ⟨⟨a.fn, h.mem, ?_⟩, by omega, by omega, ?_⟩
  · rw [hp.places.get?_entry h.mem, h.laid.entry]
  · intro f hf other hother hafter
    obtain ⟨start, stop, hlaid⟩ := hp.places.laid.exists_start hf
    rw [hp.places.get?_entry hf, hlaid.entry, Option.some.injEq] at hother
    subst hother
    rw [Int64.toInt_ofNat_of_lt (Nat.lt_trans hlaid.start_lt hp.size)]
      at hafter ⊢
    have hfar : a.stop ≤ start := by
      apply Nat.le_of_not_lt
      intro hinside
      obtain ⟨i, hi, hshaped⟩ := hshape.body start (by omega) hinside
      cases Option.some.inj (hi.symm.trans hlaid.shape.reserve)
      exact hshaped
    omega

theorem Machine.active_of_reachesWith (hp : p.Steady fs)
    (h : ReachesWith p lim sink calls m) :
    (∃ a rest, m.Active (p.link fs) fs p.data.size a rest ∧
      calls = (a :: rest).map fun b => Int64.ofNat b.start) ∨
      (m.halted = true ∧ m.frames.size = 0 ∧ calls = []) := by
  obtain ⟨way, hway, rfl⟩ := h
  induction hway with
  | refl =>
    obtain ⟨a, hactive, hentry⟩ := active_start hp
    exact Or.inl ⟨a, [], hactive, by rw [Program.openCalls, hentry]; rfl⟩
  | step _ hrunning hstep ih =>
    rcases ih with ⟨a, rest, hactive, hcalls⟩ | ⟨hhalted, -⟩
    · obtain ⟨i, hi, hmoves⟩ := hactive.moves hp hstep
      simp only [Program.openCalls, hi, hcalls]
      cases hmoves with
      | inner vs hcall hret h =>
        refine Or.inl ⟨_, _, h, ?_⟩
        rw [Instr.openCalls]
        split <;> simp_all
      | call hop hoperand h =>
        refine Or.inl ⟨_, _, h, ?_⟩
        simp [Instr.openCalls, hop, hoperand]
      | ret _ hop h =>
        refine Or.inl ⟨_, _, h, ?_⟩
        simp [Instr.openCalls, hop]
      | halt hop hhalted hframes =>
        refine Or.inr ⟨hhalted, hframes, ?_⟩
        simp [Instr.openCalls, hop]
    · cases hhalted.symm.trans hrunning

theorem Machine.Active.start_le_pc (hcells : ∀ f ∈ fs, f.cells < 2 ^ 63)
    {bottom : Nat} (h : m.Active (p.link fs) fs bottom a rest) :
    a.start ≤ m.pc ∧ m.pc < a.stop :=
  (h.stops_exec {} hcells).2.1

end

/-- Compiled code does not go wrong, whatever the limits are and whenever the
output refuses a text. A run stops with a fault only because of values, of the
output or of a limit, and breaks down only when the cells that a function
reserves do not fit. In every machine that a run comes to, also when its last
step stops, control is in the code of the function that was called last and has
not returned. -/
theorem Program.faults_are_ordinary {fs : List Function} {p : Program}
    (h : ofFunctions fs = .ok p) (hsize : p.code.size < 2 ^ 63)
    (hdef : ∀ f ∈ fs, f.isDefined = true) (hcells : ∀ f ∈ fs, f.cells < 2 ^ 63)
    (lim : Limits) (sink : Sink) :
    (∀ m e, p.runInto lim sink = (m, .error (.fault e)) →
      e.fault.isOrdinary = true) ∧
    (∀ m, p.runInto lim sink = (m, .error .crash) →
      ∃ i, p.code[(m.pc - 1).toNat]? = some i ∧ i.op = .entry ∧
        memoryLimit < m.memory.size + i.operand.toInt.toNat) ∧
    ∀ calls m, Machine.ReachesWith p lim sink calls m →
      calls.length = m.frames.size ∧
        (∀ c outer, calls = c :: outer → p.InCodeOf fs c m.pc) ∧
        ∀ m' s, m.halted = false →
          Machine.stepInto p lim sink m = (m', some s) →
          m'.frames = m.frames ∧
            ∀ c outer, calls = c :: outer → p.InCodeOf fs c m'.pc := by
  have hp := steady_of_ofFunctions h hsize hdef
  have hstop : ∀ m s, p.runInto lim sink = (m, .error s) →
      Machine.Stops p m s := by
    intro m s hrun
    obtain ⟨last, hreaches, hrunning, hstep⟩ := Machine.last_of_runInto hrun
    rcases Machine.active_of_reaches hp hreaches with
        ⟨a, rest, hactive⟩ | hfinished
    · exact (hactive.stops hcells hstep).1
    · rw [hfinished.halted] at hrunning
      cases hrunning
  refine ⟨?_, ?_, ?_⟩
  · intro m e hrun
    cases hstop m _ hrun with
    | fault _ hordinary => exact hordinary
  · intro m hrun
    cases hstop m _ hrun with
    | crash i hi hop hfull => exact ⟨i, hi, hop, hfull⟩
  · intro calls m hreaches
    rcases Machine.active_of_reachesWith hp hreaches with
        ⟨a, rest, hactive, rfl⟩ | ⟨hhalted, hframes, rfl⟩
    · refine ⟨by simp [hactive.size_frames], ?_, ?_⟩
      · rintro c outer hcalls
        cases hcalls
        obtain ⟨hle, hlt⟩ := hactive.start_le_pc hcells
        exact hactive.valid.inCodeOf hp hle hlt
      · rintro m' s - hstep
        obtain ⟨-, hframes, hle, hlt⟩ := hactive.stops hcells hstep
        refine ⟨hframes, ?_⟩
        rintro c outer hcalls
        cases hcalls
        exact hactive.valid.inCodeOf hp hle hlt
    · refine ⟨hframes.symm, ?_, ?_⟩
      · rintro c outer hcalls
        cases hcalls
      · rintro m' s hrunning
        rw [hhalted] at hrunning
        cases hrunning

/-- `poke` stores behind the variable that it gets the address of, which is
where its own argument is kept; `main` then prints two numbers. -/
def wildStore : List Function :=
  [{ ret := .int, name := mainName, params := []
     body :=
      [.decl .int (text "x"),
       .printf (.str (text "%d"))
         [.call (text "poke") [.addr (.var (text "x"))]],
       .printf (.str (text "%d")) [.var (text "x")],
       .ret (some (.int 0 none))] },
   { ret := .int, name := text "poke",
     params := [{ ty := .pointer .int, name := text "p" }]
     body :=
      [.assign (.deref (.binary .add (.var (text "p")) (.int 1 none)))
        (.int 7 none),
       .ret (some (.int 5 none))] }]

def wildStoreProgram : Program where
  code := #[
    { op := .entry, operand := 1 }, { op := .push, operand := 1 },
    { op := .addrLocal, operand := 1 }, { op := .frame, operand := 1 },
    { op := .call, operand := 11 }, { op := .printf, operand := 2 },
    { op := .push, operand := 1 }, { op := .loadLocal, operand := 1 },
    { op := .printf, operand := 2 }, { op := .push }, { op := .ret },
    { op := .entry }, { op := .loadLocal, operand := -1 },
    { op := .push, operand := 1 }, { op := .arith .add },
    { op := .push, operand := 7 }, { op := .store },
    { op := .push, operand := 5 }, { op := .ret }]
  data := #[0, 37, 100, 0]
  entry := 0
  funcs := .ofList [(mainName, 0), (text "poke", 11)]

/-- The output takes the first number and refuses the second one. After five
steps control is in the code of `poke`. -/
theorem Program.faults_are_ordinary_wildStore :
    let p := wildStoreProgram
    let sink := Sink.upTo 1
    let after (n : Nat) : Machine :=
      (Machine.runForInto p {} sink n (Machine.start p)).1
    ofFunctions wildStore = .ok p ∧ p.code.size < 2 ^ 63 ∧
      (∀ f ∈ wildStore, f.isDefined = true) ∧
      (∀ f ∈ wildStore, f.cells < 2 ^ 63) ∧
      (∃ m e, p.runInto {} sink = (m, .error (.fault e)) ∧
        m.output = #[53] ∧ e.fault = .outputClosed ∧
        e.fault.isOrdinary = true) ∧
      Machine.ReachesWith p {} sink [11, 0] (after 5) ∧
      p.InCodeOf wildStore 11 (after 5).pc := by
  intro p sink after
  have hp : ofFunctions wildStore = .ok p := ok_of_toOption (by decide +kernel)
  have hdef : ∀ f ∈ wildStore, f.isDefined = true := by decide
  have hcells : ∀ f ∈ wildStore, f.cells < 2 ^ 63 := by decide
  have hrun : p.runInto {} sink = ((p.runInto {} sink).1,
      .error (.fault { pc := 9, fault := .outputClosed })) :=
    Machine.runInto_eq_error (by decide +kernel)
  have hentered : Machine.ReachesWith p {} sink [11, 0] (after 5) :=
    ⟨_, Machine.proceeds_of_steps after 5 (by decide +kernel),
      by decide +kernel⟩
  obtain ⟨hfault, -, hcontrol⟩ :=
    faults_are_ordinary hp (by decide) hdef hcells {} sink
  obtain ⟨-, hinside, -⟩ := hcontrol [11, 0] (after 5) hentered
  exact ⟨hp, by decide, hdef, hcells,
    ⟨_, _, hrun, by decide +kernel, rfl, hfault _ _ hrun⟩, hentered,
    hinside 11 [0] rfl⟩

end StackC
