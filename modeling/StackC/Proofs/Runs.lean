import StackC.Machine.Step

/-!
Runs of the machine, with any output. `Proceeds` is a run that goes on, with
the machines on its way, and `RunsIn` is a run to its end. Which machines can
be reached, with calls open all the time or up to a fault, is said by
`Proceeds`.
-/

namespace StackC

/-- An output that is closed when it has `n` bytes or more. -/
def Sink.upTo (n : Nat) : Sink :=
  fun m => decide (m.output.size < n)

namespace Machine

section

variable {p : Program} {lim : Limits} {m m' : Machine}

theorem step_of_halted (h : m.halted = true) : step p lim m = (m, none) := by
  rw [step, if_pos h]
  rfl

/-- The instruction that a step executes. -/
theorem exec_of_step (h : step p lim m = (m', none))
    (hrunning : m.halted = false) :
    ∃ i, 0 ≤ m.pc ∧ p.code[m.pc.toNat]? = some i ∧
      m.steps + 1 ≤ lim.maxSteps ∧
      exec lim i { m with steps := m.steps + 1, pc := m.pc + 1 } =
        (m', none) := by
  rw [step, if_neg (by simp [hrunning])] at h
  split at h
  next => cases h
  next hpc =>
    split at h
    next => cases h
    next i hi =>
      dsimp only at h
      split at h
      next => cases h
      next hsteps => exact ⟨i, by omega, hi, by omega, h⟩

/-- Only the step itself is counted. -/
theorem steps_exec (lim : Limits) (i : Instr) (m : Machine) :
    (exec lim i m).1.steps = m.steps := by
  obtain ⟨op, operand⟩ := i
  cases op with
  | printf =>
    simp only [exec, takeArgs]
    split
    next => rfl
    next =>
      split
      next htake =>
        obtain ⟨-, rfl⟩ := Prod.mk.inj htake
        rfl
      next htake =>
        obtain ⟨-, rfl⟩ := Prod.mk.inj htake
        split
        · rfl
        · simp only [write]
          split <;> rfl
  | _ =>
    simp only [exec, withPop, withPop2, leaveFrame, takeArgs]
    repeat' split
    all_goals rfl

theorem steps_of_step (h : step p lim m = (m', none))
    (hrunning : m.halted = false) :
    m'.steps = m.steps + 1 ∧ m'.steps ≤ lim.maxSteps := by
  obtain ⟨i, -, -, hsteps, hexec⟩ := exec_of_step h hrunning
  have hsame := steps_exec lim i { m with steps := m.steps + 1, pc := m.pc + 1 }
  rw [hexec] at hsame
  exact ⟨hsame, hsame ▸ hsteps⟩

end

/-- A machine gets to another one by steps that end normally. The list has the
machines on the way, the last of them first. -/
inductive Proceeds (p : Program) (lim : Limits) (sink : Sink)
    (first : Machine) : List Machine → Machine → Prop
  | refl : Proceeds p lim sink first [] first
  | step {way : List Machine} {m m' : Machine}
    (h : Proceeds p lim sink first way m) (hrunning : m.halted = false)
    (hstep : stepInto p lim sink m = (m', none)) :
    Proceeds p lim sink first (m :: way) m'

def Reaches (p : Program) (lim : Limits) (sink : Sink) (first m : Machine) :
    Prop :=
  ∃ way, Proceeds p lim sink first way m

/-- More than `depth` calls are open all the time. -/
def ReachesInside (p : Program) (lim : Limits) (sink : Sink) (depth : Nat)
    (first m : Machine) : Prop :=
  ∃ way, Proceeds p lim sink first way m ∧
    ∀ s ∈ m :: way, depth < s.frames.size

/-- A run comes to a machine by steps that end normally, or with a fault at
last. -/
def Visits (p : Program) (lim : Limits) (sink : Sink) (first m : Machine) :
    Prop :=
  Reaches p lim sink first m ∨
    ∃ last e, Reaches p lim sink first last ∧ last.halted = false ∧
      stepInto p lim sink last = (m, some (.fault e))

section

variable {p : Program} {lim : Limits} {sink : Sink} {first m m' : Machine}
  {depth fuel n n' : Nat} {s : Stop} {r r' : Machine × Option Stop}

theorem stepInto_of_halted (h : m.halted = true) :
    stepInto p lim sink m = (m, none) :=
  step_of_halted h

theorem steps_of_stepInto (hstep : stepInto p lim sink m = (m', none))
    (hrunning : m.halted = false) :
    m'.steps = m.steps + 1 ∧ m'.steps ≤ lim.maxSteps := by
  obtain ⟨hcount, hlimit⟩ := steps_of_step hstep hrunning
  exact ⟨hcount, hlimit⟩

/-- Machines that follow one another are the way of a run. -/
theorem proceeds_of_steps (after : Nat → Machine) (n : Nat)
    (h : ∀ k < n, (after k).halted = false ∧
      stepInto p lim sink (after k) = (after (k + 1), none)) :
    Proceeds p lim sink (after 0) ((List.range n).reverse.map after)
      (after n) := by
  induction n with
  | zero => exact .refl
  | succ n ih =>
    obtain ⟨hrunning, hstep⟩ := h n (Nat.lt_succ_self n)
    rw [List.range_succ, List.reverse_append]
    exact (ih fun k hk => h k (Nat.lt_succ_of_lt hk)).step hrunning hstep

theorem Reaches.refl : Reaches p lim sink first first :=
  ⟨[], .refl⟩

theorem Reaches.step (h : Reaches p lim sink first m)
    (hstep : stepInto p lim sink m = (m', none)) :
    Reaches p lim sink first m' := by
  cases hhalted : m.halted with
  | true =>
    cases (stepInto_of_halted hhalted).symm.trans hstep
    exact h
  | false =>
    obtain ⟨way, hway⟩ := h
    exact ⟨m :: way, hway.step hhalted hstep⟩

namespace ReachesInside

theorem refl (hdepth : depth < first.frames.size) :
    ReachesInside p lim sink depth first first :=
  ⟨[], .refl, by simpa using hdepth⟩

theorem step (h : ReachesInside p lim sink depth first m)
    (hstep : stepInto p lim sink m = (m', none))
    (hdepth : depth < m'.frames.size) :
    ReachesInside p lim sink depth first m' := by
  cases hhalted : m.halted with
  | true =>
    cases (stepInto_of_halted hhalted).symm.trans hstep
    exact h
  | false =>
    obtain ⟨way, hway, hinside⟩ := h
    exact ⟨m :: way, hway.step hhalted hstep,
      List.forall_mem_cons.mpr ⟨hdepth, hinside⟩⟩

@[elab_as_elim]
theorem induction
    {motive : ∀ m, ReachesInside p lim sink depth first m → Prop}
    (refl : ∀ hdepth, motive first (.refl hdepth))
    (step : ∀ {m m' : Machine} (h : ReachesInside p lim sink depth first m)
      (hstep : stepInto p lim sink m = (m', none))
      (hdepth : depth < m'.frames.size), motive m h →
        motive m' (h.step hstep hdepth))
    (h : ReachesInside p lim sink depth first m) : motive m h := by
  obtain ⟨way, hway, hinside⟩ := h
  induction hway with
  | refl => exact refl (hinside first List.mem_cons_self)
  | @step way m m' hway hrunning hstep ih =>
    obtain ⟨hdepth, hinside'⟩ := List.forall_mem_cons.mp hinside
    exact step ⟨way, hway, hinside'⟩ hstep hdepth (ih hinside')

theorem depth_lt (h : ReachesInside p lim sink depth first m) :
    depth < first.frames.size := by
  induction h using ReachesInside.induction with
  | refl hdepth => exact hdepth
  | step _ _ _ ih => exact ih

/-- Machines that contain the first one and are closed under steps are all
that can be reached. -/
theorem mem_of_closed {ms : List Machine}
    (h : ReachesInside p lim sink depth first m) (hfirst : first ∈ ms)
    (hclosed : ∀ m ∈ ms, depth < (stepInto p lim sink m).1.frames.size →
      (stepInto p lim sink m).1 ∈ ms) : m ∈ ms := by
  induction h using ReachesInside.induction with
  | refl => exact hfirst
  | @step m m' _ hstep hdepth ih =>
    have hm' : (stepInto p lim sink m).1 = m' := by rw [hstep]
    exact hm' ▸ hclosed m ih (hm' ▸ hdepth)

end ReachesInside

theorem runForInto_of_halted (h : m.halted = true) (fuel : Nat) :
    runForInto p lim sink fuel m = (m, none) := by
  cases fuel with
  | zero => rfl
  | succ fuel => rw [runForInto, if_pos h]

theorem runForInto_of_step (hrunning : m.halted = false)
    (hstep : stepInto p lim sink m = (m', none)) (fuel : Nat) :
    runForInto p lim sink (fuel + 1) m = runForInto p lim sink fuel m' := by
  rw [runForInto, if_neg (by rw [hrunning]; exact Bool.false_ne_true), hstep]

theorem runForInto_of_stop (hrunning : m.halted = false)
    (hstep : stepInto p lim sink m = (m', some s)) (fuel : Nat) :
    runForInto p lim sink (fuel + 1) m = (m', some s) := by
  rw [runForInto, if_neg (by rw [hrunning]; exact Bool.false_ne_true), hstep]

theorem runFor_of_step (hrunning : m.halted = false)
    (hstep : step p lim m = (m', none)) (fuel : Nat) :
    runFor p lim (fuel + 1) m = runFor p lim fuel m' := by
  have hinto : stepInto p lim lim.sink m = (m', none) := hstep
  exact runForInto_of_step hrunning hinto fuel

theorem runFor_of_stop (hrunning : m.halted = false)
    (hstep : step p lim m = (m', some s)) (fuel : Nat) :
    runFor p lim (fuel + 1) m = (m', some s) := by
  have hinto : stepInto p lim lim.sink m = (m', some s) := hstep
  exact runForInto_of_stop hrunning hinto fuel

theorem runForInto_add (fuel fuel' : Nat)
    (h : runForInto p lim sink fuel m = (m', none)) :
    runForInto p lim sink (fuel + fuel') m =
      runForInto p lim sink fuel' m' := by
  induction fuel generalizing m with
  | zero =>
    cases h
    rw [Nat.zero_add]
  | succ fuel ih =>
    rw [Nat.succ_add]
    cases hhalted : m.halted with
    | true =>
      rw [runForInto_of_halted hhalted] at h ⊢
      cases h
      rw [runForInto_of_halted hhalted]
    | false =>
      rcases hstep : stepInto p lim sink m with ⟨next, _ | s⟩
      · rw [runForInto_of_step hhalted hstep] at h ⊢
        exact ih h
      · rw [runForInto_of_stop hhalted hstep] at h
        cases h

/-- A run that takes `n` steps: one after the other, until the machine has
halted or a step stops. -/
inductive RunsIn (p : Program) (lim : Limits) (sink : Sink) :
    Nat → Machine → Machine × Option Stop → Prop
  | halted {m : Machine} (h : m.halted = true) :
    RunsIn p lim sink 0 m (m, none)
  | stop {m m' : Machine} {s : Stop} (hrunning : m.halted = false)
    (hstep : stepInto p lim sink m = (m', some s)) :
    RunsIn p lim sink 1 m (m', some s)
  | step {n : Nat} {m m' : Machine} {r : Machine × Option Stop}
    (hrunning : m.halted = false)
    (hstep : stepInto p lim sink m = (m', none))
    (h : RunsIn p lim sink n m' r) : RunsIn p lim sink (n + 1) m r

/-- The number of steps is limited, so a run ends, and the number of steps left
is enough for it. -/
theorem exists_runsIn (p : Program) (lim : Limits) (sink : Sink)
    (hsteps : m.steps ≤ lim.maxSteps)
    (hfuel : lim.maxSteps < m.steps + fuel) :
    ∃ n, n + m.steps ≤ lim.maxSteps + 1 ∧
      RunsIn p lim sink n m (runForInto p lim sink fuel m) := by
  induction fuel generalizing m with
  | zero => omega
  | succ fuel ih =>
    cases hhalted : m.halted with
    | true =>
      rw [runForInto_of_halted hhalted]
      exact ⟨0, by omega, .halted hhalted⟩
    | false =>
      rcases hstep : stepInto p lim sink m with ⟨m', _ | s⟩
      · obtain ⟨hcount, hlimit⟩ := steps_of_stepInto hstep hhalted
        obtain ⟨n, hn, hruns⟩ := ih hlimit (by omega)
        rw [runForInto_of_step hhalted hstep]
        exact ⟨n + 1, by omega, .step hhalted hstep hruns⟩
      · rw [runForInto_of_stop hhalted hstep]
        exact ⟨1, by omega, .stop hhalted hstep⟩

/-- The run of a program ends after at most one step more than its limit. -/
theorem exists_runsIn_start (p : Program) (lim : Limits) (sink : Sink) :
    ∃ n, n ≤ lim.maxSteps + 1 ∧ RunsIn p lim sink n (start p)
      (runForInto p lim sink (lim.maxSteps + 1) (start p)) := by
  have hzero : (start p).steps = 0 := rfl
  obtain ⟨n, hn, hruns⟩ := exists_runsIn p lim sink
    (show (start p).steps ≤ lim.maxSteps by omega)
    (show lim.maxSteps < (start p).steps + (lim.maxSteps + 1) by omega)
  exact ⟨n, by omega, hruns⟩

theorem RunsIn.unique (h : RunsIn p lim sink n m r)
    (h' : RunsIn p lim sink n' m r') : r' = r := by
  induction h generalizing n' with
  | halted hhalted =>
    cases h' with
    | halted => rfl
    | stop hrunning | step hrunning => cases hhalted.symm.trans hrunning
  | stop hrunning hstep =>
    cases h' with
    | halted hhalted => cases hrunning.symm.trans hhalted
    | stop _ hstep' => exact hstep'.symm.trans hstep
    | step _ hstep' => cases hstep.symm.trans hstep'
  | step hrunning hstep _ ih =>
    cases h' with
    | halted hhalted => cases hrunning.symm.trans hhalted
    | stop _ hstep' => cases hstep.symm.trans hstep'
    | step _ hstep' hrest =>
      cases hstep.symm.trans hstep'
      exact ih hrest

/-- The end of a run from `first`: the machine has halted, or a step has not
ended normally. -/
def EndsIn (p : Program) (lim : Limits) (sink : Sink) (first : Machine) :
    Machine × Option Stop → Prop
  | (m, none) => Reaches p lim sink first m ∧ m.halted = true
  | (m, some s) => ∃ last, Reaches p lim sink first last ∧
      last.halted = false ∧ stepInto p lim sink last = (m, some s)

theorem RunsIn.endsIn (h : RunsIn p lim sink n m r)
    (hfirst : Reaches p lim sink first m) : EndsIn p lim sink first r := by
  induction h with
  | halted hhalted => exact ⟨hfirst, hhalted⟩
  | stop hrunning hstep => exact ⟨_, hfirst, hrunning, hstep⟩
  | step _ hstep _ ih => exact ih (hfirst.step hstep)

theorem fst_outcome (r : Machine × Option Stop) : (outcome r).1 = r.1 := by
  rcases r with ⟨m, _ | s⟩
  · rfl
  · rfl

theorem outcome_error (h : r.2 = some s) : (outcome r).2 = .error s := by
  rcases r with ⟨m, _ | s'⟩
  · cases h
  · cases h
    rfl

theorem eq_of_outcome_ok {v : Cell} (h : outcome r = (m, .ok v)) :
    r = (m, none) ∧ m.result = v := by
  rcases r with ⟨m', _ | s⟩
  · cases h
    exact ⟨rfl, rfl⟩
  · cases h

theorem eq_of_outcome_error (h : outcome r = (m, .error s)) :
    r = (m, some s) := by
  rcases r with ⟨m', _ | s'⟩
  · cases h
  · cases h
    rfl

theorem endsIn_start (p : Program) (lim : Limits) (sink : Sink) :
    EndsIn p lim sink (start p)
      (runForInto p lim sink (lim.maxSteps + 1) (start p)) := by
  obtain ⟨n, -, hruns⟩ := exists_runsIn_start p lim sink
  exact hruns.endsIn .refl

theorem reaches_of_runInto {v : Cell}
    (h : p.runInto lim sink = (m, .ok v)) :
    Reaches p lim sink (start p) m ∧ m.halted = true := by
  obtain ⟨hr, -⟩ := eq_of_outcome_ok h
  have hend := endsIn_start p lim sink
  rwa [hr] at hend

theorem last_of_runInto (h : p.runInto lim sink = (m, .error s)) :
    ∃ last, Reaches p lim sink (start p) last ∧ last.halted = false ∧
      stepInto p lim sink last = (m, some s) := by
  have hend := endsIn_start p lim sink
  rwa [eq_of_outcome_error h] at hend

theorem runInto_eq_ok
    (h : runForInto p lim sink (lim.maxSteps + 1) (start p) = (m, none)) :
    p.runInto lim sink = (m, .ok m.result) := by
  rw [Program.runInto, runInto, h, outcome]

theorem runInto_eq_error
    (h : (runForInto p lim sink (lim.maxSteps + 1) (start p)).2 = some s) :
    p.runInto lim sink = ((p.runInto lim sink).1, .error s) :=
  Prod.ext rfl (outcome_error h)

end

end Machine

end StackC
