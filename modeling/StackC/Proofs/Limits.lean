import StackC.Proofs.Effects

/-!
Limits only cut runs short. Two runs of a program under different limits, with
the same output, take the same steps until one of them is stopped at a limit. So
wider limits do not change a run that ends by itself, and a run that is cut off
has written the beginning of what the longer run writes.
-/

namespace StackC

/-- A fault that a limit on steps or on calls causes. -/
def Fault.isBound : Fault → Bool
  | .stepLimit _ | .callDepth _ => true
  | _ => false

/-- A run was cut off at a limit. -/
def Stop.isBound : Stop → Bool
  | .fault e => e.fault.isBound
  | .crash => false

namespace Machine

section

variable {p : Program} {lim lim' : Limits} {sink : Sink} {m m' : Machine}
  {r r' : Machine × Option Stop} {n n' : Nat}

/-- What has been written stays. -/
theorem output_of_stepEffect (h : StepEffect p lim m r) :
    m.output.toList <+: r.1.output.toList := by
  cases h with
  | halted | outside | exhausted => exact List.prefix_rfl
  | instr _ _ _ _ heffect =>
    cases heffect with
    | print stack s =>
      rw [Array.toList_appendList]
      exact List.prefix_append _ _
    | fault | crash | compute | stage | store | storeLocal | reserve | call
    | leave | finish =>
      exact List.prefix_rfl

theorem output_of_stepInto (hstep : stepInto p lim sink m = r) :
    m.output.toList <+: r.1.output.toList :=
  output_of_stepEffect (stepEffect_stepInto hstep)

theorem RunsIn.output_prefix (h : RunsIn p lim sink n m r) :
    m.output.toList <+: r.1.output.toList := by
  induction h with
  | halted => exact List.prefix_rfl
  | stop _ hstep => exact output_of_stepInto hstep
  | step _ hstep _ ih => exact (output_of_stepInto hstep).trans ih

/-- A step is cut off at a limit; what has been written stays. -/
def CutOff (m : Machine) (r : Machine × Option Stop) : Prop :=
  ∃ m' s, r = (m', some s) ∧ s.isBound = true ∧ m'.output = m.output

/-- An instruction does the same under wider limits, or it is cut off. -/
theorem exec_wider (lim lim' : Limits) (hwrite : lim'.canWrite = lim.canWrite)
    (hdepth : lim.maxDepth ≤ lim'.maxDepth) (i : Instr) (m : Machine) :
    exec lim' i m = exec lim i m ∨ m.CutOff (exec lim i m) := by
  obtain ⟨op, operand⟩ := i
  cases op with
  | call =>
    by_cases hlimit : lim.maxDepth ≤ m.frames.size
    · simp only [exec, if_pos hlimit]
      exact Or.inr ⟨_, _, rfl, rfl, rfl⟩
    · left
      simp only [exec, if_neg hlimit,
        if_neg (show ¬ lim'.maxDepth ≤ m.frames.size by omega)]
  | printf =>
    left
    simp only [exec, write, hwrite]
  | _ => exact Or.inl rfl

/-- A step does the same under wider limits, or it is cut off. -/
theorem stepInto_wider (hsteps : lim.maxSteps ≤ lim'.maxSteps)
    (hdepth : lim.maxDepth ≤ lim'.maxDepth) (p : Program) (sink : Sink)
    (m : Machine) :
    stepInto p lim' sink m = stepInto p lim sink m ∨
      m.CutOff (stepInto p lim sink m) := by
  simp only [stepInto, step]
  split
  next => exact Or.inl rfl
  next =>
    split
    next => exact Or.inl rfl
    next =>
      split
      next => exact Or.inl rfl
      next i _ =>
        by_cases hlimit : lim.maxSteps < m.steps + 1
        · rw [if_pos hlimit]
          exact Or.inr ⟨_, _, rfl, rfl, rfl⟩
        · rw [if_neg hlimit, if_neg (by omega)]
          exact exec_wider { lim with canWrite := sink m }
            { lim' with canWrite := sink m } rfl hdepth i _

/-- Runs under wider limits go on as long. -/
theorem RunsIn.wider (h : RunsIn p lim sink n m r)
    (hsteps : lim.maxSteps ≤ lim'.maxSteps)
    (hdepth : lim.maxDepth ≤ lim'.maxDepth)
    (hfree : ∀ s, r.2 = some s → s.isBound = false) :
    RunsIn p lim' sink n m r := by
  induction h with
  | halted hhalted => exact .halted hhalted
  | @stop m m' s hrunning hstep =>
    rcases stepInto_wider hsteps hdepth p sink m with
        hsame | ⟨m₁, s₁, hcut, hbound, -⟩
    · exact .stop hrunning (hsame.trans hstep)
    · cases hstep.symm.trans hcut
      cases (hfree s rfl).symm.trans hbound
  | @step n m m' r hrunning hstep _ ih =>
    rcases stepInto_wider hsteps hdepth p sink m with hsame | ⟨m₁, s₁, hcut, -⟩
    · exact .step hrunning (hsame.trans hstep) (ih hfree)
    · cases hstep.symm.trans hcut

/-- A run has written a part of what the run under wider limits writes. -/
theorem RunsIn.output_wider (h : RunsIn p lim sink n m r)
    (hsteps : lim.maxSteps ≤ lim'.maxSteps)
    (hdepth : lim.maxDepth ≤ lim'.maxDepth) (h' : RunsIn p lim' sink n' m r') :
    r.1.output.toList <+: r'.1.output.toList := by
  induction h generalizing n' with
  | halted => exact h'.output_prefix
  | @stop m m' s hrunning hstep =>
    rcases stepInto_wider hsteps hdepth p sink m with
        hsame | ⟨m₁, s₁, hcut, -, houtput⟩
    · cases (RunsIn.stop hrunning (hsame.trans hstep)).unique h'
      exact List.prefix_rfl
    · cases hstep.symm.trans hcut
      rw [houtput]
      exact h'.output_prefix
  | @step n m m' r hrunning hstep _ ih =>
    rcases stepInto_wider hsteps hdepth p sink m with hsame | ⟨m₁, s₁, hcut, -⟩
    · have hstep' := hsame.trans hstep
      cases h' with
      | halted hhalted => cases hrunning.symm.trans hhalted
      | stop _ hstop => cases hstep'.symm.trans hstop
      | step _ hnext hrest =>
        cases hstep'.symm.trans hnext
        exact ih hrest
    · cases hstep.symm.trans hcut

end

end Machine

/-- Limits only cut runs short, with any output. A run ends after at most one
step more than its limit. If it gives a result, or stops for another reason than
a limit, it is the same run under wider limits, with the same output and the
same number of steps; and in any case it has written the beginning of what the
run under wider limits writes. The plain run is the one with an output that
takes everything, or nothing. -/
theorem Program.limits_only_cut_runs_short (p : Program) (sink : Sink)
    {lim lim' : Limits} (hsteps : lim.maxSteps ≤ lim'.maxSteps)
    (hdepth : lim.maxDepth ≤ lim'.maxDepth) :
    (∃ n r, n ≤ lim.maxSteps + 1 ∧
      Machine.RunsIn p lim sink n (Machine.start p) r ∧
      p.runInto lim sink = Machine.outcome r) ∧
    ((∀ s, (p.runInto lim sink).2 = .error s → s.isBound = false) →
      p.runInto lim' sink = p.runInto lim sink) ∧
    (p.runInto lim sink).1.output.toList <+:
      (p.runInto lim' sink).1.output.toList ∧
    ((∀ m, sink m = lim.canWrite) → p.runInto lim sink = p.run lim) := by
  obtain ⟨n, hn, hruns⟩ := Machine.exists_runsIn_start p lim sink
  obtain ⟨n', -, hruns'⟩ := Machine.exists_runsIn_start p lim' sink
  refine ⟨⟨n, _, hn, hruns, rfl⟩, fun hfree => ?_, ?_, fun hsink => ?_⟩
  · have hwider :=
      hruns.wider hsteps hdepth fun s hs => hfree s (Machine.outcome_error hs)
    exact congrArg Machine.outcome (hwider.unique hruns')
  · simp only [runInto, Machine.runInto, Machine.fst_outcome]
    exact hruns.output_wider hsteps hdepth hruns'
  · obtain rfl : sink = lim.sink := funext hsink
    rfl

/-- Code that writes the letter `a` again and again. -/
def endlessWriting : Program where
  code := #[{ op := .push, operand := 1 }, { op := .printf, operand := 1 },
    { op := .jump, operand := 0 }]
  data := #[0, 97, 0]
  entry := 0
  funcs := .ofList []

/-- A limit of four steps cuts the run off after one letter. Under a limit of a
hundred steps the output ends it, and so it does under wider limits. -/
theorem Program.limits_only_cut_runs_short_endlessWriting :
    let four : Limits := { maxSteps := 4 }
    let hundred : Limits := { maxSteps := 100 }
    let thousand : Limits := { maxSteps := 1000 }
    (endlessWriting.runInto four (.upTo 2)).1.output = #[97] ∧
    (endlessWriting.runInto four (.upTo 2)).1.output.toList <+:
    (endlessWriting.runInto hundred (.upTo 2)).1.output.toList ∧
    (endlessWriting.runInto hundred (.upTo 2)).1.output = #[97, 97] ∧
    (endlessWriting.runInto hundred (.upTo 2)).2 =
    .error (.fault { pc := 2, fault := .outputClosed }) ∧
    endlessWriting.runInto thousand (.upTo 2) =
    endlessWriting.runInto hundred (.upTo 2) := by
  intro four hundred thousand
  have hstop : (endlessWriting.runInto hundred (.upTo 2)).2 =
      .error (.fault { pc := 2, fault := .outputClosed }) := by decide +kernel
  have hfree : ∀ s, (endlessWriting.runInto hundred (.upTo 2)).2 = .error s →
      s.isBound = false := by
    intro s hs
    rw [hstop] at hs
    cases hs
    rfl
  obtain ⟨-, -, hshort, -⟩ :=
    limits_only_cut_runs_short endlessWriting (.upTo 2)
      (show four.maxSteps ≤ hundred.maxSteps by decide) (by decide)
  obtain ⟨-, hsame, -⟩ := limits_only_cut_runs_short endlessWriting (.upTo 2)
    (show hundred.maxSteps ≤ thousand.maxSteps by decide) (by decide)
  exact ⟨by decide +kernel, hshort, by decide +kernel, hstop, hsame hfree⟩

end StackC
