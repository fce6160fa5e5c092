import StackC.Proofs.Frames
import StackC.Proofs.Limits

/-!
A machine in use: a program is loaded, and then the machine is stepped, run and
asked for strings, in any order. A run that succeeds gives the value of the
outermost return, if a call so far has come to it. A fault also halts the
machine, though, and a machine that has halted runs without an error: after a
fault in an earlier call a run succeeds with zero, and the program has returned
nothing.
-/

namespace StackC

/-- What can be asked of a machine. -/
inductive Call where
  | step
  | run
  | readString (addr : Cell)

namespace Call

/-- What a call does to a machine, and how it ends. -/
def perform (p : Program) (lim : Limits) (sink : Sink) :
    Call → Machine → Machine × Option Stop
  | .step, m => m.stepInto p lim sink
  | .run, m => m.runForInto p lim sink (lim.maxSteps + 1)
  | .readString addr, m =>
    match m.readString addr with
    | (m, .ok _) => (m, none)
    | (m, .error s) => (m, some s)

/-- A call on the machine `m` takes a step from the machine `last`. -/
def StepsFrom (p : Program) (lim : Limits) (sink : Sink) :
    Call → Machine → Machine → Prop
  | .step, m, last => last = m
  | .run, m, last =>
    ∃ k ≤ lim.maxSteps, m.runForInto p lim sink k = (last, none)
  | .readString _, _, _ => False

end Call

/-- The calls made so far, the last one first, each with the machine it was made
on, and the machine they leave. Neither a fault nor a breakdown ends it. -/
inductive Usage (p : Program) (lim : Limits) (sink : Sink) :
    List (Machine × Call) → Machine → Prop
  | start : Usage p lim sink [] (Machine.start p)
  | call {past : List (Machine × Call)} {m : Machine} (c : Call)
    (h : Usage p lim sink past m) :
    Usage p lim sink ((m, c) :: past) (c.perform p lim sink m).1

namespace Usage

/-- One of the calls has executed the return of the outermost frame, with the
value `v`. -/
def ReturnedWith (p : Program) (lim : Limits) (sink : Sink)
    (past : List (Machine × Call)) (v : Cell) : Prop :=
  ∃ m c last, (m, c) ∈ past ∧ c.StepsFrom p lim sink m last ∧
    last.AtLastReturn p lim.maxSteps v

def Failed (p : Program) (lim : Limits) (sink : Sink)
    (past : List (Machine × Call)) : Prop :=
  ∃ m c e, (m, c) ∈ past ∧ (c.perform p lim sink m).2 = some (.fault e)

end Usage

namespace Machine

/-- How a machine stands after what has happened to it: `returned` tells with
which value the outermost frame has returned, and `failed` whether there was a
fault. -/
structure Settled (m : Machine) (maxSteps : Nat) (returned : Cell → Prop)
    (failed : Prop) : Prop where
  closed : m.frames.size = 0 → m.halted = true ∧ ∀ w, returned w ↔ w = m.result
  unclosed : 0 < m.frames.size →
    m.result = 0 ∧ (∀ w, ¬ returned w) ∧ (m.halted = true → failed)
  steps : m.halted = false → m.steps ≤ maxSteps

section

variable {p : Program} {lim : Limits} {sink : Sink} {m m' : Machine}
  {s : Option Stop} {v w : Cell} {returned returned' : Cell → Prop}
  {failed failed' : Prop} {past : List (Machine × Call)}

variable {maxSteps : Nat}

theorem Settled.imp (h : m.Settled maxSteps returned failed)
    (hreturned : ∀ w, returned' w ↔ returned w) (hfailed : failed → failed') :
    m.Settled maxSteps returned' failed' where
  closed hnone :=
    ⟨(h.closed hnone).1, fun w => (hreturned w).trans ((h.closed hnone).2 w)⟩
  unclosed hsome := by
    obtain ⟨hzero, hopen, hfault⟩ := h.unclosed hsome
    exact ⟨hzero, fun w hw => hopen w ((hreturned w).mp hw), fun hhalted =>
      hfailed (hfault hhalted)⟩
  steps := h.steps

theorem settled_start (p : Program) (maxSteps : Nat) :
    (start p).Settled maxSteps (fun _ => False) False where
  closed hnone := by cases hnone
  unclosed _ := ⟨rfl, fun _ => id, fun hhalted => by cases hhalted⟩
  steps _ := Nat.zero_le _

theorem Settled.open_of_running (h : m.Settled maxSteps returned failed)
    (hrunning : m.halted = false) : 0 < m.frames.size := by
  by_contra hnone
  cases hrunning.symm.trans (h.closed (Nat.eq_zero_of_not_pos hnone)).1

theorem AtLastReturn.value_unique (h : m.AtLastReturn p maxSteps v)
    (h' : m.AtLastReturn p maxSteps w) : v = w := by
  obtain ⟨stack, hstack⟩ := h.value
  obtain ⟨stack', hstack'⟩ := h'.value
  cases hstack.symm.trans hstack'
  rfl

/-- A step from which the outermost frame does not return leaves it open, and
only a fault halts the machine. -/
theorem open_of_stepEffect (h : StepEffect p lim m (m', s))
    (hopen : 0 < m.frames.size)
    (hlast : ∀ v, ¬ m.AtLastReturn p lim.maxSteps v) :
    0 < m'.frames.size ∧ m'.result = m.result ∧
      (m'.halted = true → m.halted = true ∨ ∃ e, s = some (.fault e)) := by
  cases h with
  | halted hhalted => exact ⟨hopen, rfl, Or.inl⟩
  | outside | exhausted => exact ⟨hopen, rfl, fun _ => Or.inr ⟨_, rfl⟩⟩
  | instr hrunning hpc hi hsteps heffect =>
    cases heffect with
    | fault => exact ⟨hopen, rfl, fun _ => Or.inr ⟨_, rfl⟩⟩
    | crash | compute | print | stage | store | storeLocal | reserve =>
      exact ⟨hopen, rfl, Or.inl⟩
    | call => exact ⟨by rw [Array.size_push]; exact Nat.succ_pos _, rfl, Or.inl⟩
    | leave _ _ _ hmore =>
      exact ⟨by rw [Array.size_pop]; exact Nat.sub_pos_of_lt hmore, rfl, Or.inl⟩
    | finish hop _ hstack hone =>
      cases hlast _ ⟨hrunning, ⟨hpc, _, hi, hop⟩, hsteps, hone, _, hstack⟩

theorem steps_of_stepEffect (h : StepEffect p lim m (m', s))
    (hsteps : m.halted = false → m.steps ≤ lim.maxSteps) :
    m'.halted = false → m'.steps ≤ lim.maxSteps := by
  cases h with
  | halted => exact hsteps
  | outside | exhausted => exact fun hrunning => by cases hrunning
  | instr _ _ _ hbelow heffect =>
    cases heffect with
    | fault | crash | compute | print | stage | store | storeLocal | reserve
    | call | leave | finish =>
      exact fun _ => hbelow

theorem Settled.of_step (h : m.Settled lim.maxSteps returned failed)
    (hstep : stepInto p lim sink m = (m', s)) :
    m'.Settled lim.maxSteps (fun w => returned w ∨
      m.AtLastReturn p lim.maxSteps w) (failed ∨ ∃ e, s = some (.fault e)) := by
  have heffect := stepEffect_stepInto hstep
  by_cases hlast : ∃ v, m.AtLastReturn p lim.maxSteps v
  · obtain ⟨v, hv⟩ := hlast
    obtain ⟨final, hfinal, hhalted, hnone, hresult⟩ := hv.exists_stepInto sink
    cases hfinal.symm.trans hstep
    obtain ⟨-, hbefore, -⟩ := h.unclosed (h.open_of_running hv.running)
    refine ⟨fun _ => ⟨hhalted, fun w => ?_⟩, fun hsome => ?_,
      fun hrunning => ?_⟩
    · rw [hresult]
      constructor
      · rintro (hw | hw)
        · exact absurd hw (hbefore w)
        · exact hw.value_unique hv
      · rintro rfl
        exact Or.inr hv
    · omega
    · cases hrunning.symm.trans hhalted
  · have hnot : ∀ v, ¬ m.AtLastReturn p lim.maxSteps v :=
      fun v hv => hlast ⟨v, hv⟩
    have hsame : ∀ w, returned w ∨ m.AtLastReturn p lim.maxSteps w ↔
        returned w := fun w => or_iff_left (hnot w)
    have hsteps := steps_of_stepEffect heffect h.steps
    rcases Nat.eq_zero_or_pos m.frames.size with hnone | hopen
    · -- The outermost frame has been left before: the machine has halted and
      -- stays as it is.
      rw [stepInto_of_halted (h.closed hnone).1] at hstep
      cases hstep
      exact h.imp hsame Or.inl
    · obtain ⟨hopen', hresult, hhalts⟩ := open_of_stepEffect heffect hopen hnot
      obtain ⟨hzero, hbefore, hfault⟩ := h.unclosed hopen
      refine ⟨fun hnone => by omega, fun _ =>
        ⟨hresult.trans hzero, fun w hw => ?_, fun hhalted => ?_⟩, hsteps⟩
      · exact hbefore w ((hsame w).mp hw)
      · exact (hhalts hhalted).imp hfault id

/-- The same for a number of steps. The induction is on this number; the steps
of the run are the first one and those of the run from the next machine. -/
theorem Settled.of_runForInto (fuel : Nat)
    (h : m.Settled lim.maxSteps returned failed) :
    (runForInto p lim sink fuel m).1.Settled lim.maxSteps (fun w => returned w ∨
      ∃ last, (∃ k < fuel, runForInto p lim sink k m = (last, none)) ∧
      last.AtLastReturn p lim.maxSteps w) (failed ∨
      ∃ e, (runForInto p lim sink fuel m).2 = some (.fault e)) := by
  induction fuel generalizing m returned failed with
  | zero =>
    refine h.imp (fun w => or_iff_left ?_) Or.inl
    rintro ⟨last, ⟨k, hk, -⟩, -⟩
    cases hk
  | succ fuel ih =>
    by_cases hhalted : m.halted = true
    · rw [runForInto_of_halted hhalted]
      refine h.imp (fun w => or_iff_left ?_) Or.inl
      rintro ⟨last, ⟨k, -, hk⟩, hlast⟩
      rw [runForInto_of_halted hhalted] at hk
      cases hk
      cases hlast.running.symm.trans hhalted
    · have hrunning : m.halted = false := Bool.eq_false_iff.mpr hhalted
      rcases hstep : stepInto p lim sink m with ⟨m', _ | s⟩
      · rw [runForInto_of_step hrunning hstep]
        refine (ih (h.of_step hstep)).imp (fun w => ?_) ?_
        · rw [or_assoc]
          refine or_congr Iff.rfl ⟨?_, ?_⟩
          · rintro ⟨last, ⟨k, hk, hto⟩, hlast⟩
            cases k with
            | zero =>
              cases hto
              exact Or.inl hlast
            | succ k =>
              rw [runForInto_of_step hrunning hstep] at hto
              exact Or.inr ⟨last, ⟨k, Nat.lt_of_succ_lt_succ hk, hto⟩, hlast⟩
          · rintro (hlast | ⟨last, ⟨k, hk, hto⟩, hlast⟩)
            · exact ⟨m, ⟨0, Nat.succ_pos _, rfl⟩, hlast⟩
            · have hto' := (runForInto_of_step hrunning hstep k).trans hto
              exact ⟨last, ⟨k + 1, Nat.succ_lt_succ hk, hto'⟩, hlast⟩
        · rintro ((hfailed | ⟨e, he⟩) | hfault)
          · exact Or.inl hfailed
          · cases he
          · exact Or.inr hfault
      · rw [runForInto_of_stop hrunning hstep]
        refine (h.of_step hstep).imp
          (fun w => or_congr Iff.rfl ⟨?_, fun hlast => ?_⟩) id
        · rintro ⟨last, ⟨k, -, hto⟩, hlast⟩
          cases k with
          | zero =>
            cases hto
            exact hlast
          | succ k =>
            rw [runForInto_of_stop hrunning hstep] at hto
            cases hto
        · exact ⟨m, ⟨0, Nat.succ_pos _, rfl⟩, hlast⟩

/-- A string that cannot be read halts the machine with a fault; nothing else
happens to it. -/
theorem Settled.of_readString (h : m.Settled lim.maxSteps returned failed)
    (addr : Cell) :
    ((Call.readString addr).perform p lim sink m).1.Settled lim.maxSteps
      returned (failed ∨ ∃ e, ((Call.readString addr).perform p lim sink m).2 =
        some (.fault e)) := by
  simp only [Call.perform, readString]
  cases stringAt m.memory addr with
  | ok => exact h.imp (fun _ => Iff.rfl) Or.inl
  | error f =>
    refine ⟨fun hnone => ⟨rfl, (h.closed hnone).2⟩, fun hopen => ?_,
      fun hrunning => by cases hrunning⟩
    obtain ⟨hzero, hbefore, -⟩ := h.unclosed hopen
    exact ⟨hzero, hbefore, fun _ => Or.inr ⟨_, rfl⟩⟩

theorem Settled.of_perform (h : m.Settled lim.maxSteps returned failed)
    (c : Call) :
    (c.perform p lim sink m).1.Settled lim.maxSteps (fun w => returned w ∨
      ∃ last, c.StepsFrom p lim sink m last ∧
      last.AtLastReturn p lim.maxSteps w) (failed ∨
      ∃ e, (c.perform p lim sink m).2 = some (.fault e)) := by
  cases c with
  | step =>
    refine (h.of_step (Prod.mk.eta).symm).imp (fun w => or_congr Iff.rfl ?_) id
    exact exists_eq_left
  | run =>
    refine (h.of_runForInto (lim.maxSteps + 1)).imp (fun w => ?_) id
    simp only [Call.StepsFrom, Nat.lt_succ_iff]
  | readString addr =>
    refine (h.of_readString addr).imp (fun w => or_iff_left ?_) id
    rintro ⟨last, hnever, -⟩
    exact hnever

end

end Machine

namespace Usage

variable {p : Program} {lim : Limits} {sink : Sink} {m m' : Machine} {v : Cell}
  {past : List (Machine × Call)}

theorem returnedWith_cons (c : Call) :
    ReturnedWith p lim sink ((m, c) :: past) v ↔
      ReturnedWith p lim sink past v ∨
        ∃ last, c.StepsFrom p lim sink m last ∧
          last.AtLastReturn p lim.maxSteps v := by
  constructor
  · rintro ⟨b, c', last, hmem, hsteps, hlast⟩
    rcases List.mem_cons.mp hmem with heq | hpast
    · cases heq
      exact Or.inr ⟨last, hsteps, hlast⟩
    · exact Or.inl ⟨b, c', last, hpast, hsteps, hlast⟩
  · rintro (⟨b, c', last, hpast, hsteps, hlast⟩ | ⟨last, hsteps, hlast⟩)
    · exact ⟨b, c', last, List.mem_cons_of_mem _ hpast, hsteps, hlast⟩
    · exact ⟨m, c, last, List.mem_cons_self, hsteps, hlast⟩

/-- After any calls the machine shows what has happened: by induction on the
calls. -/
theorem settled (h : Usage p lim sink past m) :
    m.Settled lim.maxSteps (ReturnedWith p lim sink past)
      (Failed p lim sink past) := by
  induction h with
  | start =>
    refine (Machine.settled_start p lim.maxSteps).imp
      (fun w => iff_false_intro ?_) False.elim
    rintro ⟨_, _, _, hmem, -⟩
    cases hmem
  | @call past m c _ ih =>
    refine (ih.of_perform c).imp (fun w => returnedWith_cons c) ?_
    rintro (⟨b, c', e, hpast, he⟩ | ⟨e, he⟩)
    · exact ⟨b, c', e, List.mem_cons_of_mem _ hpast, he⟩
    · exact ⟨m, c, e, List.mem_cons_self, he⟩

end Usage

namespace Machine

variable {p : Program} {lim : Limits} {sink : Sink} {m m' : Machine} {v : Cell}

/-- A run that succeeds leaves a machine that has halted. -/
theorem halted_of_runForInto
    (hsteps : m.halted = false → m.steps ≤ lim.maxSteps)
    (hrun : m.runForInto p lim sink (lim.maxSteps + 1) = (m', none)) :
    m'.halted = true := by
  by_cases hhalted : m.halted = true
  · rw [runForInto_of_halted hhalted] at hrun
    cases hrun
    exact hhalted
  · obtain ⟨n, -, hruns⟩ :=
      exists_runsIn p lim sink (hsteps (Bool.eq_false_iff.mpr hhalted))
        (show lim.maxSteps < m.steps + (lim.maxSteps + 1) by omega)
    have hend := hruns.endsIn .refl
    rw [hrun] at hend
    exact hend.2

end Machine

/-- What a run that succeeds tells, after any calls on the machine. Either the
outermost frame has been left, in this call or an earlier one, and the result is
the value of that return. Or an earlier call has ended with a fault: then the
result is zero, and the outermost frame has not been left. -/
theorem Program.result_of_successful_run {p : Program} {lim : Limits}
    {sink : Sink} {m m' : Machine} {v : Cell} {past : List (Machine × Call)}
    (h : Usage p lim sink past m) (hrun : m.runInto p lim sink = (m', .ok v)) :
    (m'.frames.size = 0 ∧
      ∀ w, Usage.ReturnedWith p lim sink ((m, .run) :: past) w ↔ w = v) ∨
    (0 < m'.frames.size ∧ v = 0 ∧
      (∀ w, ¬ Usage.ReturnedWith p lim sink ((m, .run) :: past) w) ∧
      Usage.Failed p lim sink past) := by
  obtain ⟨hend, hresult⟩ := Machine.eq_of_outcome_ok hrun
  have hhalted := Machine.halted_of_runForInto h.settled.steps hend
  have hperform : Call.run.perform p lim sink m = (m', none) := hend
  have hsettled := (h.call .run).settled
  rw [hperform] at hsettled
  rcases Nat.eq_zero_or_pos m'.frames.size with hnone | hopen
  · exact Or.inl ⟨hnone, fun w => hresult ▸ (hsettled.closed hnone).2 w⟩
  · obtain ⟨hzero, hbefore, hfailed⟩ := hsettled.unclosed hopen
    refine Or.inr ⟨hopen, hresult ▸ hzero, hbefore, ?_⟩
    -- This run has not ended with a fault, so it was an earlier call.
    obtain ⟨b, c, e, hmem, he⟩ := hfailed hhalted
    rcases List.mem_cons.mp hmem with heq | hpast
    · cases heq
      rw [hperform] at he
      cases he
    · exact ⟨b, c, e, hpast, he⟩

/-- Code that divides six by a number and returns the quotient. -/
def sixOver (n : Cell) : Program where
  code := #[{ op := .push, operand := 6 }, { op := .push, operand := n },
    { op := .arith .div }, { op := .ret }]
  data := #[0]
  entry := 0
  funcs := .ofList []

/-- The first run returns three. A string is then read where there is none, and
still the next run gives the value that was returned. -/
theorem Program.result_of_successful_run_sixOver :
    let p := sixOver 2
    let lim : Limits := { maxSteps := 10 }
    let sink : Sink := fun _ => true
    let m₁ := (Call.run.perform p lim sink (Machine.start p)).1
    let m₂ := ((Call.readString (-1)).perform p lim sink m₁).1
    let past := [(m₁, Call.readString (-1)), (Machine.start p, .run)]
    Usage p lim sink past m₂ ∧ Usage.Failed p lim sink past ∧
      m₂.runInto p lim sink = (m₂, .ok 3) ∧ m₂.frames.size = 0 ∧ ∀ w,
      Usage.ReturnedWith p lim sink ((m₂, .run) :: past) w ↔ w = 3 := by
  intro p lim sink m₁ m₂ past
  have husage : Usage p lim sink past m₂ := .call _ (.call _ .start)
  have hfailed : Usage.Failed p lim sink past :=
    ⟨m₁, .readString (-1), { pc := 4, fault := .badAddress (-1) },
      List.mem_cons_self, by decide +kernel⟩
  have hrun : m₂.runInto p lim sink = (m₂, .ok 3) := by decide +kernel
  rcases result_of_successful_run husage hrun with
      ⟨hnone, hvalue⟩ | ⟨-, hzero, -⟩
  · exact ⟨husage, hfailed, hrun, hnone, hvalue⟩
  · cases hzero

/-- A run that succeeds need not mean that the program has returned: the first
run stops at a division by zero, and the second one succeeds. -/
theorem Program.run_succeeds_after_fault :
    let p := sixOver 0
    let lim : Limits := { maxSteps := 10 }
    let sink : Sink := fun _ => true
    let m := (Call.run.perform p lim sink (Machine.start p)).1
    Usage p lim sink [(Machine.start p, .run)] m ∧
      (Machine.start p).runInto p lim sink =
      (m, .error (.fault { pc := 3, fault := .divisionByZero })) ∧
      m.runInto p lim sink = (m, .ok 0) ∧ ∀ w,
      ¬ Usage.ReturnedWith p lim sink
      [(m, .run), (Machine.start p, .run)] w := by
  intro p lim sink m
  have husage : Usage p lim sink [(Machine.start p, .run)] m := .call _ .start
  have hagain : (Call.run.perform p lim sink m).1 = m := by decide +kernel
  have hsettled := hagain ▸ (husage.call .run).settled
  exact ⟨husage, by decide +kernel, by decide +kernel,
    (hsettled.unclosed (by decide +kernel)).2.1⟩

end StackC
