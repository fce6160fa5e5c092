import StackC.Proofs.Activations

/-!
The calling convention. However calls nest between a call and its return, the
caller gets back its own values on the operand stack with one result on top, and
the memory as long as it was, at the instruction after the call. A run that ends
normally leaves no values and no frames behind.
-/

namespace StackC

namespace Machine

/-- A machine that has halted after a normal run. -/
structure Finished (m : Machine) (bottom : Nat) : Prop where
  halted : m.halted = true
  stack : m.stack = []
  memory : m.memory.size = bottom

end Machine

theorem Pool.size_le_addAll (pool : Pool) (ss : List Bytes) :
    pool.data.size ≤ (pool.addAll ss).data.size := by
  induction ss generalizing pool with
  | nil => exact Nat.le_refl _
  | cons s ss ih =>
    have hone : pool.data.size ≤ (pool.intern s).2.data.size := by
      simp only [intern]
      split
      · exact Nat.le_refl _
      · rw [Machine.size_appendList]
        omega
    exact Nat.le_trans hone (ih _)

/-- The data of a program always has the cell of the null address. -/
theorem Program.Places.data_pos {p : Program} {fs : List Function}
    (h : p.Places fs) : 0 < p.data.size := by
  rw [h.data]
  exact Pool.size_le_addAll {} _

section

variable {p : Program} {fs : List Function} {lim : Limits} {sink : Sink}
  {m m' : Machine}

namespace Machine

theorem memory_start (h : 0 < p.data.size) : (start p).memory = p.data := by
  have hne : p.data.isEmpty = false := by
    rw [Array.isEmpty_eq_false_iff]
    rintro hempty
    rw [hempty] at h
    cases h
  simp [start, hne]

/-- A run starts with one activation, that of `main`. -/
theorem active_start (hp : p.Steady fs) :
    ∃ a, (start p).Active (p.link fs) fs p.data.size a [] ∧
      p.entry = Int64.ofNat a.start := by
  obtain ⟨f, hf, hname, hparams⟩ := hp.places.main
  obtain ⟨first, last, hlaid⟩ := hp.places.laid.exists_start hf
  have hentry : p.entry = Int64.ofNat first := by
    have := hlaid.entry
    rw [hname] at this
    simpa [Program.link, hp.places.entry] using this
  have hmemory := memory_start hp.places.data_pos
  refine ⟨{ fn := f, start := first, stop := last, values := []
            frame := { base := p.data.size, count := 0, returnTo := -1 } },
              ?_, hentry⟩
  refine ⟨rfl, ?_, rfl, ⟨hf, hlaid, by simp [hparams]⟩,
    .entering ?_ rfl rfl ?_, .none⟩
  · have hbase :
        (start p).frames =
        #[{ base := (start p).memory.size, count := 0, returnTo := -1 }] := rfl
    rw [hbase, hmemory]
    rfl
  · have hpc : (start p).pc = p.entry.toInt := rfl
    rw [hpc, hentry,
      Int64.toInt_ofNat_of_lt (Nat.lt_trans hlaid.start_lt hp.size)]
  · rw [hmemory]
    rfl

/-- Whatever a run reaches has activations, or it has halted with nothing
left. -/
theorem active_of_reaches (hp : p.Steady fs)
    (h : Reaches p lim sink (start p) m) :
    (∃ a rest, m.Active (p.link fs) fs p.data.size a rest) ∨
      m.Finished p.data.size := by
  obtain ⟨way, h⟩ := h
  induction h with
  | refl =>
    obtain ⟨a, hactive, -⟩ := active_start hp
    exact Or.inl ⟨a, [], hactive⟩
  | step _ hrunning hstep ih =>
    rcases ih with ⟨a, rest, hactive⟩ | hfinished
    · obtain ⟨i, -, hmoves⟩ := hactive.moves hp hstep
      cases hmoves with
      | inner _ _ _ h => exact Or.inl ⟨_, _, h⟩
      | call _ _ h => exact Or.inl ⟨_, _, h⟩
      | ret _ _ h => exact Or.inl ⟨_, _, h⟩
      | halt _ hhalted _ hstack hmemory =>
        exact Or.inr ⟨hhalted, hstack, hmemory⟩
    · cases hfinished.halted.symm.trans hrunning

variable {bottom : Nat} {a : Activation} {rest : List Activation}
  {last : Machine}

theorem Active.size_frames {L : Link} (h : m.Active L fs bottom a rest) :
    m.frames.size = rest.length + 1 := by
  rw [← Array.length_toList, h.frames]
  simp

/-- While a call is open, the activations that were there when it began stay as
they are, and the call keeps the address that it returns to. -/
theorem Active.of_reachesInside (hp : p.Steady fs) {b : Activation}
    (h : m.Active (p.link fs) fs bottom b (a :: rest))
    (hinside : ReachesInside p lim sink (rest.length + 1) m m') :
    ∃ c inner, m'.Active (p.link fs) fs bottom c (inner ++ a :: rest) ∧
      ((c :: inner).map (·.frame.returnTo)).getLast? =
        some b.frame.returnTo := by
  induction hinside using ReachesInside.induction with
  | refl => exact ⟨b, [], h, rfl⟩
  | step _ hstep hdepth ih =>
    obtain ⟨c, inner, hactive, hlast⟩ := ih
    obtain ⟨i, -, hmoves⟩ := hactive.moves hp hstep
    generalize hwaiting : inner ++ a :: rest = waiting at hmoves
    cases hmoves with
    | inner vs _ _ h =>
      exact ⟨{ c with values := vs }, inner, hwaiting ▸ h, hlast⟩
    | call _ _ h =>
      refine ⟨_, c :: inner, by rw [List.cons_append, hwaiting]; exact h, ?_⟩
      simpa using hlast
    | ret _ _ h =>
      cases inner with
      | nil =>
        cases hwaiting
        have := h.size_frames
        omega
      | cons e inner =>
        cases hwaiting
        refine ⟨_, inner, h, ?_⟩
        simpa using hlast
    | halt => simp at hwaiting

/-- When a call has returned, the caller has its own values back, and one result
on top of them. -/
theorem Active.of_return (hp : p.Steady fs) {b : Activation}
    (h : m.Active (p.link fs) fs bottom b (a :: rest))
    (hinside : ReachesInside p lim sink (rest.length + 1) m last)
    (hstep : stepInto p lim sink last = (m', none))
    (hdepth : m'.frames.size = rest.length + 1) :
    ∃ v, m'.Active (p.link fs) fs bottom
      { a with values := v :: a.values } rest ∧
    m'.pc = b.frame.returnTo ∧ m'.memory.size = a.top ∧
    ∃ i, p.code[last.pc.toNat]? = some i ∧ i.op = .ret := by
  obtain ⟨c, inner, hactive, hlast⟩ := h.of_reachesInside hp hinside
  obtain ⟨i, hi, hmoves⟩ := hactive.moves hp hstep
  generalize hwaiting : inner ++ a :: rest = waiting at hmoves
  -- Only a return of the call itself leads back to the number of frames there
  -- was before it.
  cases hmoves with
  | inner _ _ _ h =>
    have := h.size_frames
    rw [← hwaiting, List.length_append, List.length_cons] at this
    omega
  | call _ _ h =>
    have := h.size_frames
    rw [List.length_cons, ← hwaiting, List.length_append, List.length_cons]
      at this
    omega
  | ret v hop h hpc hmemory =>
    cases inner with
    | nil =>
      cases hwaiting
      have hreturn : c.frame.returnTo = b.frame.returnTo := by simpa using hlast
      exact ⟨v, h, hpc.trans hreturn, hmemory.trans hactive.below.of_cons.1,
        i, hi, hop⟩
    | cons e inner =>
      cases hwaiting
      have hframes : m'.frames.size = (inner ++ a :: rest).length + 1 :=
        h.size_frames
      rw [List.length_append, List.length_cons] at hframes
      omega
  | halt => simp at hwaiting

/-- A call from beginning to end: the instruction at `m` takes `n` arguments
from the stack, the next one enters the function, and the step from `last` is
the first one after which no more frames are open than at `m`. -/
structure CompletesCall (p : Program) (lim : Limits) (sink : Sink) (n : Nat)
    (m taken entered last m' : Machine) : Prop where
  frame : ∃ i, p.code[m.pc.toNat]? = some i ∧ i.op = .frame ∧
    i.operand.toInt = n
  take : stepInto p lim sink m = (taken, none)
  enter : stepInto p lim sink taken = (entered, none)
  inside : ReachesInside p lim sink m.frames.size entered last
  leave : stepInto p lim sink last = (m', none)
  depth : m'.frames.size = m.frames.size

/-- A halted machine does not begin a call. -/
theorem CompletesCall.running {n : Nat} {taken entered : Machine}
    (h : CompletesCall p lim sink n m taken entered last m') :
    m.halted = false := by
  cases hhalted : m.halted with
  | false => rfl
  | true =>
    have hstay : stepInto p lim sink m = (m, none) := stepInto_of_halted hhalted
    obtain ⟨rfl, -⟩ := Prod.mk.inj (hstay.symm.trans h.take)
    obtain ⟨rfl, -⟩ := Prod.mk.inj (hstay.symm.trans h.enter)
    exact absurd h.inside.depth_lt (Nat.lt_irrefl _)

/-- What a call does to the activation that makes it: `n` of its values give way
to the result. -/
theorem Active.of_completesCall (hp : p.Steady fs) {n : Nat}
    {taken entered : Machine} (h : m.Active (p.link fs) fs bottom a rest)
    (hcall : CompletesCall p lim sink n m taken entered last m') :
    n ≤ a.values.length ∧
      (∃ v, m'.Active (p.link fs) fs bottom
        { a with values := v :: a.values.drop n } rest) ∧
      m'.pc = taken.pc + 1 ∧ m'.memory.size = m.memory.size ∧
      (∃ f ∈ fs, p.code[taken.pc.toNat]? =
        some { op := .call, operand := (p.link fs).entry f.name } ∧
        f.params.length = n) ∧
      ∃ i, p.code[last.pc.toNat]? = some i ∧ i.op = .ret := by
  obtain ⟨i, hi, hop, hcount⟩ := hcall.frame
  obtain ⟨i', -, hi', -, hexec⟩ := exec_of_step hcall.take h.halted
  cases hi.symm.trans hi'
  cases h.state with
  | entering hpc =>
    have haddr : m.pc.toNat = a.start := by omega
    have hsame :=
      Option.some.inj ((haddr ▸ hi).symm.trans h.valid.laid.shape.reserve)
    rw [hsame] at hop
    cases hop
  | calling _ _ _ hcode =>
    have hsame := Option.some.inj (hi.symm.trans hcode)
    rw [hsame] at hop
    cases hop
  | running hpc hsteady hstaged hmemory hroom =>
    obtain ⟨htaken, henough, hsame, -, f, hf, hcode, hsteady', hstaged',
        hpops⟩ := h.of_frame hpc hsteady hmemory hroom hi hop hexec
    have hn : i.pops = n := by rw [Instr.pops, hop, hcount, Int.toNat_natCast]
    rw [hn] at htaken henough hsteady' hpops
    obtain ⟨k, hk, hcallCode, -, hexec'⟩ :=
      exec_of_step hcall.enter htaken.halted
    have hinstr := Option.some.inj (hcallCode.symm.trans hcode)
    obtain ⟨b, -, hentered, hframe⟩ :=
      htaken.of_call hp hk hf (by rw [hinstr]) (by rw [hinstr]) hsteady'
        hstaged' (hsame ▸ hmemory) hroom hexec'
    have hdepth := h.size_frames
    obtain ⟨v, hactive, hreturn, hsize, hret⟩ :=
      hentered.of_return hp (hdepth ▸ hcall.inside) hcall.leave
        (hcall.depth.trans hdepth)
    refine ⟨henough, ⟨v, hactive⟩, ?_, hsize.trans hmemory.symm,
      ⟨f, hf, hcode, hpops.symm⟩, hret⟩
    rw [hreturn, hframe]

end Machine

end

theorem Program.Places.get?_entry {p : Program} {fs : List Function}
    (h : p.Places fs) {f : Function} (hf : f ∈ fs) :
    p.funcs.get? f.name = some ((p.link fs).entry f.name) := by
  obtain ⟨addr, haddr⟩ :=
    Option.isSome_iff_exists.mp ((h.funcs f.name).mpr ⟨f, hf, rfl⟩)
  simp [Program.link, haddr]

/-- The calling convention. If a call begins with its arguments on top of the
operand stack, then after the matching return one value stands in their place,
memory is as long as before, and control is at the instruction after the call. A
run that ends without a fault leaves nothing on the stack, and of the memory
only the data of the program. -/
theorem Program.calls_restore_stack_and_memory {fs : List Function}
    {p : Program} (h : ofFunctions fs = .ok p) (hsize : p.code.size < 2 ^ 63)
    (hdef : ∀ f ∈ fs, f.isDefined = true) (lim : Limits) (sink : Sink) :
    (∀ (m taken entered last m' : Machine) (args under : List Cell),
      Machine.Reaches p lim sink (Machine.start p) m →
      Machine.CompletesCall p lim sink args.length m taken entered last m' →
      m.stack = args.reverse ++ under →
      (∃ v, m'.stack = v :: under) ∧ m'.memory.size = m.memory.size ∧
        m'.pc = taken.pc + 1 ∧
        (∃ f ∈ fs, f.params.length = args.length ∧
          ∃ i, p.code[taken.pc.toNat]? = some i ∧ i.op = .call ∧
            p.funcs.get? f.name = some i.operand) ∧
        ∃ i, p.code[last.pc.toNat]? = some i ∧ i.op = .ret) ∧
    ∀ m v, p.runInto lim sink = (m, .ok v) →
      m.stack = [] ∧ m.memory.size = p.data.size := by
  have hp := steady_of_ofFunctions h hsize hdef
  constructor
  · intro m taken entered last m' args under hreaches hcall hstack
    rcases Machine.active_of_reaches hp hreaches with
        ⟨a, rest, hactive⟩ | hfinished
    · obtain ⟨henough, ⟨v, hback⟩, hpc, hmemory, ⟨f, hf, hcode, hparams⟩,
          hret⟩ := hactive.of_completesCall hp hcall
      have hunder :
          under = a.values.drop args.length ++ rest.flatMap (·.values) := by
        have hdrop :=
          congrArg (List.drop args.length) (hstack.symm.trans hactive.stack)
        rwa [List.drop_left' List.length_reverse, List.flatMap_cons,
          List.drop_append_of_le_length henough] at hdrop
      refine ⟨⟨v, ?_⟩, hmemory, hpc,
        ⟨f, hf, hparams, _, hcode, rfl, hp.places.get?_entry hf⟩, hret⟩
      rw [hback.stack, hunder]
      rfl
    · cases hfinished.halted.symm.trans hcall.running
  · intro m v hrun
    obtain ⟨hreaches, hhalted⟩ := Machine.reaches_of_runInto hrun
    rcases Machine.active_of_reaches hp hreaches with
        ⟨a, rest, hactive⟩ | hfinished
    · rw [hactive.halted] at hhalted
      cases hhalted
    · exact ⟨hfinished.stack, hfinished.memory⟩

/-- `sum` adds the numbers up to its argument, by recursion. -/
def recursiveSum : List Function :=
  [{ ret := .int, name := text "sum",
     params := [{ ty := .int, name := text "n" }]
     body :=
      [.ifThen (.var (text "n"))
        (.ret (some (.binary .add (.var (text "n"))
          (.call (text "sum")
            [.binary .sub (.var (text "n")) (.int 1 none)])))),
       .ret (some (.int 0 none))] },
   { ret := .int, name := mainName, params := []
     body := [.ret (some (.call (text "sum") [.int 2 none]))] }]

def recursiveSumProgram : Program where
  code := #[ { op := .entry }, { op := .loadLocal, operand := -1 },
    { op := .jumpZero, operand := 11 }, { op := .loadLocal, operand := -1 },
    { op := .loadLocal, operand := -1 }, { op := .push, operand := 1 },
    { op := .arith .sub }, { op := .frame, operand := 1 },
    { op := .call, operand := 0 }, { op := .arith .add }, { op := .ret },
    { op := .push }, { op := .ret }, { op := .entry },
    { op := .push, operand := 2 }, { op := .frame, operand := 1 },
    { op := .call, operand := 0 }, { op := .ret }]
  data := #[0]
  entry := 13
  funcs := .ofList [(text "sum", 0), (mainName, 13)]

/-- The call of `sum` with 1 begins after 11 steps, while the caller keeps a 2
on the stack, and it makes a further call before it returns. -/
theorem Program.calls_restore_stack_and_memory_recursiveSum :
    let p := recursiveSumProgram
    let lim : Limits := {}
    let after (n : Nat) : Machine :=
      (Machine.runFor p lim n (Machine.start p)).1
    ofFunctions recursiveSum = .ok p ∧ p.code.size < 2 ^ 63 ∧
      (∀ f ∈ recursiveSum, f.isDefined = true) ∧
      Machine.Reaches p lim lim.sink (Machine.start p) (after 11) ∧
      Machine.CompletesCall p lim lim.sink 1 (after 11) (after 12) (after 13)
      (after 28) (after 29) ∧ (after 11).stack = [1].reverse ++ [2] ∧
      (∃ v, (after 29).stack = v :: [2]) ∧
      (after 29).memory.size = (after 11).memory.size ∧
      (after 29).pc = (after 12).pc + 1 ∧ p.run lim = (after 32, .ok 3) ∧
      (after 32).stack = [] ∧ (after 32).memory.size = p.data.size := by
  intro p lim after
  have hp : ofFunctions recursiveSum = .ok p :=
    ok_of_toOption (by decide +kernel)
  have hdef : ∀ f ∈ recursiveSum, f.isDefined = true := by decide
  have hreaches : Machine.Reaches p lim lim.sink (Machine.start p) (after 11) :=
    ⟨_, Machine.proceeds_of_steps after 11 (by decide +kernel)⟩
  have hinside : Machine.ReachesInside p lim lim.sink (after 11).frames.size
      (after 13) (after 28) :=
    ⟨_, Machine.proceeds_of_steps (fun k => after (13 + k)) 15
      (by decide +kernel), by decide +kernel⟩
  have hcall :
      Machine.CompletesCall p lim lim.sink 1 (after 11) (after 12) (after 13)
      (after 28) (after 29) :=
    ⟨⟨{ op := .frame,
        operand := 1 }, by decide +kernel⟩, by decide +kernel, by
          decide +kernel, hinside,
      by decide +kernel, by decide +kernel⟩
  have hstack : (after 11).stack = [1].reverse ++ [2] := by decide +kernel
  have hthree : (after 32).result = 3 := by decide +kernel
  have hrun : p.run lim = (after 32, .ok 3) :=
    hthree ▸ Machine.runInto_eq_ok (by decide +kernel)
  obtain ⟨hcalls, hend⟩ :=
    calls_restore_stack_and_memory hp (by decide) hdef lim lim.sink
  obtain ⟨hresult, hmemory, hpc, -⟩ :=
    hcalls _ _ _ _ _ [1] [2] hreaches hcall hstack
  obtain ⟨hempty, hdata⟩ := hend _ _ hrun
  exact ⟨hp, by decide, hdef, hreaches, hcall, hstack, hresult, hmemory, hpc,
    hrun, hempty, hdata⟩

def undefinedOperator : List Function :=
  [{ ret := .int, name := mainName, params := []
     body := [.expr (.binary (.other 99) (.int 1 none) (.int 2 none)),
       .ret (some (.int 0 none))] }]

/-- An operator that has no meaning pushes a value in place of taking two, so
values are left when the run ends without a fault. -/
theorem Program.undefined_operator_leaves_values :
    ∃ p m v, ofFunctions undefinedOperator = .ok p ∧ p.code.size < 2 ^ 63 ∧
      p.run {} = (m, .ok v) ∧ m.stack ≠ [] := by
  let p : Program :=
    { code := #[
        { op := .entry }, { op := .push, operand := 1 },
          { op := .push, operand := 2 }, { op := .push },
        { op := .pop }, { op := .push }, { op := .ret }]
      data := #[0]
      entry := 0
      funcs := .ofList [(mainName, 0)] }
  let m : Machine :=
    { pc := 7, stack := [2, 1], memory := #[0], steps := 7, frames := #[],
      halted := true }
  have hp : ofFunctions undefinedOperator = .ok p :=
    ok_of_toOption (by decide +kernel)
  have hrun : p.run {} = (m, .ok 0) := Machine.runInto_eq_ok (by decide +kernel)
  exact ⟨p, m, 0, hp, by decide, hrun, by decide⟩

end StackC
