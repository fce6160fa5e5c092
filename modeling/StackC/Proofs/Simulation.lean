import StackC.Proofs.Calls
import StackC.Proofs.Semantics

/-!
Machines that carry out evaluations. `Meets` relates a machine to the result of
an evaluation of its memory: the machine comes to a state that has the result,
or stops for the reason for which the evaluation halts. An evaluation that is
given up is met by a machine that takes many steps. Limits are left out here:
each step is made under limits that just allow it.
-/

namespace StackC

/-- An evaluation can have a result. -/
def Eval.Gives (x : Eval α) (a : α) : Prop :=
  ∃ s s', x s = .ok a s'

theorem Eval.gives_of_bind {x : Eval α} {f : α → Eval β} {b : β}
    (h : Eval.Gives (x >>= f) b) :
    ∃ a, Eval.Gives x a ∧ Eval.Gives (f a) b := by
  obtain ⟨s, s', h⟩ := h
  cases hx : x s with
  | ok a mid =>
    rw [Eval.bind_of_ok hx] at h
    exact ⟨a, ⟨s, mid, hx⟩, mid, s', h⟩
  | error e mid =>
    rw [Eval.bind_of_error hx] at h
    cases h

namespace Machine

/-- The memory and the output of a machine. -/
def store (m : Machine) : Store where
  memory := m.memory
  output := m.output

/-- A step under limits that allow it. -/
def advance (p : Program) (m : Machine) : Machine × Option Stop :=
  step p { maxSteps := m.steps + 1, maxDepth := m.frames.size + 1 } m

/-- A machine comes to another one when no limits stop it. -/
inductive Steps (p : Program) : Machine → Machine → Prop
  | refl (m : Machine) : Steps p m m
  | head {m mid m' : Machine} (hrunning : m.halted = false)
    (hstep : advance p m = (mid, none)) (h : Steps p mid m') : Steps p m m'

variable {p : Program} {m m' m'' : Machine} {i : Instr} {addr : Nat}

theorem Steps.trans (hfirst : Steps p m m') (hsecond : Steps p m' m'') :
    Steps p m m'' := by
  induction hfirst with
  | refl => exact hsecond
  | head hrunning hstep _ ih => exact .head hrunning hstep (ih hsecond)

theorem Steps.steps_le (h : Steps p m m') : m.steps ≤ m'.steps := by
  induction h with
  | refl => exact Nat.le_refl _
  | head hrunning hstep _ ih =>
    obtain ⟨hcount, -⟩ := steps_of_step hstep hrunning
    omega

/-- The limits that just allow the next step of a machine. -/
theorem advance_eq (hrunning : m.halted = false) (hpc : m.pc = addr)
    (hi : p.code[addr]? = some i) :
    advance p m =
      exec { maxSteps := m.steps + 1, maxDepth := m.frames.size + 1 } i
      { m with steps := m.steps + 1, pc := addr + 1 } := by
  rw [advance, step, if_neg (by simp [hrunning]), if_neg (by omega), hpc,
    Int.toNat_natCast, hi]
  exact if_neg (Nat.lt_irrefl _)

/-- How a machine meets the result of an evaluation: `Q` holds where it comes to
with a value. If the evaluation is given up, the machine takes steps up to
number `N`. -/
def Meets (p : Program) (N : Nat) (m : Machine) (Q : α → Machine → Prop) :
    EStateM.Result Halt Store α → Prop
  | .ok a s => ∃ m', Steps p m m' ∧ m'.store = s ∧ Q a m'
  | .error (.fault f) s => ∃ m' m'' e, Steps p m m' ∧ m'.halted = false ∧
      advance p m' = (m'', some (.fault e)) ∧ e.fault = f ∧ m''.store = s
  | .error .outOfMemory s => ∃ m' m'', Steps p m m' ∧ m'.halted = false ∧
      advance p m' = (m'', some .crash) ∧ m''.store = s
  | .error .timeout _ => ∃ m', Steps p m m' ∧ N ≤ m'.steps
  | .error .stuck _ => False

namespace Meets

variable {N N' : Nat} {Q : α → Machine → Prop} {R : β → Machine → Prop}
  {r : EStateM.Result Halt Store α}

theorem of_steps (hsteps : Steps p m m') (h : Meets p N m' Q r) :
    Meets p N m Q r := by
  cases r with
  | ok a s =>
    obtain ⟨last, hlast, h⟩ := h
    exact ⟨last, hsteps.trans hlast, h⟩
  | error e s =>
    cases e with
    | fault f =>
      obtain ⟨last, stopped, err, hlast, h⟩ := h
      exact ⟨last, stopped, err, hsteps.trans hlast, h⟩
    | outOfMemory =>
      obtain ⟨last, stopped, hlast, h⟩ := h
      exact ⟨last, stopped, hsteps.trans hlast, h⟩
    | timeout =>
      obtain ⟨last, hlast, h⟩ := h
      exact ⟨last, hsteps.trans hlast, h⟩
    | stuck => exact h

theorem of_step (hrunning : m.halted = false) (hstep : advance p m = (m', none))
    (h : Meets p N m' Q r) : Meets p N m Q r :=
  h.of_steps (.head hrunning hstep (.refl m'))

theorem value {a : α} (h : Q a m) : Meets p N m Q (.ok a m.store) :=
  ⟨m, .refl m, rfl, h⟩

theorem fault {e : RuntimeError} (hrunning : m.halted = false)
    (hstep : advance p m = (m', some (.fault e))) :
    Meets p N m Q (.error (.fault e.fault) m'.store) :=
  ⟨m, m', e, .refl m, hrunning, hstep, rfl, rfl⟩

theorem mono {Q' : α → Machine → Prop} (h : Meets p N m Q r) (hN : N' ≤ N)
    (hQ : ∀ a m', m.steps ≤ m'.steps → Q a m' → Q' a m') :
    Meets p N' m Q' r := by
  cases r with
  | ok a s =>
    obtain ⟨last, hlast, hstore, h⟩ := h
    exact ⟨last, hlast, hstore, hQ a last hlast.steps_le h⟩
  | error e s =>
    cases e with
    | fault f => exact h
    | outOfMemory => exact h
    | timeout =>
      obtain ⟨last, hlast, h⟩ := h
      exact ⟨last, hlast, Nat.le_trans hN h⟩
    | stuck => exact h

/-- Evaluations one after another are met one after another. -/
theorem bind {x : Eval α} {f : α → Eval β} (h : Meets p N m Q (x m.store))
    (hrest : ∀ a m', Eval.Gives x a → m.steps ≤ m'.steps → Q a m' →
      Meets p N m' R (f a m'.store)) : Meets p N m R ((x >>= f) m.store) := by
  cases hx : x m.store with
  | ok a s =>
    rw [hx] at h
    obtain ⟨mid, hmid, rfl, hQ⟩ := h
    rw [Eval.bind_of_ok hx]
    exact (hrest a mid ⟨_, _, hx⟩ hmid.steps_le hQ).of_steps hmid
  | error e s =>
    rw [hx] at h
    rw [Eval.bind_of_error hx]
    cases e with
    | fault | outOfMemory | timeout | stuck => exact h

/-- Steps that keep memory and output may follow. -/
theorem extend {Q' : α → Machine → Prop} (h : Meets p N m Q r)
    (hrest : ∀ a m', Q a m' → ∃ m'', Steps p m' m'' ∧ m''.store = m'.store ∧
      Q' a m'') : Meets p N m Q' r := by
  cases r with
  | ok a s =>
    obtain ⟨mid, hmid, rfl, hQ⟩ := h
    obtain ⟨last, hlast, hstore, hQ'⟩ := hrest a mid hQ
    exact ⟨last, hmid.trans hlast, hstore, hQ'⟩
  | error e s =>
    cases e with
    | fault | outOfMemory | timeout | stuck => exact h

end Meets

/-- A machine runs the body of a function with the given frame and number of
local cells. -/
structure Inside (m : Machine) (fr : Frame) (cells : Nat) : Prop where
  halted : m.halted = false
  frame : m.frames.back? = some fr
  staged : m.staged = []
  base : 1 ≤ fr.base
  size : m.memory.size = fr.base + fr.count + cells
  room : m.memory.size ≤ memoryLimit

/-- A machine has come from another one to an address, with a stack, in the same
function. -/
structure After (m m' : Machine) (addr : Nat) (stack : List Cell) : Prop where
  pc : m'.pc = addr
  stack : m'.stack = stack
  frames : m'.frames = m.frames
  staged : m'.staged = m.staged
  halted : m'.halted = m.halted
  size : m'.memory.size = m.memory.size

section

variable {fr : Frame} {cells : Nat} {stack stack' : List Cell} {addr' : Nat}

theorem After.inside (h : m.After m' addr stack) (hm : m.Inside fr cells) :
    m'.Inside fr cells where
  halted := h.halted.trans hm.halted
  frame := h.frames ▸ hm.frame
  staged := h.staged.trans hm.staged
  base := hm.base
  size := h.size.trans hm.size
  room := h.size ▸ hm.room

theorem After.trans (h : m.After m' addr stack)
    (h' : m'.After m'' addr' stack') : m.After m'' addr' stack' where
  pc := h'.pc
  stack := h'.stack
  frames := h'.frames.trans h.frames
  staged := h'.staged.trans h.staged
  halted := h'.halted.trans h.halted
  size := h'.size.trans h.size

theorem Inside.size_lt (h : m.Inside fr cells) : m.memory.size < 2 ^ 63 :=
  Nat.lt_of_le_of_lt h.room (by decide)

end

end Machine

/-- Where code runs: in a program of some functions, in a function with a frame
and a number of local cells. Calls in it have the given depth. -/
structure Setting where
  program : Program
  functions : List Function
  depth : Nat
  frame : Frame
  cells : Nat

namespace Setting

def link (c : Setting) : Link :=
  c.program.link c.functions

/-- Code carries out an evaluation: it takes the values `pre` from the stack and
leaves those that `post` gives for the result. -/
def Performs (c : Setting) (is : List Instr) (pre : List Cell) (x : Eval α)
    (post : α → List Cell) : Prop :=
  ∀ (m : Machine) (addr : Nat) (under : List Cell), c.link.Holds addr is →
    m.pc = addr → m.Inside c.frame c.cells → m.stack = pre ++ under →
    m.Meets c.program (m.steps + c.depth)
    (fun a m' => m.After m' (addr + is.length) (post a ++ under)) (x m.store)

/-- Code replaces values on the stack. -/
def Computes (c : Setting) (is : List Instr) (pre post : List Cell) : Prop :=
  c.Performs is pre (pure ()) fun _ => post

variable {c : Setting} {is js : List Instr} {pre : List Cell} {x : Eval α}
  {post : α → List Cell}

theorem Performs.append {f : α → Eval β} {post' : β → List Cell}
    (hfirst : c.Performs is pre x post)
    (hrest : ∀ a, Eval.Gives x a → c.Performs js (post a) (f a) post') :
    c.Performs (is ++ js) pre (x >>= f) post' := by
  intro m addr under hcode hpc hm hstack
  obtain ⟨his, hjs⟩ := Link.holds_append.mp hcode
  refine (hfirst m addr under his hpc hm hstack).bind
    fun a m' hgives hsteps hafter => ?_
  refine (hrest a hgives m' _ under hjs hafter.pc (hafter.inside hm)
    hafter.stack).mono (by omega) ?_
  intro b last _ hlast
  rw [List.length_append, ← Nat.add_assoc]
  exact hafter.trans hlast

/-- The place of the code may be used to show what it does. -/
theorem Performs.of_holds
    (h : ∀ addr, c.link.Holds addr is → c.Performs is pre x post) :
    c.Performs is pre x post :=
  fun m addr under hcode => h addr hcode m addr under hcode

theorem Performs.append_computes {post' : α → List Cell}
    (hfirst : c.Performs is pre x post)
    (hrest : ∀ a, c.Computes js (post a) (post' a)) :
    c.Performs (is ++ js) pre x post' := by
  intro m addr under hcode hpc hm hstack
  obtain ⟨his, hjs⟩ := Link.holds_append.mp hcode
  refine (hfirst m addr under his hpc hm hstack).extend fun a m' hafter => ?_
  obtain ⟨last, hsteps, hstore, hlast⟩ :=
    hrest a m' _ under hjs hafter.pc (hafter.inside hm) hafter.stack
  rw [List.length_append, ← Nat.add_assoc]
  exact ⟨last, hsteps, hstore, hafter.trans hlast⟩

theorem Performs.map (g : α → β) {post' : β → List Cell}
    (h : c.Performs is pre x fun a => post' (g a)) :
    c.Performs is pre (x >>= fun a => pure (g a)) post' := by
  intro m addr under hcode hpc hm hstack
  exact (h m addr under hcode hpc hm hstack).bind fun a m' _ _ hafter =>
    .value hafter

/-- Values further down on the stack stay there. -/
theorem Performs.above (h : c.Performs is pre x post) (more : List Cell) :
    c.Performs is (pre ++ more) x fun a => post a ++ more := by
  intro m addr under hcode hpc hm hstack
  rw [List.append_assoc] at hstack
  refine (h m addr (more ++ under) hcode hpc hm hstack).mono (Nat.le_refl _) ?_
  intro a m' _ hafter
  rw [List.append_assoc]
  exact hafter

theorem computes_nil (values : List Cell) : c.Computes [] values values := by
  intro m addr under _ hpc _ hstack
  exact .value ⟨hpc, hstack, rfl, rfl, rfl, rfl⟩

theorem Computes.append {mid post : List Cell} (hfirst : c.Computes is pre mid)
    (hrest : c.Computes js mid post) : c.Computes (is ++ js) pre post :=
  Performs.append_computes hfirst fun _ => hrest

end Setting

end StackC
