import StackC.Proofs.Locals

/-!
Scopes in use: blocks and loops are entered and left, variables are declared and
names are looked up, in any order. A declaration that is refused changes
nothing; leaving a block or a loop where there is none is a misuse, and nothing
comes after it.
-/

namespace StackC

/-- What can be done with a scope. -/
inductive ScopeOp where
  | enter
  | leave
  | addParam (ty : Ty) (name : Name)
  | addLocal (ty : Ty) (name : Name)
  | resolve (name : Name)
  | enterLoop (l : Loop)
  | exitLoop
  | breakTarget
  | continueTarget
  deriving DecidableEq, Repr

namespace Scope

/-- The scope after a declaration, and the variable if it was not refused. -/
def afterAdding (s : Scope) :
    Except ProgramError (LocalVar × Scope) → Scope × Option LocalVar
  | .ok (v, s') => (s', some v)
  | .error _ => (s, none)

/-- The scope after an operation, and the variable that it has added, if any.
Questions change nothing. -/
def perform (s : Scope) : ScopeOp → Except Misuse (Scope × Option LocalVar)
  | .enter => .ok (s.enter, none)
  | .leave => s.leaveBlock.map (·, none)
  | .addParam ty name => .ok (s.afterAdding (s.addParam ty name))
  | .addLocal ty name => .ok (s.afterAdding (s.addLocal ty name))
  | .enterLoop l => .ok (s.enterLoop l, none)
  | .exitLoop => s.exitLoop.map (·, none)
  | .resolve _ | .breakTarget | .continueTarget => .ok (s, none)

/-- The scope after operations in turn, and the variables that they have added,
in their order. -/
def performAll : Scope → List ScopeOp → Except Misuse (Scope × List LocalVar)
  | s, [] => .ok (s, [])
  | s, op :: ops => do
    let (s, v) ← s.perform op
    let (s, vs) ← s.performAll ops
    return (s, v.toList ++ vs)

variable {s s' s'' : Scope}

variable {op : ScopeOp} {ops : List ScopeOp} {v : Option LocalVar}
  {vs : List LocalVar}

theorem performAll_cons (h : s.perform op = .ok (s', v))
    (h' : s'.performAll ops = .ok (s'', vs)) :
    s.performAll (op :: ops) = .ok (s'', v.toList ++ vs) := by
  simp only [performAll, h, h', bind, Except.bind]
  rfl

theorem of_performAll_cons (h : s.performAll (op :: ops) = .ok (s'', vs)) :
    ∃ s' v us, s.perform op = .ok (s', v) ∧ s'.performAll ops = .ok (s'', us) ∧
      vs = v.toList ++ us := by
  obtain ⟨⟨s', v⟩, hop, h⟩ := ok_of_bind h
  obtain ⟨⟨t, us⟩, hops, h⟩ := ok_of_bind h
  cases h
  exact ⟨s', v, us, hop, hops, rfl⟩

theorem performAll_append {ops' : List ScopeOp} {vs' : List LocalVar}
    (h : s.performAll ops = .ok (s', vs))
    (h' : s'.performAll ops' = .ok (s'', vs')) :
    s.performAll (ops ++ ops') = .ok (s'', vs ++ vs') := by
  induction ops generalizing s vs with
  | nil =>
    cases h
    exact h'
  | cons op ops ih =>
    obtain ⟨mid, v, us, hop, hops, rfl⟩ := of_performAll_cons h
    rw [List.cons_append, performAll_cons hop (ih hops), List.append_assoc]

/-- A single operation behind others. -/
theorem performAll_concat (h : s.performAll ops = .ok (s', vs))
    (hop : s'.perform op = .ok (s'', v)) :
    s.performAll (ops ++ [op]) = .ok (s'', vs ++ v.toList) := by
  have hlast : s'.performAll [op] = .ok (s'', v.toList ++ []) :=
    performAll_cons hop rfl
  rw [List.append_nil] at hlast
  exact performAll_append h hlast

/-- What an operation hands out: nothing, the next number to a parameter, or the
next cells to a local. -/
theorem perform_numbers (h : s.perform op = .ok (s', v)) :
    (v = none ∧ s'.paramCount = s.paramCount ∧ s'.cellCount = s.cellCount) ∨
      (∃ w, v = some w ∧ op = .addParam w.ty w.name ∧ w.isParam = true ∧
        w.slot = Int64.ofNat (s.paramCount + 1) ∧
        s'.paramCount = s.paramCount + 1 ∧ s'.cellCount = s.cellCount) ∨
      ∃ w, v = some w ∧ op = .addLocal w.ty w.name ∧ w.isParam = false ∧
        w.slot = s.cellCount + 1 ∧ s'.paramCount = s.paramCount ∧
        s'.cellCount = s.cellCount + w.ty.cells := by
  cases op with
  | enter | enterLoop | resolve | breakTarget | continueTarget =>
    cases h
    exact Or.inl ⟨rfl, rfl, rfl⟩
  | leave =>
    simp only [perform, leaveBlock] at h
    split at h <;> cases h
    exact Or.inl ⟨rfl, rfl, rfl⟩
  | exitLoop =>
    simp only [perform, exitLoop] at h
    split at h <;> cases h
    exact Or.inl ⟨rfl, rfl, rfl⟩
  | addParam ty name =>
    simp only [perform, addParam] at h
    split at h <;> cases h
    · exact Or.inl ⟨rfl, rfl, rfl⟩
    · exact Or.inr (Or.inl ⟨_, rfl, rfl, rfl, rfl, rfl, rfl⟩)
  | addLocal ty name =>
    simp only [perform, addLocal, put] at h
    split at h
    · cases h
      exact Or.inl ⟨rfl, rfl, rfl⟩
    · cases h
      refine Or.inr (Or.inr ⟨_, rfl, rfl, rfl, rfl, ?_, rfl⟩)
      split <;> rfl

end Scope

end StackC
