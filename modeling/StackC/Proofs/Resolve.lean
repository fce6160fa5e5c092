import StackC.Basic
import StackC.Typing.Check

/-!
What checking accepts, as a judgement on expressions and terms. The judgement is
stated for the meaning of names and for the signatures of the functions only, so
that it stays the same while functions get their addresses.
-/

namespace StackC

theorem ok_of_typed {r : Except TypeError α} {a : α} (h : typed r = .ok a) :
    r = .ok a := by
  cases r with
  | error e => cases h
  | ok b =>
    cases h
    rfl

theorem ok_of_located {place : Place} {r : Except ProgramError α} {a : α}
    (h : located place r = .ok a) : r = .ok a := by
  cases r with
  | error e => cases h
  | ok b =>
    cases h
    rfl

variable {s : Scope} {name : Name} {t : Functions}

theorem Scope.find?_of_resolve {v : LocalVar} (h : s.resolve name = .ok v) :
    s.find? name = some v := by
  simp only [resolve] at h
  split at h
  next w hw =>
    cases h
    exact hw
  next => cases h

def FuncDef.erase (f : FuncDef) : FuncDef :=
  { f with entry := -1 }

def Functions.signatures (t : Functions) : List FuncDef :=
  t.defs.map FuncDef.erase

theorem Functions.name_of_find? {f : FuncDef} (h : t.find? name = some f) :
    f.name = name := by
  have := List.find?_some h
  simpa using this

theorem Functions.find?_signatures (t : Functions) (name : Name) :
    t.signatures.find? (·.name == name) = (t.find? name).map FuncDef.erase := by
  rw [signatures, List.find?_map]
  rfl

theorem Functions.of_lookup {count : Nat} {f : FuncDef}
    (h : t.lookup name count = .ok f) :
    t.find? name = some f ∧ f.params.length = count := by
  simp only [lookup] at h
  split at h
  next => cases h
  next g hg =>
    obtain ⟨hcount, h⟩ := ok_of_then h
    cases h
    exact ⟨hg, by exact_mod_cast hcount⟩

/-- An expression with the term it stands for, or arguments with their terms,
beside the parameters. -/
inductive Phrase where
  | one (x : Expr) (a : Term)
  | args (params : List Param) (xs : List Expr) (as : List Term)

/-- An expression stands for a term, where `vars` gives the variable that a name
means: names mean visible variables and known functions, and the rules of types
hold. -/
inductive Resolves (vars : Name → Option LocalVar) (signatures : List FuncDef) :
    Phrase → Prop
  | int (v : Cell) (ty : Option Ty) :
    Resolves vars signatures (.one (.int v ty) (.int v (ty.getD .int)))
  | str (v : Bytes) : Resolves vars signatures (.one (.str v) (.str v))
  | var {name : Name} {v : LocalVar} (hv : vars name = some v) :
    Resolves vars signatures (.one (.var name) (.var v))
  | binary {op : Operator} {left right : Expr} {l r : Term} {ty : Ty}
    (hl : Resolves vars signatures (.one left l))
    (hr : Resolves vars signatures (.one right r))
    (hty : Ty.binary op (operandTypes op left right l.ty r.ty).1
      (operandTypes op left right l.ty r.ty).2 = .ok ty) :
    Resolves vars signatures (.one (.binary op left right) (.binary op l r ty))
  | call {name : Name} {args : List Expr} {f : FuncDef} {as : List Term}
    (hname : f.name = name)
    (hf : signatures.find? (·.name == name) = some f.erase)
    (hargs : Resolves vars signatures (.args f.params args as)) :
    Resolves vars signatures (.one (.call name args) (.call f as))
  | addrVar {name : Name} {v : LocalVar} (hv : vars name = some v) :
    Resolves vars signatures (.one (.addr (.var name)) (.addrVar v))
  | addrDeref {x : Expr} {p : Term} {ty : Ty}
    (hp : Resolves vars signatures (.one x p)) (hty : p.ty.deref = .ok ty) :
    Resolves vars signatures (.one (.addr (.deref x)) (.addrDeref p ty))
  | deref {x : Expr} {p : Term} {ty : Ty}
    (hp : Resolves vars signatures (.one x p)) (hty : p.ty.deref = .ok ty) :
    Resolves vars signatures (.one (.deref x) (.deref p ty))
  | nil : Resolves vars signatures (.args [] [] [])
  | cons {p : Param} {ps : List Param} {x : Expr} {xs : List Expr} {a : Term}
    {as : List Term} (ha : Resolves vars signatures (.one x a))
    (hassign : Ty.checkAssign p.ty a.ty x.isZero = .ok ())
    (has : Resolves vars signatures (.args ps xs as)) :
    Resolves vars signatures (.args (p :: ps) (x :: xs) (a :: as))

mutual

/-- Every function that a term calls is the first one of its name in the
list. -/
def Term.CallsIn (defs : List FuncDef) : Term → Prop
  | .int .. | .str _ | .var _ | .addrVar _ => True
  | .binary _ l r _ => l.CallsIn defs ∧ r.CallsIn defs
  | .call f args =>
    defs.find? (·.name == f.name) = some f ∧ ArgsCallIn defs args
  | .addrDeref p _ | .deref p _ => p.CallsIn defs

def ArgsCallIn (defs : List FuncDef) : List Term → Prop
  | [] => True
  | a :: as => a.CallsIn defs ∧ ArgsCallIn defs as

end

mutual

theorem resolves_of_check {s : Scope} {t : Functions} :
    (x : Expr) → {a : Term} → check s t x = .ok a →
      Resolves s.find? t.signatures (.one x a) ∧ a.CallsIn t.defs
  | .int v ty, a, h => by
    cases h
    exact ⟨.int v ty, trivial⟩
  | .str v, a, h => by
    cases h
    exact ⟨.str v, trivial⟩
  | .var name, a, h => by
    obtain ⟨v, hv, h⟩ := ok_of_bind h
    cases h
    exact ⟨.var (Scope.find?_of_resolve hv), trivial⟩
  | .binary op left right, a, h => by
    obtain ⟨l, hl, h⟩ := ok_of_bind h
    obtain ⟨r, hr, h⟩ := ok_of_bind h
    obtain ⟨ty, hty, h⟩ := ok_of_bind h
    cases h
    obtain ⟨hleft, hleftCalls⟩ := resolves_of_check left hl
    obtain ⟨hright, hrightCalls⟩ := resolves_of_check right hr
    exact ⟨.binary hleft hright (ok_of_typed hty), hleftCalls, hrightCalls⟩
  | .call name args, a, h => by
    obtain ⟨f, hf, h⟩ := ok_of_bind h
    obtain ⟨as, has, h⟩ := ok_of_bind h
    cases h
    obtain ⟨hfind, hlength⟩ := Functions.of_lookup hf
    have hname : f.name = name := Functions.name_of_find? hfind
    obtain ⟨hargs, hcalls⟩ :=
      resolves_of_checkArgs name 1 f.params args hlength has
    refine ⟨.call hname ?_ hargs, hname ▸ hfind, hcalls⟩
    rw [Functions.find?_signatures, hfind]
    rfl
  | .addr (.var name), a, h => by
    obtain ⟨v, hv, h⟩ := ok_of_bind h
    cases h
    exact ⟨.addrVar (Scope.find?_of_resolve hv), trivial⟩
  | .addr (.deref x), a, h => by
    obtain ⟨p, hp, h⟩ := ok_of_bind h
    obtain ⟨ty, hty, h⟩ := ok_of_bind h
    cases h
    obtain ⟨hx, hcalls⟩ := resolves_of_check x hp
    exact ⟨.addrDeref hx (ok_of_typed hty), hcalls⟩
  | .addr (.int ..), a, h | .addr (.str _), a, h | .addr (.binary ..), a, h
  | .addr (.call ..), a, h
  | .addr (.addr _), a, h | .addr .hole, a, h => by cases h
  | .deref x, a, h => by
    obtain ⟨p, hp, h⟩ := ok_of_bind h
    obtain ⟨ty, hty, h⟩ := ok_of_bind h
    cases h
    obtain ⟨hx, hcalls⟩ := resolves_of_check x hp
    exact ⟨.deref hx (ok_of_typed hty), hcalls⟩
  | .hole, a, h => by cases h

theorem resolves_of_checkArgs {s : Scope} {t : Functions} (f : Name)
    (index : Nat) :
    (ps : List Param) → (xs : List Expr) → ps.length = xs.length →
      {as : List Term} → checkArgs s t f index ps xs = .ok as →
      Resolves s.find? t.signatures (.args ps xs as) ∧ ArgsCallIn t.defs as
  | [], [], _, as, h => by
    cases h
    exact ⟨.nil, trivial⟩
  | p :: ps, x :: xs, hlength, as, h => by
    obtain ⟨a, ha, h⟩ := ok_of_bind h
    obtain ⟨⟨⟩, hassign, h⟩ := ok_of_bind h
    obtain ⟨rest, hrest, h⟩ := ok_of_bind h
    cases h
    obtain ⟨hx, hcalls⟩ := resolves_of_check x ha
    obtain ⟨hxs, hrestCalls⟩ :=
      resolves_of_checkArgs f (index + 1) ps xs (by simpa using hlength) hrest
    exact ⟨.cons hx (ok_of_typed (ok_of_located hassign)) hxs, hcalls,
      hrestCalls⟩

end

/-- The values of a `printf`: each stands for a term that is not a whole
array. -/
inductive Printed (vars : Name → Option LocalVar) (signatures : List FuncDef) :
    List Expr → List Term → Prop
  | nil : Printed vars signatures [] []
  | cons {x : Expr} {xs : List Expr} {a : Term} {as : List Term}
    (ha : Resolves vars signatures (.one x a))
    (hscalar : a.ty.decay.isScalar = true)
    (has : Printed vars signatures xs as) :
    Printed vars signatures (x :: xs) (a :: as)

theorem resolves_of_checkScalar {what : Bytes} {x : Expr} {a : Term}
    (h : checkScalar s t what x = .ok a) :
    Resolves s.find? t.signatures (.one x a) ∧ a.CallsIn t.defs ∧
      a.ty.decay.isScalar = true := by
  obtain ⟨b, hb, h⟩ := ok_of_bind h
  obtain ⟨hx, hcalls⟩ := resolves_of_check x hb
  obtain ⟨hscalar, h⟩ := ok_of_then h
  cases h
  exact ⟨hx, hcalls, hscalar⟩

theorem resolves_of_checkTarget {x : Expr} {y : Target}
    (h : checkTarget s t x = .ok y) :
    (∃ name v, x = .var name ∧ y = .var v ∧ s.find? name = some v) ∨
      ∃ z p ty, x = .deref z ∧ y = .cell p ty ∧
        Resolves s.find? t.signatures (.one z p) ∧ p.CallsIn t.defs ∧
        p.ty.deref = .ok ty := by
  cases x with
  | var name =>
    obtain ⟨v, hv, h⟩ := ok_of_bind h
    cases h
    exact Or.inl ⟨name, v, rfl, rfl, Scope.find?_of_resolve hv⟩
  | deref z =>
    obtain ⟨p, hp, h⟩ := ok_of_bind h
    obtain ⟨ty, hty, h⟩ := ok_of_bind h
    cases h
    obtain ⟨hz, hcalls⟩ := resolves_of_check z hp
    exact Or.inr ⟨z, p, ty, rfl, rfl, hz, hcalls, ok_of_typed hty⟩
  | int | str | binary | call | addr | hole => cases h

theorem printed_of_checkPrinted {index : Nat} {xs : List Expr} {as : List Term}
    (h : checkPrinted s t index xs = .ok as) :
    Printed s.find? t.signatures xs as ∧ ∀ a ∈ as, a.CallsIn t.defs := by
  induction xs generalizing index as with
  | nil =>
    cases h
    exact ⟨.nil, by simp⟩
  | cons x xs ih =>
    obtain ⟨a, ha, h⟩ := ok_of_bind h
    obtain ⟨rest, hrest, h⟩ := ok_of_bind h
    cases h
    obtain ⟨hx, hcalls, hscalar⟩ := resolves_of_checkScalar ha
    obtain ⟨hxs, hrestCalls⟩ := ih hrest
    refine ⟨.cons hx hscalar hxs, fun b hb => ?_⟩
    rcases List.mem_cons.mp hb with rfl | hb
    · exact hcalls
    · exact hrestCalls b hb

end StackC
