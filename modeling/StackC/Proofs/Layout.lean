import StackC.Emit.Stmt
import StackC.Proofs.Link

/-!
The layout of statements. `Laid` says which instructions of a finished program
belong to a statement and where its jumps go. There are no labels any more: a
scope that stands in a layout holds the addresses that `break` and `continue` go
to in place of the labels.
-/

namespace StackC

/-- A statement, or statements in turn after one that ended as `ends` tells. -/
inductive Part where
  | one (s : Stmt)
  | many (ends : Bool) (ss : List Stmt)

def Part.strings : Part → List Bytes
  | .one s => s.strings
  | .many _ ss => stmtsStrings ss

/-- The scope after something nested in it, whose cells stay in use. -/
def Scope.resume (s inner : Scope) : Scope :=
  { s with cellCount := inner.cellCount }

def convertedCode (L : Link) (ty : Ty) (a : Term) : List Instr :=
  a.code L ++ convertCode ty a.ty

/-- The code of a condition and of the jump that is made if it does not hold. -/
def testCode (L : Link) (c : Term) (target : Nat) : List Instr :=
  c.code L ++ [{ op := .jumpZero, operand := Int64.ofNat target }]

theorem Link.holds_returnZero {L : Link} {addr : Nat}
    (h : L.Holds addr Emitter.returnZero) :
    L.Holds addr [{ op := .push }] ∧ L.Holds (addr + 1) [{ op := .ret }] :=
  Link.holds_append.mp
    (show L.Holds addr ([{ op := .push }] ++ [{ op := .ret }]) from h)

/-- `Laid L ret part s start s' stop ends`: in a function that returns `ret`,
the code of a part lies from `start` up to `stop`. The scope is `s` before and
`s'` after it, and `ends` tells that control never reaches `stop` from
within. -/
inductive Laid (L : Link) (ret : Ty) :
    Part → Scope → Nat → Scope → Nat → Bool → Prop
  | block {body : List Stmt} {s inner : Scope} {start stop : Nat} {ends : Bool}
    (hbody : Laid L ret (.many false body) s.enter start inner stop ends) :
    Laid L ret (.one (.block body)) s start (s.resume inner) stop ends
  | decl {ty : Ty} {name : Name} {s s' : Scope} {v : LocalVar} {start : Nat}
    (hty : Ty.checkStorable name ty = .ok ())
    (hadd : s.addLocal ty name = .ok (v, s')) :
    Laid L ret (.one (.decl ty name)) s start s' start false
  | init {ty : Ty} {name : Name} {value : Expr} {s s' : Scope} {v : LocalVar}
    {a : Term} {start : Nat} {is : List Instr}
    (hty : Ty.checkStorable name ty = .ok ())
    (hadd : s.addLocal ty name = .ok (v, s'))
    (hvalue : Resolves s'.find? L.signatures (.one value a))
    (harray : v.ty.isArray = false)
    (hassign : Ty.checkAssign v.ty a.ty value.isZero = .ok ())
    (his : is = convertedCode L v.ty a ++
      [{ op := .storeLocal, operand := v.operand }])
    (hcode : L.Holds start is) :
    Laid L ret (.one (.init ty name value)) s start s' (start + is.length) false
  | assignVar {name : Name} {value : Expr} {s : Scope} {v : LocalVar} {a : Term}
    {start : Nat} {is : List Instr} (hv : s.find? name = some v)
    (hvalue : Resolves s.find? L.signatures (.one value a))
    (hassign : Ty.checkAssign v.ty a.ty value.isZero = .ok ())
    (his : is = convertedCode L v.ty a ++
      [{ op := .storeLocal, operand := v.operand }])
    (hcode : L.Holds start is) :
    Laid L ret (.one (.assign (.var name) value)) s start s
      (start + is.length) false
  | assignCell {x value : Expr} {s : Scope} {p a : Term} {ty : Ty} {start : Nat}
    {is : List Instr} (hx : Resolves s.find? L.signatures (.one x p))
    (hty : p.ty.deref = .ok ty)
    (hvalue : Resolves s.find? L.signatures (.one value a))
    (hassign : Ty.checkAssign ty a.ty value.isZero = .ok ())
    (his : is = p.code L ++ (convertedCode L ty a ++ [{ op := .store }]))
    (hcode : L.Holds start is) :
    Laid L ret (.one (.assign (.deref x) value)) s start s
      (start + is.length) false
  | retNone {s : Scope} {start : Nat} (hvoid : ret.isVoid = true)
    (hcode : L.Holds start Emitter.returnZero) :
    Laid L ret (.one (.ret none)) s start s (start + 2) true
  | retSome {value : Expr} {s : Scope} {a : Term} {start : Nat}
    {is : List Instr} (hvoid : ret.isVoid = false)
    (hvalue : Resolves s.find? L.signatures (.one value a))
    (hassign : Ty.checkAssign ret a.ty value.isZero = .ok ())
    (his : is = convertedCode L ret a ++ [{ op := .ret }])
    (hcode : L.Holds start is) :
    Laid L ret (.one (.ret (some value))) s start s (start + is.length) true
  | expr {x : Expr} {s : Scope} {a : Term} {start : Nat} {is : List Instr}
    (hx : Resolves s.find? L.signatures (.one x a))
    (his : is = a.code L ++ [{ op := .pop }]) (hcode : L.Holds start is) :
    Laid L ret (.one (.expr x)) s start s (start + is.length) false
  | ifThen {cond : Expr} {body : Stmt} {s inner : Scope} {c : Term}
    {start stop : Nat} {ends : Bool}
    (hcond : Resolves s.find? L.signatures (.one cond c))
    (hscalar : c.ty.decay.isScalar = true)
    (hcode : L.Holds start (testCode L c stop))
    (hbody : Laid L ret (.one body) s.enter (start + (testCode L c stop).length)
      inner stop ends) :
    Laid L ret (.one (.ifThen cond body)) s start (s.resume inner) stop false
  | ifElse {cond : Expr} {body orElse : Stmt} {s inner other : Scope} {c : Term}
    {start mid between stop : Nat} {ends otherEnds : Bool}
    (hcond : Resolves s.find? L.signatures (.one cond c))
    (hscalar : c.ty.decay.isScalar = true)
    (hcode : L.Holds start (testCode L c between))
    (hbody : Laid L ret (.one body) s.enter
      (start + (testCode L c between).length) inner mid ends)
    (hbetween : between = if ends then mid else mid + 1)
    (hjump : ends = false →
      L.Holds mid [{ op := .jump, operand := Int64.ofNat stop }])
    (helse : Laid L ret (.one orElse) (s.resume inner).enter between other stop
      otherEnds) :
    Laid L ret (.one (.ifElse cond body orElse)) s start (s.resume other) stop
      (ends && otherEnds)
  | whileDo {cond : Expr} {body : Stmt} {s inner : Scope} {c : Term}
    {start mid : Nat} {ends : Bool}
    (hcond : Resolves s.find? L.signatures (.one cond c))
    (hscalar : c.ty.decay.isScalar = true)
    (hcode : L.Holds start (testCode L c (mid + 1)))
    (hbody : Laid L ret (.one body)
      (s.enterLoop { breakTo := mid + 1, continueTo := start }).enter
      (start + (testCode L c (mid + 1)).length) inner mid ends)
    (hjump : L.Holds mid [{ op := .jump, operand := Int64.ofNat start }]) :
    Laid L ret (.one (.whileDo cond body)) s start (s.resume inner)
      (mid + 1) false
  | breakLoop {s : Scope} {start target : Nat}
    (htarget : s.breakTarget = .ok target)
    (hcode : L.Holds start [{ op := .jump, operand := Int64.ofNat target }]) :
    Laid L ret (.one .breakLoop) s start s (start + 1) true
  | continueLoop {s : Scope} {start target : Nat}
    (htarget : s.continueTarget = .ok target)
    (hcode : L.Holds start [{ op := .jump, operand := Int64.ofNat target }]) :
    Laid L ret (.one .continueLoop) s start s (start + 1) true
  | printf {format : Expr} {args : List Expr} {s : Scope} {a : Term}
    {as : List Term} {start : Nat} {is : List Instr}
    (hformat : Resolves s.find? L.signatures (.one format a))
    (hty : a.ty.decay.isFormat = true)
    (hverbs : checkFormat args.length format = .ok ())
    (hargs : Printed s.find? L.signatures args as)
    (his : is =
      a.code L ++
      (termsCode L as ++
        [{ op := .printf, operand := Int64.ofNat (args.length + 1) }]))
    (hcode : L.Holds start is) :
    Laid L ret (.one (.printf format args)) s start s (start + is.length) false
  | nil {s : Scope} {start : Nat} {ends : Bool} :
    Laid L ret (.many ends []) s start s start ends
  | cons {stmt : Stmt} {ss : List Stmt} {s s' s'' : Scope}
    {start mid stop : Nat} {before ends after : Bool}
    (hfirst : Laid L ret (.one stmt) s start s' mid ends)
    (hrest : Laid L ret (.many ends ss) s' mid s'' stop after) :
    Laid L ret (.many before (stmt :: ss)) s start s'' stop after

/-! ### Scopes -/

/-- The scope with addresses in place of the labels of its loops. -/
def Scope.linked (s : Scope) (target : LabelId → Option Nat) : Scope :=
  { s with loops := s.loops.map fun l =>
      { breakTo := (target l.breakTo).getD 0,
        continueTo := (target l.continueTo).getD 0 } }

/-- Beyond the innermost block, a scope differs from an earlier one in its
number of cells only. -/
def Scope.Continues (s s' : Scope) : Prop :=
  s.blocks ≠ [] → s'.blocks ≠ [] ∧ s'.leave = s.leave.resume s'

namespace Scope

variable {s s' s'' : Scope}

theorem Continues.refl (s : Scope) : s.Continues s :=
  fun h => ⟨h, rfl⟩

theorem Continues.trans (hfirst : s.Continues s') (hsecond : s'.Continues s'') :
    s.Continues s'' := by
  intro hblocks
  obtain ⟨hblocks', hleave⟩ := hfirst hblocks
  obtain ⟨hblocks'', hleave'⟩ := hsecond hblocks'
  exact ⟨hblocks'', by rw [hleave', hleave]; rfl⟩

theorem continues_resume (s inner : Scope) : s.Continues (s.resume inner) :=
  fun h => ⟨h, rfl⟩

/-- Leaving a block gives back the scope around it. -/
theorem Continues.leave_enter (h : s.enter.Continues s') :
    s'.leave = s.resume s' :=
  (h (by simp [enter])).2

theorem continues_addLocal {ty : Ty} {name : Name} {v : LocalVar}
    (h : s.addLocal ty name = .ok (v, s')) : s.Continues s' := by
  intro hblocks
  simp only [addLocal] at h
  obtain ⟨-, h⟩ := ok_of_else h
  cases h
  cases hs : s.blocks with
  | nil => exact absurd hs hblocks
  | cons b bs => simp [put, hs, leave, resume]

theorem loop_of_breakTarget {l : LabelId} (h : s.breakTarget = .ok l) :
    ∃ loop rest, s.loops = loop :: rest ∧ loop.breakTo = l := by
  simp only [breakTarget] at h
  split at h
  next => cases h
  next loop rest hrest =>
    cases h
    exact ⟨loop, rest, hrest, rfl⟩

theorem loop_of_continueTarget {l : LabelId} (h : s.continueTarget = .ok l) :
    ∃ loop rest, s.loops = loop :: rest ∧ loop.continueTo = l := by
  simp only [continueTarget] at h
  split at h
  next => cases h
  next loop rest hrest =>
    cases h
    exact ⟨loop, rest, hrest, rfl⟩

theorem linked_resume (s inner : Scope) (target : LabelId → Option Nat) :
    (s.resume inner).linked target =
      (s.linked target).resume (inner.linked target) := rfl

theorem linked_addLocal {ty : Ty} {name : Name} {v : LocalVar}
    (target : LabelId → Option Nat) (h : s.addLocal ty name = .ok (v, s')) :
    (s.linked target).addLocal ty name = .ok (v, s'.linked target) := by
  simp only [addLocal] at h ⊢
  obtain ⟨hnew, h⟩ := ok_of_else h
  cases h
  have hlinked : ¬ (Block.find? (s.linked target).innermost name).isSome =
      true := hnew
  rw [if_neg hlinked]
  simp only [put, linked]
  split <;> rfl

end Scope

/-! ### Operations of the emitter -/

namespace Emitter

variable {e e' : Emitter} {L : Link} {target : LabelId → Option Nat}
  {l : LabelId}

theorem out_bind (h : e.bind l = .ok e') (hl : l < e.out.draft.labels.size) :
    e.out.Grows e'.out ∧ e'.out.size = e.out.size ∧ e'.out.funcs = e.out.funcs ∧
      e'.out.pool = e.out.pool ∧ e'.scope = e.scope ∧
      (e'.out.draft.label l).addr = some e.out.size := by
  simp only [bind] at h
  split at h
  next => cases h
  next draft hdraft =>
    cases h
    obtain ⟨hgrow, hsize, hbound⟩ := Draft.bind_spec hdraft hl
    exact ⟨Output.Grows.of_draft hgrow, hsize, rfl, rfl, rfl, hbound⟩

theorem grows_jump (e : Emitter) (op : Opcode) (l : LabelId) :
    e.out.Grows (e.jump op l).out :=
  Output.Grows.of_draft (Draft.grows_jump e.out.draft op l)

@[simp] theorem size_jump (e : Emitter) (op : Opcode) (l : LabelId) :
    (e.jump op l).out.size = e.out.size + 1 :=
  Draft.size_jump e.out.draft op l

theorem holds_jump {op : Opcode} {addr : Nat}
    (hlink : (e.jump op l).out.LinksTo L target)
    (hl : l < e.out.draft.labels.size) (haddr : target l = some addr) :
    L.Holds e.out.size [{ op, operand := Int64.ofNat addr }] := by
  obtain ⟨last, hlast, hfinished, hlabels⟩ := hlink
  have hclosed := Draft.closed_jump hlast.draft hl ((hlabels l).trans haddr)
  exact Link.holds_cons.mpr ⟨hfinished.closed _ _ hclosed, Link.holds_nil⟩

theorem grows_newLabel (e : Emitter) : e.out.Grows e.newLabel.2.out :=
  Output.Grows.of_draft (Draft.grows_newLabel e.out.draft)

theorem newLabel_lt (e : Emitter) :
    e.newLabel.1 < e.newLabel.2.out.draft.labels.size := by
  simp [newLabel, Draft.newLabel]

theorem grows_here (e : Emitter) : e.out.Grows e.here.2.out :=
  Output.Grows.of_draft (Draft.grows_here e.out.draft)

theorem here_lt (e : Emitter) : e.here.1 < e.here.2.out.draft.labels.size := by
  simp [here, Draft.here]

/-- The labels of the loops around a place exist and get addresses. -/
def LoopsBound (e : Emitter) (target : LabelId → Option Nat) : Prop :=
  ∀ l ∈ e.scope.loops,
    (l.breakTo < e.out.draft.labels.size ∧ (target l.breakTo).isSome) ∧
  (l.continueTo < e.out.draft.labels.size ∧ (target l.continueTo).isSome)

theorem LoopsBound.of_grows (h : e.LoopsBound target)
    (hgrow : e.out.Grows e'.out) (hloops : e'.scope.loops = e.scope.loops) :
    e'.LoopsBound target := by
  intro l hl
  rw [hloops] at hl
  obtain ⟨⟨hbreak, hbreakAddr⟩, hcontinue, hcontinueAddr⟩ := h l hl
  exact ⟨⟨Nat.lt_of_lt_of_le hbreak hgrow.draft.labels, hbreakAddr⟩,
    Nat.lt_of_lt_of_le hcontinue hgrow.draft.labels, hcontinueAddr⟩

/-- Emitting a part takes one emitter to another and lays out the code of the
part in between. -/
structure Lays (ret : Ty) (part : Part) (e e' : Emitter) (ends : Bool) :
    Prop where
  grows : e.out.Grows e'.out
  defs : e'.out.funcs.defs = e.out.funcs.defs
  pool : e'.out.pool = e.out.pool.addAll part.strings
  loops : e'.scope.loops = e.scope.loops
  scope : e.scope.Continues e'.scope
  laid : ∀ L target, e'.out.LinksTo L target → e.LoopsBound target →
    Laid L ret part (e.scope.linked target) e.out.size (e'.scope.linked target)
    e'.out.size ends

/-! ### Statements without jumps -/

variable {ret : Ty} {part : Part} {ends : Bool}

theorem lays_of_adds {code : Link → List Instr} {strings : List Bytes}
    (hadds : e.out.Adds e'.out code strings) (hstrings : strings = part.strings)
    (hloops : e'.scope.loops = e.scope.loops)
    (hscope : e.scope.Continues e'.scope)
    (hlaid : ∀ L target, e.out.funcs.signatures = L.signatures →
      L.Holds e.out.size (code L) →
      Laid L ret part (e.scope.linked target) e.out.size
      (e'.scope.linked target) (e.out.size + (code L).length) ends) :
    Lays ret part e e' ends where
  grows := hadds.grows
  defs := hadds.defs
  pool := hstrings ▸ hadds.pool
  loops := hloops
  scope := hscope
  laid L target hlink _ := by
    rw [hadds.size L]
    exact hlaid L target (hlink.of_grows hadds.grows).signatures
      (hadds.holds L target hlink)

variable {ty : Ty} {name : Name} {v : LocalVar} {c : Term} {body : Stmt}
  {cond : Expr} {what : Bytes} {inner : Emitter}

theorem of_declare (h : e.declare ty name = .ok (v, e')) :
    Ty.checkStorable name ty = .ok () ∧
      e.scope.addLocal ty name = .ok (v, e'.scope) ∧ e'.out = e.out := by
  obtain ⟨⟨⟩, hty, h⟩ := ok_of_bind h
  obtain ⟨⟨w, scope⟩, hadd, h⟩ := ok_of_bind h
  cases h
  exact ⟨ok_of_typed hty, hadd, rfl⟩

theorem loops_addLocal {s s' : Scope} (h : s.addLocal ty name = .ok (v, s')) :
    s'.loops = s.loops := by
  simp only [Scope.addLocal] at h
  obtain ⟨-, h⟩ := ok_of_else h
  cases h
  simp only [Scope.put]
  split <;> rfl

theorem lays_declare (h : e.declare ty name = .ok (v, e')) :
    Lays ret (.one (.decl ty name)) e e' false := by
  obtain ⟨hty, hadd, hout⟩ := of_declare h
  have hadds : e.out.Adds e'.out (fun _ => []) [] :=
    hout ▸ Output.adds_nil e.out
  refine lays_of_adds hadds rfl (loops_addLocal hadd)
    (Scope.continues_addLocal hadd) fun L target _ _ => ?_
  exact .decl hty (Scope.linked_addLocal target hadd)

theorem lays_declareInit {value : Expr}
    (h : e.declareInit ty name value = .ok e') :
    Lays ret (.one (.init ty name value)) e e' false := by
  obtain ⟨⟨v, out, scope⟩, hdeclare, h⟩ := ok_of_bind h
  obtain ⟨hty, hadd, hout⟩ := of_declare hdeclare
  dsimp only at h hadd hout
  subst hout
  obtain ⟨harray, h⟩ := ok_of_else h
  obtain ⟨a, ha, h⟩ := ok_of_bind h
  obtain ⟨⟨⟩, hassign, h⟩ := ok_of_bind h
  cases h
  obtain ⟨hvalue, hcalls⟩ := resolves_of_check value ha
  have hadds := ((a.adds_emit e.out hcalls).append_plain
    (Output.adds_emitAll _ (convertCode v.ty a.ty))).append_plain
    (Output.adds_emit _ { op := .storeLocal, operand := v.operand })
  refine lays_of_adds hadds hvalue.strings (loops_addLocal hadd)
    (Scope.continues_addLocal hadd) fun L target hsig hcode => ?_
  exact .init hty (Scope.linked_addLocal target hadd) (hsig ▸ hvalue)
    (by simpa using harray) (ok_of_typed (ok_of_located hassign)) rfl hcode

theorem lays_assign {x value : Expr} (h : e.assign x value = .ok e') :
    Lays ret (.one (.assign x value)) e e' false := by
  obtain ⟨y, hy, h⟩ := ok_of_bind h
  obtain ⟨a, ha, h⟩ := ok_of_bind h
  obtain ⟨⟨⟩, hassign, h⟩ := ok_of_bind h
  obtain ⟨hvalue, hcalls⟩ := resolves_of_check value ha
  rcases resolves_of_checkTarget hy with
      ⟨name, v, rfl, rfl, hv⟩ | ⟨z, p, ty, rfl, rfl, hz, hzCalls, hty⟩
  · cases h
    have hadds := ((a.adds_emit e.out hcalls).append_plain
      (Output.adds_emitAll _ (convertCode v.ty a.ty))).append_plain
      (Output.adds_emit _ { op := .storeLocal, operand := v.operand })
    refine lays_of_adds hadds hvalue.strings rfl (Scope.Continues.refl _)
      fun L target hsig hcode => ?_
    exact .assignVar hv (hsig ▸ hvalue) (ok_of_typed hassign) rfl hcode
  · cases h
    have hp := p.adds_emit e.out hzCalls
    have hadds :=
      hp.append
        (((a.adds_emit _ (hp.defs ▸ hcalls)).append_plain
          (Output.adds_emitAll _ (convertCode ty a.ty))).append_plain
          (Output.adds_emit _ { op := .store }))
    have hstrings : p.strings ++ a.strings = z.strings ++ value.strings := by
      rw [hz.strings, hvalue.strings]
    refine lays_of_adds hadds hstrings rfl (Scope.Continues.refl _)
      fun L target hsig hcode => ?_
    exact .assignCell (hsig ▸ hz) hty (hsig ▸ hvalue) (ok_of_typed hassign)
      rfl hcode

theorem lays_giveBack {f : FuncDef} {value : Option Expr}
    (h : e.giveBack f value = .ok e') :
    Lays f.ret (.one (.ret value)) e e' true := by
  cases value with
  | none =>
    simp only [giveBack] at h
    obtain ⟨hvoid, h⟩ := ok_of_then h
    cases h
    exact lays_of_adds (Output.adds_emitAll e.out returnZero) rfl rfl
      (Scope.Continues.refl _) fun L target _ hcode => .retNone hvoid hcode
  | some value =>
    simp only [giveBack] at h
    obtain ⟨hvoid, h⟩ := ok_of_else h
    obtain ⟨a, ha, h⟩ := ok_of_bind h
    obtain ⟨⟨⟩, hassign, h⟩ := ok_of_bind h
    cases h
    obtain ⟨hvalue, hcalls⟩ := resolves_of_check value ha
    have hadds :=
      ((a.adds_emit e.out hcalls).append_plain
        (Output.adds_emitAll _ (convertCode f.ret a.ty))).append_plain
        (Output.adds_emit _ { op := .ret })
    refine lays_of_adds hadds hvalue.strings rfl (Scope.Continues.refl _)
      fun L target hsig hcode => ?_
    exact .retSome (by simpa using hvoid) (hsig ▸ hvalue)
      (ok_of_typed (ok_of_located hassign)) rfl hcode

theorem lays_printf {format : Expr} {args : List Expr}
    (h : e.printf format args = .ok e') :
    Lays ret (.one (.printf format args)) e e' false := by
  obtain ⟨a, ha, h⟩ := ok_of_bind h
  obtain ⟨hty, h⟩ := ok_of_then h
  obtain ⟨⟨⟩, hverbs, h⟩ := ok_of_bind h
  obtain ⟨as, has, h⟩ := ok_of_bind h
  cases h
  obtain ⟨hformat, hcalls⟩ := resolves_of_check format ha
  obtain ⟨hargs, hargsCalls⟩ := printed_of_checkPrinted has
  have hfirst := a.adds_emit e.out hcalls
  have hadds :=
    hfirst.append
      ((adds_emitTerms as fun b hb =>
        hfirst.defs ▸ hargsCalls b hb).append_plain
        (Output.adds_emit
          _ { op := .printf, operand := Int64.ofNat (args.length + 1) }))
  have hstrings : a.strings ++ as.flatMap Term.strings = format.strings ++
      exprsStrings args := by
    rw [hformat.strings, hargs.strings]
  refine lays_of_adds hadds hstrings rfl (Scope.Continues.refl _)
    fun L target hsig hcode => ?_
  exact .printf (hsig ▸ hformat) hty hverbs (hsig ▸ hargs) rfl hcode

theorem lays_expr {x : Expr} {a : Term} (h : e.check x = .ok a) :
    Lays ret (.one (.expr x)) e ((e.emitTerm a).emit { op := .pop }) false := by
  obtain ⟨hx, hcalls⟩ := resolves_of_check x h
  refine lays_of_adds
    ((a.adds_emit e.out hcalls).append_plain
      (Output.adds_emit _ { op := .pop })) hx.strings rfl
      (Scope.Continues.refl _) fun L target hsig hcode => ?_
  exact .expr (hsig ▸ hx) rfl hcode

/-! ### Statements with jumps -/

/-- A condition with the jump to a new label that is made if it does not
hold. -/
def test (e : Emitter) (c : Term) : LabelId × Emitter :=
  let (l, e) := (e.emitTerm c).newLabel
  (l, e.jump .jumpZero l)

theorem test_spec (hcalls : c.CallsIn e.out.funcs.defs) :
    e.out.Grows (e.test c).2.out ∧
      (e.test c).2.out.funcs.defs = e.out.funcs.defs ∧
      (e.test c).2.out.pool = e.out.pool.addAll c.strings ∧
      (e.test c).1 < (e.test c).2.out.draft.labels.size ∧
      ∀ L target addr, (e.test c).2.out.LinksTo L target →
        target (e.test c).1 = some addr →
        L.Holds e.out.size (testCode L c addr) ∧
          (e.test c).2.out.size = e.out.size + (testCode L c addr).length := by
  have hterm : e.out.Adds (e.emitTerm c).out c.code c.strings :=
    c.adds_emit e.out hcalls
  have hlabel := grows_newLabel (e.emitTerm c)
  have hjump :=
    grows_jump (e.emitTerm c).newLabel.2 .jumpZero (e.emitTerm c).newLabel.1
  refine ⟨hterm.grows.trans (hlabel.trans hjump), hterm.defs, hterm.pool,
    Nat.lt_of_lt_of_le (newLabel_lt _) hjump.draft.labels,
    fun L target addr hlink haddr => ?_⟩
  have hcode := hterm.holds L target (hlink.of_grows (hlabel.trans hjump))
  have hlast :=
    holds_jump (e := (e.emitTerm c).newLabel.2) hlink
      (newLabel_lt (e.emitTerm c)) haddr
  have hsize : (e.emitTerm c).newLabel.2.out.size =
      e.out.size + (c.code L).length := hterm.size L
  rw [hsize] at hlast
  refine ⟨Link.holds_append.mpr ⟨hcode, hlast⟩, ?_⟩
  simp only [test, size_jump, hsize, testCode, List.length_append,
    List.length_singleton]
  omega

theorem lays_block {body : List Stmt}
    (hbody : Lays ret (.many false body) { e with scope := e.scope.enter }
      e' ends) :
    Lays ret (.one (.block body)) e
      { e' with scope := e'.scope.leave } ends := by
  have hleave : e'.scope.leave = e.scope.resume e'.scope :=
    hbody.scope.leave_enter
  rw [hleave]
  exact { grows := hbody.grows
          defs := hbody.defs
          pool := hbody.pool
          loops := rfl
          scope := Scope.continues_resume _ _
          laid := fun L target hlink hloops => by
            rw [Scope.linked_resume]
            exact .block (hbody.laid L target hlink hloops) }

theorem lays_ifThen (hcond : e.checkScalar what cond = .ok c)
    (hbody : Lays ret (.one body) { (e.test c).2 with scope := e.scope.enter }
      inner ends)
    (hbind : { inner with scope := inner.scope.leave }.bind (e.test c).1 =
      .ok e') : Lays ret (.one (.ifThen cond body)) e e' false := by
  obtain ⟨hresolves, hcalls, hscalar⟩ := resolves_of_checkScalar hcond
  obtain ⟨hgrow, hdefs, hpool, hlabel, htest⟩ := test_spec hcalls
  obtain ⟨hlast, hsize, hfuncs, hlastPool, hscope, hbound⟩ :=
    out_bind hbind (Nat.lt_of_lt_of_le hlabel hbody.grows.draft.labels)
  have hleave : inner.scope.leave = e.scope.resume inner.scope :=
    hbody.scope.leave_enter
  dsimp only at hlast hsize hfuncs hlastPool hscope hbound
  have hscope' : e'.scope = e.scope.resume inner.scope := hscope.trans hleave
  have hpool' :
      e'.out.pool = e.out.pool.addAll (cond.strings ++ body.strings) := by
    rw [hlastPool, hbody.pool, hpool, Pool.addAll_append, hresolves.strings]
    rfl
  refine ⟨hgrow.trans (hbody.grows.trans hlast), by rw [hfuncs, hbody.defs,
    hdefs], hpool',
    by rw [hscope']; rfl, hscope' ▸ Scope.continues_resume _ _,
      fun L target hlink hloops => ?_⟩
  have hinner := hlink.of_grows hlast
  have hsig : e.out.funcs.signatures = L.signatures :=
    (hinner.of_grows (hgrow.trans hbody.grows)).signatures
  obtain ⟨hcode, hmid⟩ :=
    htest L target inner.out.size (hinner.of_grows hbody.grows)
      (hlink.bound hbound)
  have hlaid := hbody.laid L target hinner (hloops.of_grows hgrow rfl)
  dsimp only at hlaid
  rw [hmid] at hlaid
  rw [hsize, hscope', Scope.linked_resume]
  exact .ifThen (hsig ▸ hresolves) hscalar hcode hlaid

theorem lays_ifElse {orElse : Stmt} {fresh jumped mid last : Emitter}
    {done : LabelId} {otherEnds : Bool}
    (hcond : e.checkScalar what cond = .ok c)
    (hbody : Lays ret (.one body) { (e.test c).2 with scope := e.scope.enter }
      inner ends)
    (hfresh : { inner with scope := inner.scope.leave }.newLabel =
      (done, fresh))
    (hjumped : jumped = if ends then fresh else fresh.jump .jump done)
    (hmid : jumped.bind (e.test c).1 = .ok mid)
    (helse : Lays ret (.one orElse) { mid with scope := mid.scope.enter } last
      otherEnds)
    (hbind : { last with scope := last.scope.leave }.bind done = .ok e') :
    Lays ret (.one (.ifElse cond body orElse)) e e' (ends && otherEnds) := by
  obtain ⟨hresolves, hcalls, hscalar⟩ := resolves_of_checkScalar hcond
  obtain ⟨hgrow, hdefs, hpool, hlabel, htest⟩ := test_spec hcalls
  have hleave : inner.scope.leave = e.scope.resume inner.scope :=
    hbody.scope.leave_enter
  have hfreshGrows := grows_newLabel { inner with scope := inner.scope.leave }
  have hdone := newLabel_lt { inner with scope := inner.scope.leave }
  rw [hfresh] at hfreshGrows hdone
  have hfreshSame : fresh.out.size = inner.out.size ∧
      fresh.out.funcs = inner.out.funcs ∧ fresh.out.pool = inner.out.pool ∧
      fresh.scope = inner.scope.leave := by
    cases hfresh
    exact ⟨rfl, rfl, rfl, rfl⟩
  obtain ⟨hfreshSize, hfreshFuncs, hfreshPool, hfreshScope⟩ := hfreshSame
  have hjumpedSpec : fresh.out.Grows jumped.out ∧
      jumped.out.funcs = fresh.out.funcs ∧ jumped.out.pool = fresh.out.pool ∧
      jumped.scope = fresh.scope ∧ jumped.out.size = if ends then inner.out.size
      else inner.out.size + 1 := by
    cases ends with
    | true =>
      subst hjumped
      exact ⟨Output.Grows.refl _, rfl, rfl, rfl, hfreshSize⟩
    | false =>
      subst hjumped
      exact ⟨grows_jump _ _ _, rfl, rfl, rfl, by simp [hfreshSize]⟩
  obtain ⟨hjumpedGrows, hjumpedFuncs, hjumpedPool, hjumpedScope, hjumpedSize⟩ :=
    hjumpedSpec
  have htoJumped := hbody.grows.trans (hfreshGrows.trans hjumpedGrows)
  obtain ⟨hmidGrows, hmidSize, hmidFuncs, hmidPool, hmidScope, hmidBound⟩ :=
    out_bind hmid (Nat.lt_of_lt_of_le hlabel htoJumped.draft.labels)
  have hmidIs : mid.scope = e.scope.resume inner.scope := by
    rw [hmidScope, hjumpedScope, hfreshScope, hleave]
  have htoLast := hjumpedGrows.trans (hmidGrows.trans helse.grows)
  obtain ⟨hlastGrows, hlastSize, hlastFuncs, hlastPool, hlastScope,
      hlastBound⟩ :=
    out_bind hbind (Nat.lt_of_lt_of_le hdone htoLast.draft.labels)
  have helseLeave : last.scope.leave = mid.scope.resume last.scope :=
    helse.scope.leave_enter
  have hscope' : e'.scope = e.scope.resume last.scope := by
    rw [hlastScope, helseLeave, hmidIs]
    rfl
  have hpool' :
      e'.out.pool =
      e.out.pool.addAll (cond.strings ++ body.strings ++ orElse.strings) := by
    rw [hlastPool, helse.pool, hmidPool, hjumpedPool, hfreshPool, hbody.pool,
      hpool, Pool.addAll_append, Pool.addAll_append, hresolves.strings]
    rfl
  refine ⟨hgrow.trans
    (hbody.grows.trans (hfreshGrows.trans (htoLast.trans hlastGrows))),
    ?_, hpool',
    by rw [hscope']; rfl,
    hscope' ▸ Scope.continues_resume _ _, fun L target hlink hloops => ?_⟩
  · rw [hlastFuncs, helse.defs, hmidFuncs, hjumpedFuncs, hfreshFuncs,
      hbody.defs, hdefs]
  · have hlinkLast := hlink.of_grows hlastGrows
    have hlinkMid := hlinkLast.of_grows helse.grows
    have hlinkJumped := hlinkMid.of_grows hmidGrows
    have hlinkInner := hlinkJumped.of_grows (hfreshGrows.trans hjumpedGrows)
    have hsig : e.out.funcs.signatures = L.signatures :=
      (hlinkInner.of_grows (hgrow.trans hbody.grows)).signatures
    obtain ⟨hcode, hstart⟩ :=
      htest L target jumped.out.size (hlinkInner.of_grows hbody.grows)
        (hlinkMid.bound hmidBound)
    have hlaid := hbody.laid L target hlinkInner (hloops.of_grows hgrow rfl)
    have helseLaid :=
      helse.laid L target hlinkLast
        (hloops.of_grows (hgrow.trans (htoJumped.trans hmidGrows))
          (by rw [hmidIs]; rfl))
    dsimp only at hlaid helseLaid
    rw [hstart] at hlaid
    rw [hmidSize, hmidIs] at helseLaid
    rw [hlastSize, hscope', Scope.linked_resume]
    refine .ifElse (hsig ▸ hresolves) hscalar hcode hlaid hjumpedSize
      (fun hends => ?_) helseLaid
    subst hends
    subst hjumped
    rw [← hfreshSize]
    exact holds_jump hlinkJumped hdone (hlink.bound hlastBound)

theorem lays_whileDo {head : Emitter}
    {again : LabelId} (hhere : e.here = (again, head))
    (hcond : head.checkScalar what cond = .ok c)
    (hbody : Lays ret (.one body) { (head.test c).2 with
      scope :=
        (head.scope.enterLoop
          { breakTo := (head.test c).1, continueTo := again }).enter }
          inner ends)
    (hbind : ({ inner with scope := inner.scope.leave.leaveLoop }.jump .jump
      again).bind (head.test c).1 =
      .ok e') :
    Lays ret (.one (.whileDo cond body)) e e' false := by
  have hhead := grows_here e
  have hagain := here_lt e
  have hagainBound := Draft.addr_here e.out.draft
  obtain ⟨hheadSize, hheadFuncs, hheadPool, hheadScope⟩ :
      head.out.size = e.out.size ∧ head.out.funcs = e.out.funcs ∧
      head.out.pool = e.out.pool ∧ head.scope = e.scope := by
    cases hhere
    exact ⟨rfl, rfl, rfl, rfl⟩
  rw [hhere] at hhead hagain
  replace hagainBound :
      (head.out.draft.label again).addr = some e.out.size := by
    cases hhere
    exact hagainBound
  obtain ⟨hresolves, hcalls, hscalar⟩ := resolves_of_checkScalar hcond
  obtain ⟨hgrow, hdefs, hpool, hlabel, htest⟩ := test_spec hcalls
  have hleave := hbody.scope.leave_enter
  have hjump :=
    grows_jump { inner with scope := inner.scope.leave.leaveLoop } .jump again
  have hfromTest := hbody.grows.trans hjump
  obtain ⟨hlast, hsize, hfuncs, hlastPool, hscope, hbound⟩ :=
    out_bind hbind (Nat.lt_of_lt_of_le hlabel hfromTest.draft.labels)
  have hscope' : e'.scope = e.scope.resume inner.scope := by
    rw [hscope, ← hheadScope]
    exact congrArg Scope.leaveLoop hleave
  have hpool' :
      e'.out.pool = e.out.pool.addAll (cond.strings ++ body.strings) := by
    rw [hlastPool]
    refine hbody.pool.trans ?_
    rw [hpool, hheadPool, Pool.addAll_append, hresolves.strings]
    rfl
  refine ⟨hhead.trans (hgrow.trans (hfromTest.trans hlast)), ?_,
    hpool', by rw [hscope']; rfl,
    hscope' ▸ Scope.continues_resume _ _, fun L target hlink hloops => ?_⟩
  · rw [hfuncs]
    exact hbody.defs.trans (hdefs.trans (by rw [hheadFuncs]))
  · have hlinkJump := hlink.of_grows hlast
    have hlinkInner := hlinkJump.of_grows hjump
    have hlinkTest := hlinkInner.of_grows hbody.grows
    have hsig : head.out.funcs.signatures = L.signatures :=
      (hlinkTest.of_grows hgrow).signatures
    have hagainAddr : target again = some e.out.size :=
      (hlinkTest.of_grows hgrow).bound hagainBound
    have hdoneAddr : target (head.test c).1 = some (inner.out.size + 1) := by
      have := hlink.bound hbound
      rwa [size_jump] at this
    obtain ⟨hcode, hstart⟩ :=
      htest L target (inner.out.size + 1) hlinkTest hdoneAddr
    have hloops' : ({ (head.test c).2 with
        scope :=
          (head.scope.enterLoop
            { breakTo := (head.test c).1, continueTo := again }).enter } :
            Emitter).LoopsBound target := by
      intro l hl
      rcases List.mem_cons.mp hl with rfl | hl
      · exact ⟨⟨hlabel, by rw [hdoneAddr]; rfl⟩,
          Nat.lt_of_lt_of_le hagain hgrow.draft.labels,
          by rw [hagainAddr]; rfl⟩
      · rw [hheadScope] at hl
        have htested :
            ({ (head.test c).2 with scope := e.scope } : Emitter).LoopsBound
            target := hloops.of_grows (hhead.trans hgrow) rfl
        exact htested l hl
    have hlaid := hbody.laid L target hlinkInner hloops'
    have hinside :
        (head.scope.enterLoop
        { breakTo := (head.test c).1, continueTo := again }).linked target =
        (e.scope.linked target).enterLoop
        { breakTo := inner.out.size + 1, continueTo := e.out.size } := by
      rw [hheadScope]
      simp [Scope.linked, Scope.enterLoop, hdoneAddr, hagainAddr]
    have hback :=
      holds_jump hlinkJump
        (Nat.lt_of_lt_of_le hagain (hgrow.trans hbody.grows).draft.labels)
        hagainAddr
    rw [hsize, hscope', Scope.linked_resume, size_jump]
    rw [hheadSize] at hcode hstart
    dsimp only at hlaid
    rw [hstart] at hlaid
    have hscopes :
        (head.scope.enterLoop
        { breakTo := (head.test c).1, continueTo := again }).enter.linked
        target =
        ((e.scope.linked target).enterLoop
        { breakTo := inner.out.size + 1, continueTo := e.out.size }).enter := by
      rw [← hinside]
      rfl
    exact .whileDo (hheadScope ▸ hsig ▸ hresolves) hscalar hcode
      (hscopes ▸ hlaid) hback

theorem lays_breakLoop (h : e.scope.breakTarget = .ok l) :
    Lays ret (.one .breakLoop) e (e.jump .jump l) true where
  grows := grows_jump e .jump l
  defs := rfl
  pool := rfl
  loops := rfl
  scope := Scope.Continues.refl _
  laid L target hlink hloops := by
    obtain ⟨loop, rest, hrest, rfl⟩ := Scope.loop_of_breakTarget h
    obtain ⟨⟨hlt, hsome⟩, -⟩ := hloops loop (by simp [hrest])
    obtain ⟨addr, haddr⟩ := Option.isSome_iff_exists.mp hsome
    rw [size_jump]
    have htarget : (e.scope.linked target).breakTarget = .ok addr := by
      simp [Scope.linked, Scope.breakTarget, hrest, haddr]
    exact .breakLoop htarget (holds_jump hlink hlt haddr)

theorem lays_continueLoop (h : e.scope.continueTarget = .ok l) :
    Lays ret (.one .continueLoop) e (e.jump .jump l) true where
  grows := grows_jump e .jump l
  defs := rfl
  pool := rfl
  loops := rfl
  scope := Scope.Continues.refl _
  laid L target hlink hloops := by
    obtain ⟨loop, rest, hrest, rfl⟩ := Scope.loop_of_continueTarget h
    obtain ⟨-, hlt, hsome⟩ := hloops loop (by simp [hrest])
    obtain ⟨addr, haddr⟩ := Option.isSome_iff_exists.mp hsome
    rw [size_jump]
    have htarget : (e.scope.linked target).continueTarget = .ok addr := by
      simp [Scope.linked, Scope.continueTarget, hrest, haddr]
    exact .continueLoop htarget (holds_jump hlink hlt haddr)

theorem Lays.cons {stmt : Stmt} {ss : List Stmt} {mid : Emitter}
    {before after : Bool} (hfirst : Lays ret (.one stmt) e mid ends)
    (hrest : Lays ret (.many ends ss) mid e' after) :
    Lays ret (.many before (stmt :: ss)) e e' after where
  grows := hfirst.grows.trans hrest.grows
  defs := hrest.defs.trans hfirst.defs
  pool := by
    rw [hrest.pool, hfirst.pool, ← Pool.addAll_append]
    rfl
  loops := hrest.loops.trans hfirst.loops
  scope := hfirst.scope.trans hrest.scope
  laid L target hlink hloops :=
    .cons (hfirst.laid L target (hlink.of_grows hrest.grows) hloops)
      (hrest.laid L target hlink (hloops.of_grows hfirst.grows hfirst.loops))

end Emitter

section

open Emitter

mutual

/-- Emitting a statement lays out its code. -/
theorem Stmt.lays_emit (f : FuncDef) :
    (s : Stmt) → {e e' : Emitter} → {ends : Bool} →
      s.emit f e = .ok (ends, e') → Lays f.ret (.one s) e e' ends
  | .block body, e, e', ends, h => by
    obtain ⟨⟨_, inner⟩, hbody, h⟩ := ok_of_bind h
    cases h
    exact lays_block (lays_emitStmts f false body hbody)
  | .func .., _, _, _, h => by cases h
  | .decl ty name, e, e', ends, h => by
    obtain ⟨⟨v, _⟩, hdeclare, h⟩ := ok_of_bind h
    cases h
    exact lays_declare hdeclare
  | .init ty name value, e, e', ends, h => by
    obtain ⟨_, hinit, h⟩ := ok_of_bind h
    cases h
    exact lays_declareInit hinit
  | .assign x value, e, e', ends, h => by
    obtain ⟨_, hassign, h⟩ := ok_of_bind h
    cases h
    exact lays_assign hassign
  | .ret value, e, e', ends, h => by
    obtain ⟨_, hret, h⟩ := ok_of_bind h
    cases h
    exact lays_giveBack hret
  | .expr x, e, e', ends, h => by
    obtain ⟨a, ha, h⟩ := ok_of_bind h
    cases h
    exact lays_expr ha
  | .ifThen cond body, e, e', ends, h => by
    obtain ⟨c, hcond, h⟩ := ok_of_bind h
    obtain ⟨⟨_, inner⟩, hbody, h⟩ := ok_of_bind h
    obtain ⟨_, hbind, h⟩ := ok_of_bind h
    cases h
    exact lays_ifThen hcond (body.lays_emit f hbody) hbind
  | .ifElse cond body orElse, e, e', ends, h => by
    obtain ⟨c, hcond, h⟩ := ok_of_bind h
    obtain ⟨⟨_, inner⟩, hbody, h⟩ := ok_of_bind h
    obtain ⟨mid, hmid, h⟩ := ok_of_bind h
    obtain ⟨⟨_, last⟩, helse, h⟩ := ok_of_bind h
    obtain ⟨_, hbind, h⟩ := ok_of_bind h
    cases h
    exact lays_ifElse hcond (body.lays_emit f hbody) rfl rfl hmid
      (orElse.lays_emit f helse) hbind
  | .whileDo cond body, e, e', ends, h => by
    obtain ⟨c, hcond, h⟩ := ok_of_bind h
    obtain ⟨⟨_, inner⟩, hbody, h⟩ := ok_of_bind h
    obtain ⟨_, hbind, h⟩ := ok_of_bind h
    cases h
    exact lays_whileDo rfl hcond (body.lays_emit f hbody) hbind
  | .breakLoop, e, e', ends, h => by
    obtain ⟨l, hl, h⟩ := ok_of_bind h
    cases h
    exact lays_breakLoop hl
  | .continueLoop, e, e', ends, h => by
    obtain ⟨l, hl, h⟩ := ok_of_bind h
    cases h
    exact lays_continueLoop hl
  | .printf format args, e, e', ends, h => by
    obtain ⟨_, hprintf, h⟩ := ok_of_bind h
    cases h
    exact lays_printf hprintf
  | .hole, _, _, _, h => by cases h

theorem lays_emitStmts (f : FuncDef) :
    (before : Bool) → (ss : List Stmt) → {e e' : Emitter} → {ends : Bool} →
      emitStmts f before ss e = .ok (ends, e') →
      Lays f.ret (.many before ss) e e' ends
  | before, [], e, e', ends, h => by
    cases h
    exact lays_of_adds (Output.adds_nil e.out) rfl rfl (Scope.Continues.refl _)
      fun _ _ _ _ => .nil
  | before, s :: ss, e, e', ends, h => by
    obtain ⟨⟨first, mid⟩, hfirst, h⟩ := ok_of_bind h
    exact (s.lays_emit f hfirst).cons (lays_emitStmts f first ss h)

end

end

end StackC
