import StackC.Proofs.Operators

/-!
The code of expressions carries out their evaluation.
-/

namespace StackC

def LocalVar.addr (v : LocalVar) (fr : Frame) : Nat :=
  (if v.isParam then fr.base else fr.base + fr.count) + v.slot.toInt.toNat - 1

def LocalVar.binding (fr : Frame) (v : LocalVar) : Binding where
  name := v.name
  ty := v.ty
  addr := v.addr fr

variable {args : List Cell}

namespace Machine

variable {m : Machine} {fr : Frame} {cells : Nat} {v : LocalVar}

/-- The variables of a function have cells in memory, and instructions find
them. -/
theorem Inside.variable (hm : m.Inside fr cells)
    (hv : v.Within fr.count cells) :
    m.slotAddr v.operand = some (Int64.ofNat (v.addr fr)) ∧ 1 ≤ v.addr fr ∧
      v.addr fr < m.memory.size := by
  obtain ⟨k, hpos, hk, hslot⟩ := hv
  have hbase := hm.base
  have hsize := hm.size
  have hlt := hm.size_lt
  have hsmall : (Int64.ofNat k).toInt.toNat = k := by
    rw [Int64.toInt_ofNat_of_lt (by split at hk <;> omega), Int.toNat_natCast]
  cases hparam : v.isParam with
  | true =>
    simp only [LocalVar.operand, LocalVar.addr, hparam, hslot, hsmall, if_true]
      at hk ⊢
    exact ⟨slotAddr_arg hm.frame hpos hk (by omega), by omega, by omega⟩
  | false =>
    simp only [LocalVar.operand, LocalVar.addr, hparam, hslot, hsmall,
      Bool.false_eq_true, if_false] at hk ⊢
    exact ⟨slotAddr_local hm.frame hpos (by omega) hlt, by omega, by omega⟩

/-- How an instruction finds its arguments on the stack. -/
theorem takes_args (least : Cell) {stack under : List Cell} {operand : Cell}
    (hstack : stack = args.reverse ++ under)
    (hcount : operand.toInt = args.length)
    (hleast : least.toInt ≤ operand.toInt) :
    ¬ (operand < least ∨ (!hasAtLeast operand.toInt.toNat stack) = true) ∧
      (stack.take operand.toInt.toNat).reverse = args ∧
      stack.drop operand.toInt.toNat = under := by
  have hlength : args.reverse.length = operand.toInt.toNat := by
    rw [List.length_reverse, hcount, Int.toNat_natCast]
  refine ⟨count_ok hleast ?_, ?_, ?_⟩
  · rw [hstack, List.length_append, hlength]
    omega
  · rw [hstack, List.take_left' hlength, List.reverse_reverse]
  · rw [hstack, List.drop_left' hlength]

end Machine

theorem checkAddr_ofNat {memory : Array Cell} {k : Nat} (hpos : 1 ≤ k)
    (hk : k < memory.size) (hsize : memory.size < 2 ^ 63) :
    checkAddr memory (Int64.ofNat k) = .ok k := by
  have htoInt : (Int64.ofNat k).toInt = k := Int64.toInt_ofNat_of_lt (by omega)
  have hne : Int64.ofNat k ≠ 0 := by
    intro hzero
    rw [hzero, Int64.toInt_zero] at htoInt
    omega
  rw [checkAddr, if_neg hne, htoInt, if_neg (by omega), Int.toNat_natCast]

section

variable {check : Store → Except Fault α} {f : Store → α → Eval β} {s : Store}

/-- An access that is checked first. -/
theorem checked_of_ok {a : α} (h : check s = .ok a) :
    (get >>= fun s => orFault (check s) >>= f s : Eval β) s = f s a s := by
  have hget : (get : Eval Store) s = .ok s s := rfl
  rw [Eval.bind_of_ok hget, h]
  exact Eval.bind_of_ok rfl

theorem checked_of_error {e : Fault} (h : check s = .error e) :
    (get >>= fun s => orFault (check s) >>= f s : Eval β) s =
      .error (.fault e) s := by
  have hget : (get : Eval Store) s = .ok s s := rfl
  rw [Eval.bind_of_ok hget, h]
  exact Eval.bind_of_error rfl

end

namespace Setting

variable {c : Setting}

variable {v : LocalVar}

theorem computes_addrLocal (hv : v.Within c.frame.count c.cells) :
    c.Computes [{ op := .addrLocal, operand := v.operand }] []
      [Int64.ofNat (v.addr c.frame)] := by
  refine performs_one fun lim m addr under _ hpc hm hstack => ?_
  obtain ⟨hslot, -⟩ := hm.variable hv
  refine ⟨m.push (Int64.ofNat (v.addr c.frame)), ?_, rfl, hpc, ?_, rfl,
    rfl, rfl, rfl⟩
  · simp [Machine.exec, hslot, Machine.go]
  · rw [Machine.push, hstack]
    rfl

theorem performs_loadLocal (hv : v.Within c.frame.count c.cells) :
    c.Performs [{ op := .loadLocal, operand := v.operand }] []
      (load (Int64.ofNat (v.addr c.frame))) fun a => [a] := by
  refine performs_one fun lim m addr under _ hpc hm hstack => ?_
  obtain ⟨hslot, hpos, hlt⟩ := hm.variable hv
  have hcheck : checkAddr m.store.memory (Int64.ofNat (v.addr c.frame)) =
      .ok (v.addr c.frame) := checkAddr_ofNat hpos hlt hm.size_lt
  rw [load, checked_of_ok hcheck]
  refine ⟨m.push (m.memory.getD (v.addr c.frame) 0), ?_, rfl, hpc, ?_, rfl,
    rfl, rfl, rfl⟩
  · simp [Machine.exec, hslot, Machine.index?_ofNat hlt hm.size_lt, Machine.go]
  · rw [Machine.push, hstack]
    rfl

theorem performs_storeLocal (hv : v.Within c.frame.count c.cells) (a : Cell) :
    c.Performs [{ op := .storeLocal, operand := v.operand }] [a]
      (store (Int64.ofNat (v.addr c.frame)) a) fun _ => [] := by
  refine performs_one fun lim m addr under _ hpc hm hstack => ?_
  obtain ⟨hslot, hpos, hlt⟩ := hm.variable hv
  have hcheck : checkAddr m.store.memory (Int64.ofNat (v.addr c.frame)) =
      .ok (v.addr c.frame) := checkAddr_ofNat hpos hlt hm.size_lt
  have hindex :
      Machine.index? { m with stack := under } (Int64.ofNat (v.addr c.frame)) =
      some (v.addr c.frame) := Machine.index?_ofNat hlt hm.size_lt
  rw [store, checked_of_ok hcheck]
  refine ⟨{ m with stack := under,
                   memory := m.memory.setIfInBounds (v.addr c.frame) a }, ?_,
                     rfl, hpc, rfl, rfl, rfl, rfl, Array.size_setIfInBounds⟩
  simp [Machine.exec, Machine.withPop, hstack, hslot, hindex, Machine.go]

theorem performs_load (a : Cell) :
    c.Performs [{ op := .load }] [a] (load a) fun v => [v] := by
  refine performs_one fun lim m addr under _ hpc hm hstack => ?_
  cases hcheck : checkAddr m.memory a with
  | ok k =>
    have hcheck' : checkAddr m.store.memory a = .ok k := hcheck
    rw [load, checked_of_ok hcheck']
    refine ⟨{ m with stack := m.memory.getD k 0 :: under }, ?_, rfl, hpc, rfl,
      rfl, rfl, rfl, rfl⟩
    simp [Machine.exec, Machine.withPop, hstack, hcheck, Machine.go,
      Machine.push]
  | error f =>
    have hcheck' : checkAddr m.store.memory a = .error f := hcheck
    rw [load, checked_of_error hcheck']
    refine ⟨{ m with stack := under, halted := true },
      { pc := m.pc, fault := f }, ?_, rfl, rfl⟩
    simp [Machine.exec, Machine.withPop, hstack, hcheck, Machine.fail]

theorem performs_store (a v : Cell) :
    c.Performs [{ op := .store }] [v, a] (store a v) fun _ => [] := by
  refine performs_one fun lim m addr under _ hpc hm hstack => ?_
  cases hcheck : checkAddr m.memory a with
  | ok k =>
    have hcheck' : checkAddr m.store.memory a = .ok k := hcheck
    rw [store, checked_of_ok hcheck']
    refine ⟨{ m with stack := under, memory := m.memory.setIfInBounds k v }, ?_,
      rfl, hpc, rfl, rfl, rfl, rfl, Array.size_setIfInBounds⟩
    simp [Machine.exec, Machine.withPop2, Machine.withPop, hstack, hcheck,
      Machine.go]
  | error f =>
    have hcheck' : checkAddr m.store.memory a = .error f := hcheck
    rw [store, checked_of_error hcheck']
    refine ⟨{ m with stack := under, halted := true },
      { pc := m.pc, fault := f }, ?_, rfl, rfl⟩
    simp [Machine.exec, Machine.withPop2, Machine.withPop, hstack, hcheck,
      Machine.fail]

/-- The instruction that writes to the output. -/
theorem performs_print {a operand : Cell}
    (hoperand : operand.toInt = args.length + 1) :
    c.Performs [{ op := .printf, operand }] (a :: args).reverse (print a args)
      fun _ => [] := by
  refine performs_one fun lim m addr under hwrite hpc hm hstack => ?_
  obtain ⟨henough, htake, hdrop⟩ :=
    Machine.takes_args 1 hstack (by rw [hoperand, List.length_cons]; rfl)
      (by rw [hoperand, show (1 : Cell).toInt = 1 from rfl]; omega)
  cases hformat : formatAt m.memory a args with
  | ok shown =>
    have hformat' : formatAt m.store.memory a args = .ok shown := hformat
    rw [print, checked_of_ok hformat']
    refine ⟨{ m with stack := under, output := m.output ++ shown }, ?_, rfl,
      hpc, rfl, rfl, rfl, rfl, rfl⟩
    simp only [Machine.exec, if_neg henough, Machine.takeArgs, htake, hdrop,
      hformat, Machine.write, if_pos hwrite, Machine.go]
  | error f =>
    have hformat' : formatAt m.store.memory a args = .error f := hformat
    rw [print, checked_of_error hformat']
    refine ⟨{ m with stack := under, halted := true },
      { pc := m.pc, fault := f }, ?_, rfl, rfl⟩
    simp only [Machine.exec, if_neg henough, Machine.takeArgs, htake, hdrop,
      hformat, Machine.fail]

end Setting

/-- The call instruction of each function does what `call` says, up to a
depth. -/
def Program.Calls (p : Program) (fs : List Function) (depth : Nat)
    (call : Function → List Cell → Eval Cell) :
    Prop :=
  ∀ f ∈ fs, ∀ (m : Machine) (addr : Nat),
    p.code[addr]? = some { op := .call, operand := (p.link fs).entry f.name } →
    m.pc = addr → m.halted = false → 0 < m.frames.size →
    m.staged.length = f.params.length → 1 ≤ m.memory.size →
    m.Meets p (m.steps + depth)
    (fun v m' => Machine.After { m with staged := [] } m' (addr + 1)
      (v :: m.stack)) (call f m.staged m.store)

theorem Setting.performs_call {c : Setting}
    {call : Function → List Cell → Eval Cell}
    (hcalls : c.program.Calls c.functions c.depth call) {f : Function}
    (hf : f ∈ c.functions) (hargs : args.length = f.params.length)
    (hlt : f.params.length < 2 ^ 63) :
    c.Performs [{ op := .frame, operand := Int64.ofNat f.params.length },
      { op := .call, operand := c.link.entry f.name }] args.reverse
      (call f args) fun v => [v] := by
  intro m addr under hcode hpc hm hstack
  obtain ⟨hframe, hcode⟩ := Link.holds_cons.mp hcode
  obtain ⟨hcall, -⟩ := Link.holds_cons.mp hcode
  have hcount := Int64.toInt_ofNat_of_lt hlt
  generalize Int64.ofNat f.params.length = operand at hframe hcount
  obtain ⟨henough, htake, hdrop⟩ :=
    Machine.takes_args 0 hstack (by rw [hcount, hargs])
      (by rw [hcount, Int64.toInt_zero]; omega)
  have hstep :
      Machine.advance c.program m =
      ({ m with steps := m.steps + 1, pc := addr + 1, staged := args,
                stack := under }, none) := by
    rw [Machine.advance_eq hm.halted hpc hframe]
    simp only [Machine.exec, if_neg henough, Machine.takeArgs, htake, hdrop,
      Machine.go]
  have hframes : 0 < m.frames.size := by
    apply Nat.pos_of_ne_zero
    intro hempty
    have := hm.frame
    simp [Array.back?, hempty] at this
  have hmemory : 1 ≤ m.memory.size := by
    have := hm.base
    have := hm.size
    omega
  refine .of_step hm.halted hstep ?_
  refine (hcalls f hf
    { m with steps := m.steps + 1, pc := addr + 1, staged := args,
             stack := under } (addr + 1) hcall rfl hm.halted hframes hargs
               hmemory).mono (by dsimp only; omega) ?_
  intro v m' _ hafter
  exact ⟨hafter.pc, hafter.stack, hafter.frames,
    hafter.staged.trans hm.staged.symm, hafter.halted, hafter.size⟩

/-- Functions and string constants mean in an evaluation what they mean in the
code. -/
structure Setting.Fits (c : Setting) (w : World) : Prop where
  functions : w.functions = c.functions
  strings : w.strings = c.link.string
  calls : c.program.Calls c.functions c.depth w.call

/-- So do variables. -/
structure Setting.Knows (c : Setting) (w : World) (env : Env)
    (vars : Name → Option LocalVar) : Prop extends Setting.Fits c w where
  vars : ∀ name v, vars name = some v →
    env.find? name = some (v.binding c.frame) ∧ v.Within c.frame.count c.cells

namespace Setting

variable {c : Setting} {w : World} {env : Env} {vars : Name → Option LocalVar}

/-- The function that a call means. -/
theorem Knows.find? (hk : c.Knows w env vars) {name : Name} {f : FuncDef}
    (hf : c.link.signatures.find? (·.name == name) = some f.erase) :
    ∃ g ∈ c.functions, w.find? name = some g ∧ g.params = f.params ∧
      g.ret = f.ret ∧ g.name = f.name := by
  have hsignatures :
      c.link.signatures = c.functions.map Function.signature := rfl
  rw [hsignatures, List.find?_map] at hf
  obtain ⟨g, hg, hsame⟩ := Option.map_eq_some_iff.mp hf
  refine ⟨g, List.mem_of_find?_eq_some hg, ?_, ?_⟩
  · rw [World.find?, hk.functions]
    exact hg
  · exact ⟨congrArg FuncDef.params hsame, congrArg FuncDef.ret hsame,
      congrArg FuncDef.name hsame⟩

end Setting

theorem Ty.decay_of_deref {t elem : Ty} (h : t.deref = .ok elem) :
    t.decay = .pointer elem := by
  simp only [Ty.deref] at h
  split at h
  next heq =>
    obtain ⟨-, h⟩ := ok_of_else h
    cases h
    exact heq
  next => cases h

theorem Ty.Operands.resultTy {op : Operator} {l r ty : Ty}
    (h : Ty.Operands op l r ty) (hop : op.isComparison = false) :
    op.resultTy l r = ty := by
  rw [Operator.resultTy, if_neg (by simp [hop])]
  cases h with
  | integers hl hr => simp [hl, hr]
  | offset hr | offsetBack hr =>
    obtain ⟨_, _, rfl⟩ := Ty.base_of_isInteger hr
    rfl
  | offsetLeft hl =>
    obtain ⟨_, _, rfl⟩ := Ty.base_of_isInteger hl
    simp [Ty.isPointer, Ty.isInteger]
  | difference => rfl

/-- The type that the rules give to an operator is that of its result. -/
theorem Operator.resultTy_of_binary {op : Operator} {left right : Expr}
    {l r ty : Ty}
    (h : Ty.binary op (operandTypes op left right l r).1
      (operandTypes op left right l r).2 = .ok ty) :
    op.resultTy l.decay r.decay = ty := by
  cases hcomparison : op.isComparison with
  | true =>
    rw [resultTy, if_pos hcomparison]
    unfold Ty.binary at h
    split at h
    next => cases h
    next =>
      split at h
      next =>
        cases h
        rfl
      next =>
        obtain ⟨-, h⟩ := ok_of_then h
        cases h
        rfl
      next => cases h
  | false =>
    have hplain : operandTypes op left right l r = (l.decay, r.decay) := by
      simp [operandTypes, hcomparison]
    rw [hplain] at h
    exact (Ty.operands_of_binary hcomparison h).resultTy hcomparison

section

variable {c : Setting} {w : World} {env : Env} {vars : Name → Option LocalVar}

/-- A term has the type of the expression that stands for it. -/
theorem Resolves.ty {phrase : Phrase} (hk : c.Knows w env vars)
    (h : Resolves vars c.link.signatures phrase) :
    match phrase with
    | .one x a => x.ty w env = a.ty
    | .args .. => True := by
  induction h with
  | int | str => rfl
  | var hv =>
    simp only [Expr.ty, (hk.vars _ _ hv).1]
    rfl
  | binary _ _ hty hl hr =>
    simp only [Expr.ty, hl, hr]
    exact Operator.resultTy_of_binary hty
  | call _ hf _ =>
    obtain ⟨g, -, hg, -, hret, -⟩ := hk.find? hf
    simp only [Expr.ty, hg]
    exact hret
  | addrVar hv =>
    simp only [Expr.ty, (hk.vars _ _ hv).1]
    rfl
  | addrDeref _ hty hp | deref _ hty hp =>
    simp only [Expr.ty, hp, Ty.decay_of_deref hty]
    rfl
  | nil | cons => trivial

theorem length_of_evalArgs {ps : List Param} {xs : List Expr} {vs : List Cell}
    (h : Eval.Gives (evalArgs w env ps xs) vs) : vs.length = ps.length := by
  induction ps generalizing xs vs with
  | nil =>
    cases xs with
    | nil =>
      obtain ⟨s, s', h⟩ := h
      cases h
      rfl
    | cons x xs =>
      obtain ⟨s, s', h⟩ := h
      cases h
  | cons p ps ih =>
    cases xs with
    | nil =>
      obtain ⟨s, s', h⟩ := h
      cases h
    | cons x xs =>
      obtain ⟨v, -, h⟩ := Eval.gives_of_bind h
      obtain ⟨rest, hrest, s, s', h⟩ := Eval.gives_of_bind h
      cases h
      rw [List.length_cons, List.length_cons, ih hrest]

/-- The code of a term carries out the evaluation of its expression, and the
code of arguments that of the arguments. -/
theorem Resolves.performs {phrase : Phrase} (hk : c.Knows w env vars)
    (hsize : c.program.code.size < 2 ^ 63)
    (h : Resolves vars c.link.signatures phrase) :
    match phrase with
    | .one x a =>
      x.isDefined = true →
        c.Performs (a.code c.link) [] (x.eval w env) fun v => [v]
    | .args ps xs as => exprsDefined xs = true →
        c.Performs (argsCode c.link ps as) [] (evalArgs w env ps xs) fun vs =>
          vs.reverse := by
  induction h with
  | int v ty =>
    exact fun _ => Setting.Computes.performs (Setting.computes_push v)
  | str s =>
    intro _
    rw [Expr.eval, hk.strings]
    exact Setting.Computes.performs (Setting.computes_push _)
  | @var name v hv =>
    intro _
    obtain ⟨hfind, hwithin⟩ := hk.vars name v hv
    rw [Expr.eval, hfind]
    show c.Performs _ [] (fetch v.ty (Int64.ofNat (v.addr c.frame))) _
    cases harray : v.ty.isArray with
    | true =>
      simp only [Term.code, fetch, harray, if_true]
      exact Setting.Computes.performs (Setting.computes_addrLocal hwithin)
    | false =>
      simp only [Term.code, fetch, harray, Bool.false_eq_true, if_false]
      exact Setting.performs_loadLocal hwithin
  | @binary op left right l r ty hleft hright hty hl hr =>
    intro hdef
    simp only [Expr.isDefined, Bool.and_eq_true] at hdef
    obtain ⟨⟨hop, hleftDef⟩, hrightDef⟩ := hdef
    have hl := hl hleftDef
    have hr := hr hrightDef
    have hlty : left.ty w env = l.ty := hleft.ty hk
    have hrty : right.ty w env = r.ty := hright.ty hk
    rw [Expr.eval, hlty, hrty]
    simp only [Term.code, Operator.perform]
    split
    next hints =>
      obtain ⟨hlint, hrint⟩ := Bool.and_eq_true_iff.mp hints
      have hcommon := Ty.isInteger_common hlint hrint
      refine (hl.append_computes fun a =>
        Setting.computes_convertCode _ _ a).append fun a _ => ?_
      refine ((hr.append_computes fun b =>
        Setting.computes_convertCode _ _ b).above _).append fun b _ => ?_
      exact Setting.performs_integerCode hop hcommon _ _
    next hpointer =>
      have htyped (hplain : op.isComparison = false) :
          ∃ ty, Ty.binary op l.ty.decay r.ty.decay = .ok ty := by
        simp only [operandTypes, hplain] at hty
        exact ⟨ty, hty⟩
      obtain ⟨f, g, hf, hg, happly⟩ :=
        Setting.performs_pointerCode (c := c) hop hpointer htyped
      refine (hl.append_computes hf).append fun a _ => ?_
      exact ((hr.append_computes hg).above [f a]).append fun b _ => happly a b
  | @call name args f as hname hf hres hargs =>
    intro hdef
    obtain ⟨g, hg, hfind, hparams, -, hgname⟩ := hk.find? hf
    rw [Expr.eval, hfind]
    show c.Performs _ [] (evalArgs w env g.params args >>= fun vs =>
      w.call g vs) _
    simp only [Term.code]
    refine .of_holds fun addr hcode => ?_
    have hlt : g.params.length < 2 ^ 63 := by
      obtain ⟨hlength, hle⟩ := hres.lengths c.link
      have hend := hcode.length_le (by simp)
      rw [List.length_append] at hend
      have hcodeSize : c.link.code.size < 2 ^ 63 := hsize
      rw [hparams]
      omega
    have hargs :
        c.Performs (argsCode c.link f.params as) []
        (evalArgs w env f.params args) List.reverse := hargs hdef
    rw [← hparams] at hargs ⊢
    rw [← hgname]
    refine hargs.append fun vs hvs => ?_
    exact Setting.performs_call hk.calls hg (length_of_evalArgs hvs) hlt
  | @addrVar name v hv =>
    intro _
    obtain ⟨hfind, hwithin⟩ := hk.vars name v hv
    rw [Expr.eval, hfind]
    exact Setting.Computes.performs (Setting.computes_addrLocal hwithin)
  | addrDeref _ _ hp => exact hp
  | @deref x p ty hres hty hp =>
    intro hdef
    have hderef : Expr.ty w env (.deref x) = ty :=
      (Resolves.deref hres hty).ty hk
    rw [Expr.eval, hderef]
    cases harray : ty.isArray with
    | true =>
      simp only [Term.code, fetch, harray, if_true, bind_pure]
      exact hp hdef
    | false =>
      simp only [Term.code, fetch, harray, Bool.false_eq_true, if_false]
      exact (hp hdef).append fun a _ => Setting.performs_load a
  | nil => exact fun _ => Setting.Computes.performs (Setting.computes_nil [])
  | @cons p ps x xs a as hx hassign _ ha has =>
    intro hdef
    obtain ⟨hxdef, hxsdef⟩ := Bool.and_eq_true_iff.mp hdef
    have hxty : x.ty w env = a.ty := hx.ty hk
    rw [evalArgs, hxty]
    simp only [argsCode]
    refine ((ha hxdef).append_computes fun v =>
      Setting.computes_convertCode p.ty a.ty v).append fun v _ => ?_
    apply Setting.Performs.map (p.ty.convert a.ty v :: ·)
    simp only [List.reverse_cons]
    exact (has hxsdef).above [p.ty.convert a.ty v]

theorem length_of_evalAll {xs : List Expr} {vs : List Cell}
    (h : Eval.Gives (evalAll w env xs) vs) : vs.length = xs.length := by
  induction xs generalizing vs with
  | nil =>
    obtain ⟨s, s', h⟩ := h
    cases h
    rfl
  | cons x xs ih =>
    obtain ⟨v, -, h⟩ := Eval.gives_of_bind h
    obtain ⟨rest, hrest, s, s', h⟩ := Eval.gives_of_bind h
    cases h
    rw [List.length_cons, List.length_cons, ih hrest]

/-- The same for what is printed. -/
theorem Printed.performs {xs : List Expr} {as : List Term}
    (hk : c.Knows w env vars) (hsize : c.program.code.size < 2 ^ 63)
    (h : Printed vars c.link.signatures xs as) (hdef : exprsDefined xs = true) :
    c.Performs (termsCode c.link as) [] (evalAll w env xs) List.reverse := by
  induction h with
  | nil => exact Setting.Computes.performs (Setting.computes_nil [])
  | @cons x xs a as hx _ _ ih =>
    obtain ⟨hxdef, hxsdef⟩ := Bool.and_eq_true_iff.mp hdef
    have ha : c.Performs (a.code c.link) [] (x.eval w env) fun v => [v] :=
      hx.performs hk hsize hxdef
    rw [evalAll, termsCode, List.flatMap_cons]
    refine ha.append fun v _ => ?_
    apply Setting.Performs.map (v :: ·)
    simp only [List.reverse_cons]
    exact (ih hxsdef).above [v]

end

end StackC
