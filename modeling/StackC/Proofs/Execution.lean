import StackC.Proofs.Evaluation

/-!
The code of statements carries out their execution. Where control goes at the
end of a statement depends on how it ends: to the next statement, to one of the
places of the innermost loop, or to a return instruction that finds its value on
the stack.
-/

namespace StackC

/-- The visible variables of a scope, with their addresses in a frame. -/
def Scope.env (s : Scope) (fr : Frame) : Env :=
  s.visible.map (LocalVar.binding fr)

variable {k : Nat}

theorem Setting.Fits.knows {c : Setting} {w : World} {s : Scope} (hw : c.Fits w)
    (hs : s.Numbered c.frame.count k) (hk : k ≤ c.cells) :
    c.Knows w (s.env c.frame) s.find? where
  toFits := hw
  vars name v hv := by
    refine ⟨?_, hs.within_of_find? hk name v hv⟩
    rw [Scope.find?_eq_visible] at hv
    have hsame :
        ((fun b : Binding => b.name == name) ∘ LocalVar.binding c.frame) =
        (·.name == name) := rfl
    rw [Env.find?, Scope.env, List.find?_map, hsame, hv]
    rfl

/-- A new variable has its cells behind those that have been handed out. -/
theorem Scope.env_addLocal {s s' : Scope} {ty : Ty} {name : Name} {v : LocalVar}
    {fr : Frame} (hadd : s.addLocal ty name = .ok (v, s'))
    (hs : s.Numbered fr.count k) (hk : k + 1 < 2 ^ 63) :
    v.addr fr = fr.base + fr.count + k ∧
      s'.env fr = { name, ty, addr := fr.base + fr.count + k } :: s.env fr := by
  obtain ⟨rfl, hvisible, -⟩ := Scope.of_addLocal hadd
  have hslot : (s.cellCount + 1).toInt.toNat = k + 1 := by
    have hsum : Int64.ofNat k + 1 = Int64.ofNat (k + 1) :=
      (Int64.ofNat_add k 1).symm
    rw [hs.count, hsum, Int64.toInt_ofNat_of_lt hk, Int.toNat_natCast]
  have haddr :
      LocalVar.addr { ty, name, isParam := false, slot := s.cellCount + 1 } fr =
      fr.base + fr.count + k := by
    simp only [LocalVar.addr, hslot, Bool.false_eq_true, if_false]
    omega
  refine ⟨haddr, ?_⟩
  rw [Scope.env, hvisible, List.map_cons, LocalVar.binding, haddr]
  rfl

/-- The variables that are visible after a statement. -/
theorem Laid.env {L : Link} {ret : Ty} {stmt : Stmt} {s s' : Scope}
    {start stop : Nat} {ends : Bool} {fr : Frame}
    (h : Laid L ret (.one stmt) s start s' stop ends)
    (hs : s.Numbered fr.count k) (hk : k + stmt.cells < 2 ^ 63) :
    s'.env fr = stmt.bindings (fr.base + fr.count + k) ++ s.env fr := by
  cases h with
  | decl hty hadd | init hty hadd =>
    have hpos := (Ty.cells_of_storable hty).2
    simp only [Stmt.cells] at hk
    exact (Scope.env_addLocal hadd hs (by omega)).2
  | block | ifThen | ifElse | whileDo => rfl
  | assignVar | assignCell | retNone | retSome | expr | breakLoop | continueLoop
  | printf => rfl

namespace Machine

variable {p : Program} {m : Machine} {addr target : Nat}

theorem advance_jump (hrunning : m.halted = false) (hpc : m.pc = addr)
    (hi : p.code[addr]? = some { op := .jump, operand := Int64.ofNat target })
    (htarget : target < 2 ^ 63) :
    advance p m = ({ m with steps := m.steps + 1, pc := target }, none) := by
  rw [advance_eq hrunning hpc hi]
  simp only [exec, go, Int64.toInt_ofNat_of_lt htarget]

theorem advance_jumpZero {v : Cell} {stack : List Cell}
    (hrunning : m.halted = false) (hpc : m.pc = addr)
    (hi : p.code[addr]? =
      some { op := .jumpZero, operand := Int64.ofNat target })
    (htarget : target < 2 ^ 63) (hstack : m.stack = v :: stack) :
    advance p m =
      ({ m with steps := m.steps + 1, pc := if v = 0 then target else addr + 1,
                stack }, none) := by
  rw [advance_eq hrunning hpc hi]
  simp only [exec, withPop, hstack, go, Int64.toInt_ofNat_of_lt htarget]
  split <;> rfl

end Machine

namespace Setting

variable {c : Setting} {w : World} {env : Env} {vars : Name → Option LocalVar}

variable {x : Expr} {a : Term}

/-- The code of a condition goes on at its target if the condition gives 0, and
behind the code otherwise. -/
theorem meets_test {N start target : Nat} {m : Machine} {f : Cell → Eval β}
    {R : β → Machine → Prop} (hk : c.Knows w env vars)
    (hsize : c.program.code.size < 2 ^ 63)
    (hx : Resolves vars c.link.signatures (.one x a))
    (hdef : x.isDefined = true)
    (hcode : c.link.Holds start (testCode c.link a target))
    (htarget : target < 2 ^ 63) (hpc : m.pc = start)
    (hm : m.Inside c.frame c.cells) (hN : N ≤ m.steps + c.depth)
    (hzero : ∀ m', m.steps < m'.steps → m.After m' target m.stack →
      m'.Meets c.program N R (f 0 m'.store))
    (hother : ∀ v m', v ≠ 0 → m.steps < m'.steps →
      m.After m' (start + (testCode c.link a target).length) m.stack →
      m'.Meets c.program N R (f v m'.store)) :
    m.Meets c.program N R ((x.eval w env >>= f) m.store) := by
  obtain ⟨hterm, hjump⟩ := Link.holds_append.mp hcode
  obtain ⟨hi, -⟩ := Link.holds_cons.mp hjump
  have hvalue : c.Performs (a.code c.link) [] (x.eval w env) fun v => [v] :=
    hx.performs hk hsize hdef
  have hfirst :=
    (hvalue m start m.stack hterm hpc hm rfl).mono hN fun _ _ _ hafter => hafter
  refine hfirst.bind fun v mid _ hsteps hafter => ?_
  have hrunning := (hafter.inside hm).halted
  refine .of_step hrunning
    (Machine.advance_jumpZero hrunning hafter.pc hi htarget hafter.stack) ?_
  by_cases hv : v = 0
  · rw [if_pos hv, hv]
    exact hzero _ (Nat.lt_succ_of_le hsteps)
      ⟨rfl, rfl, hafter.frames, hafter.staged, hafter.halted, hafter.size⟩
  · rw [if_neg hv]
    refine hother v _ hv (Nat.lt_succ_of_le hsteps) ?_
    refine ⟨?_, rfl, hafter.frames, hafter.staged, hafter.halted, hafter.size⟩
    rw [testCode, List.length_append, ← Nat.add_assoc]
    rfl

theorem performs_converted (hk : c.Knows w env vars)
    (hsize : c.program.code.size < 2 ^ 63)
    (hx : Resolves vars c.link.signatures (.one x a))
    (hdef : x.isDefined = true) (ty : Ty) :
    c.Performs (convertedCode c.link ty a) [] (x.eval w env) fun v =>
      [ty.convert (x.ty w env) v] := by
  have hvalue : c.Performs (a.code c.link) [] (x.eval w env) fun v => [v] :=
    hx.performs hk hsize hdef
  have hty : x.ty w env = a.ty := hx.ty hk
  rw [hty]
  exact hvalue.append_computes fun v => computes_convertCode ty a.ty v

/-- The code that gives a value to a variable. -/
theorem performs_assign {v : LocalVar} (hk : c.Knows w env vars)
    (hsize : c.program.code.size < 2 ^ 63)
    (hx : Resolves vars c.link.signatures (.one x a))
    (hdef : x.isDefined = true) (hv : v.Within c.frame.count c.cells) :
    c.Performs
      (convertedCode c.link v.ty a ++
        [{ op := .storeLocal, operand := v.operand }]) []
        (x.eval w env >>= fun u => store (Int64.ofNat (v.addr c.frame))
          (v.ty.convert (x.ty w env) u)) fun _ => [] :=
  (performs_converted hk hsize hx hdef v.ty).append fun _ _ =>
    performs_storeLocal hv _

/-- The code that prints values. -/
theorem performs_printf {xs : List Expr} {as : List Term}
    (hk : c.Knows w env vars) (hsize : c.program.code.size < 2 ^ 63)
    (hx : Resolves vars c.link.signatures (.one x a))
    (hxs : Printed vars c.link.signatures xs as) (hdef : x.isDefined = true)
    (hdefs : exprsDefined xs = true) (hcount : xs.length + 1 < 2 ^ 63) :
    c.Performs
      (a.code c.link ++
        (termsCode c.link as ++
          [{ op := .printf, operand := Int64.ofNat (xs.length + 1) }])) []
          (x.eval w env >>= fun v => evalAll w env xs >>= fun vs => print v vs)
          fun _ => [] := by
  have hformat : c.Performs (a.code c.link) [] (x.eval w env) fun v => [v] :=
    hx.performs hk hsize hdef
  refine hformat.append fun v _ => ?_
  refine ((hxs.performs hk hsize hdefs).above [v]).append fun vs hvs => ?_
  rw [← List.reverse_cons]
  refine performs_print ?_
  rw [Int64.toInt_ofNat_of_lt hcount, length_of_evalAll hvs]
  rfl

/-- Where a machine is when code of a function that lies in the scope `s` and
ends at `stop` has been executed. -/
def Lands (c : Setting) (s : Scope) (stop : Nat) (ends : Bool) (m : Machine) :
    Flow → Machine → Prop
  | .next, m' => ends = false ∧ m.After m' stop m.stack
  | .broken, m' =>
    ∃ target, s.breakTarget = .ok target ∧ m.After m' target m.stack
  | .continued, m' =>
    ∃ target, s.continueTarget = .ok target ∧ m.After m' target m.stack
  | .returned v, m' =>
    ∃ addr : Nat, c.program.code[addr]? = some { op := .ret } ∧
      m.After m' addr (v :: m.stack)

section

variable {s s' : Scope} {stop stop' addr : Nat} {ends ends' : Bool}
  {m m' m'' : Machine} {flow : Flow}

theorem Lands.of_after (h : c.Lands s stop ends m' flow m'')
    (hafter : m.After m' addr m.stack) : c.Lands s stop ends m flow m'' := by
  cases flow with
  | next =>
    rw [Lands, ← hafter.stack]
    exact ⟨h.1, hafter.trans h.2⟩
  | broken | continued =>
    obtain ⟨target, htarget, h⟩ := h
    rw [Lands, ← hafter.stack]
    exact ⟨target, htarget, hafter.trans h⟩
  | returned v =>
    obtain ⟨ret, hret, h⟩ := h
    rw [Lands, ← hafter.stack]
    exact ⟨ret, hret, hafter.trans h⟩

/-- Control that does not go to the next statement goes where it would go from
any other statement in the same loop. -/
theorem Lands.of_leaves (h : c.Lands s stop ends m flow m')
    (hflow : flow ≠ .next) (hloops : s'.loops = s.loops) :
    c.Lands s' stop' ends' m flow m' := by
  cases flow with
  | next => exact absurd rfl hflow
  | broken =>
    rw [Lands, Scope.breakTarget, hloops]
    exact h
  | continued =>
    rw [Lands, Scope.continueTarget, hloops]
    exact h
  | returned v => exact h

theorem Lands.around (h : c.Lands s stop ends m flow m')
    (hends : ends = false → ends' = false) (hloops : s'.loops = s.loops) :
    c.Lands s' stop ends' m flow m' := by
  by_cases hflow : flow = .next
  · subst hflow
    exact ⟨hends h.1, h.2⟩
  · exact h.of_leaves hflow hloops

/-- Code that only changes the store goes to the next statement. -/
theorem Performs.lands {is : List Instr} {x : Eval α}
    (h : c.Performs is [] x fun _ => []) (hcode : c.link.Holds addr is)
    (hpc : m.pc = addr) (hm : m.Inside c.frame c.cells) :
    m.Meets c.program (m.steps + c.depth) (c.Lands s (addr + is.length) false m)
      ((x >>= fun _ => pure .next) m.store) :=
  (h m addr m.stack hcode hpc hm rfl).bind fun _ _ _ _ hafter =>
    .value ⟨rfl, hafter⟩

/-- The code that returns 0. -/
theorem meets_returnZero (hcode : c.link.Holds addr Emitter.returnZero)
    (hpc : m.pc = addr) (hm : m.Inside c.frame c.cells) :
    m.Meets c.program (m.steps + c.depth) (fun v =>
      c.Lands s stop ends m (.returned v)) ((pure 0 : Eval Cell) m.store) := by
  obtain ⟨hpush, hret⟩ := Link.holds_returnZero hcode
  have hzero : c.Performs [{ op := .push }] [] (pure (0 : Cell)) fun v => [v] :=
    Computes.performs (computes_push 0)
  refine (hzero m addr m.stack hpush hpc hm rfl).mono (Nat.le_refl _)
    fun v m' _ hafter => ?_
  exact ⟨_, (Link.holds_cons.mp hret).1, hafter⟩

/-- The code of a loop, if the code of its body carries out the body. The
induction is on the number of rounds; each takes at least the step that tests
the condition. -/
theorem meets_loop {body : Eval Flow} {inner : Scope} {start mid rounds : Nat}
    (hk : c.Knows w env vars) (hsize : c.program.code.size < 2 ^ 63)
    (hx : Resolves vars c.link.signatures (.one x a))
    (hdef : x.isDefined = true)
    (hcode : c.link.Holds start (testCode c.link a (mid + 1)))
    (hjump : c.link.Holds mid [{ op := .jump, operand := Int64.ofNat start }])
    (hstart : start ≤ mid) (hmid : mid + 1 ≤ c.program.code.size)
    (hbreak : inner.breakTarget = .ok (mid + 1))
    (hcontinue : inner.continueTarget = .ok start)
    (hbody : ∀ m : Machine,
      m.pc = ↑(start + (testCode c.link a (mid + 1)).length) →
      m.Inside c.frame c.cells →
      m.Meets c.program (m.steps + c.depth) (c.Lands inner mid ends m)
      (body m.store))
    (hrounds : rounds ≤ c.depth) (hpc : m.pc = start)
    (hm : m.Inside c.frame c.cells) :
    m.Meets c.program (m.steps + rounds) (c.Lands s (mid + 1) false m)
      (repeatWhile (x.eval w env) body rounds m.store) := by
  induction rounds generalizing m with
  | zero => exact ⟨m, .refl m, Nat.le_refl _⟩
  | succ rounds ih =>
    have hagain {m' : Machine} (hsteps : m.steps < m'.steps)
        (hafter : m.After m' start m.stack) :
        m'.Meets c.program (m.steps + (rounds + 1))
        (c.Lands s (mid + 1) false m)
        (repeatWhile (x.eval w env) body rounds m'.store) :=
      (ih (by omega) hafter.pc (hafter.inside hm)).mono (by omega)
        fun _ _ _ h => h.of_after hafter
    rw [repeatWhile]
    refine meets_test hk hsize hx hdef hcode (by omega) hpc hm (by omega)
      (fun m' _ hafter => ?_) ?_
    · exact .value ⟨rfl, hafter⟩
    intro v m' hv hsteps hafter
    rw [if_neg hv]
    have hround :
        m'.Meets c.program (m.steps + (rounds + 1)) (c.Lands inner mid ends m)
        (body m'.store) :=
      (hbody m' hafter.pc (hafter.inside hm)).mono (by omega) fun _ _ _ h =>
        h.of_after hafter
    refine hround.bind fun flow last _ hlast hlands => ?_
    cases flow with
    | next =>
      obtain ⟨-, hlands⟩ := hlands
      have hrunning := (hlands.inside hm).halted
      obtain ⟨hi, -⟩ := Link.holds_cons.mp hjump
      refine .of_step hrunning
        (Machine.advance_jump hrunning hlands.pc hi (by omega)) ?_
      refine hagain (Nat.lt_succ_of_le (by omega)) ?_
      exact ⟨rfl, hlands.stack, hlands.frames, hlands.staged, hlands.halted,
        hlands.size⟩
    | continued =>
      obtain ⟨target, htarget, hlands⟩ := hlands
      cases hcontinue.symm.trans htarget
      exact hagain (by omega) hlands
    | broken =>
      obtain ⟨target, htarget, hlands⟩ := hlands
      cases hbreak.symm.trans htarget
      exact .value ⟨rfl, hlands⟩
    | returned v => exact .value hlands

end

end Setting

def Part.exec (w : World) (ret : Ty) (depth : Nat) (env : Env) (addr : Nat) :
    Part → Eval Flow
  | .one s => s.exec w ret depth env addr
  | .many _ ss => execAll w ret depth env addr ss

/-- The code from `start` to `stop` carries out the execution of a part of a
function in the scope `s`, whatever number `k` of cells is in use. -/
def Setting.CarriesOut (c : Setting) (w : World) (ret : Ty) (part : Part)
    (s : Scope) (start stop : Nat) (ends : Bool) : Prop :=
  ∀ (k : Nat) (m : Machine), s.Numbered c.frame.count k →
    k + part.cells ≤ c.cells → m.pc = start → m.Inside c.frame c.cells →
    m.Meets c.program (m.steps + c.depth) (c.Lands s stop ends m)
      (part.exec w ret c.depth (s.env c.frame)
        (c.frame.base + c.frame.count + k) m.store)

namespace Setting

section

variable {c : Setting} {w : World} {ret : Ty} {s s' inner : Scope}
  {start mid stop : Nat} {ends otherEnds : Bool} {x value : Expr} {a t : Term}
  {body orElse : Stmt} {v : LocalVar} {name : Name} {ty : Ty}
  {is : List Instr}

theorem carriesOut_init (hw : c.Fits w)
    (hsize : c.program.code.size < 2 ^ 63) (hdef : value.isDefined = true)
    (hty : Ty.checkStorable name ty = .ok ())
    (hadd : s.addLocal ty name = .ok (v, s'))
    (hvalue : Resolves s'.find? c.link.signatures (.one value a))
    (his : is = convertedCode c.link v.ty a ++
      [{ op := .storeLocal, operand := v.operand }])
    (hcode : c.link.Holds start is) :
    c.CarriesOut w ret (.one (.init ty name value)) s start
      (start + is.length) false := by
  intro k m hs hcells hpc hm
  have hsmall := hm.size_lt
  have hroom := hm.size
  have hcells : k + ty.cellTotal ≤ c.cells := hcells
  have hpos := (Ty.cells_of_storable hty).2
  obtain ⟨haddr, henv⟩ := Scope.env_addLocal hadd hs (by omega)
  have hs' := hs.addLocal hty hadd
  obtain ⟨hv, hvisible, -⟩ := Scope.of_addLocal hadd
  have hmem : v ∈ s'.visible := by
    rw [hvisible]
    exact List.mem_cons_self
  have hwithin := (hs'.within v hmem).mono hcells
  have hvty : v.ty = ty := by rw [hv]
  have hassign :=
    performs_assign (hw.knows hs' hcells) hsize hvalue hdef hwithin
  have hnext := hassign.lands (s := s) (his ▸ hcode) hpc hm
  rw [← his, haddr, henv, hvty, bind_assoc] at hnext
  exact hnext

theorem carriesOut_assignVar (hw : c.Fits w)
    (hsize : c.program.code.size < 2 ^ 63) (hdef : value.isDefined = true)
    (hv : s.find? name = some v)
    (hvalue : Resolves s.find? c.link.signatures (.one value a))
    (his : is = convertedCode c.link v.ty a ++
      [{ op := .storeLocal, operand := v.operand }])
    (hcode : c.link.Holds start is) :
    c.CarriesOut w ret (.one (.assign (.var name) value)) s start
      (start + is.length) false := by
  intro k m hs hcells hpc hm
  have hk := hw.knows hs (Nat.le_of_add_right_le hcells)
  obtain ⟨hfind, hwithin⟩ := hk.vars name v hv
  have hassign := performs_assign hk hsize hvalue hdef hwithin
  subst his
  have hnext := hassign.lands (s := s) hcode hpc hm
  rw [bind_assoc] at hnext
  rw [Part.exec, Stmt.exec, hfind]
  exact hnext

theorem carriesOut_assignCell (hw : c.Fits w)
    (hsize : c.program.code.size < 2 ^ 63) (hxDef : x.isDefined = true)
    (hdef : value.isDefined = true)
    (hx : Resolves s.find? c.link.signatures (.one x t))
    (hty : t.ty.deref = .ok ty)
    (hvalue : Resolves s.find? c.link.signatures (.one value a))
    (his : is = t.code c.link ++
      (convertedCode c.link ty a ++ [{ op := .store }]))
    (hcode : c.link.Holds start is) :
    c.CarriesOut w ret (.one (.assign (.deref x) value)) s start
      (start + is.length) false := by
  intro k m hs hcells hpc hm
  have hk := hw.knows hs (Nat.le_of_add_right_le hcells)
  have hderef : Expr.ty w (s.env c.frame) (.deref x) = ty :=
    (Resolves.deref hx hty).ty hk
  have hpointer : c.Performs (t.code c.link) [] (x.eval w (s.env c.frame))
      fun v => [v] := hx.performs hk hsize hxDef
  have hconverted := performs_converted hk hsize hvalue hdef ty
  have hassign := hpointer.append fun addr _ =>
    (hconverted.above [addr]).append fun v _ => performs_store addr _
  subst his
  have hnext := hassign.lands (s := s) hcode hpc hm
  simp only [bind_assoc] at hnext
  rw [Part.exec, Stmt.exec, hderef]
  exact hnext

theorem carriesOut_ifThen (hw : c.Fits w)
    (hsize : c.program.code.size < 2 ^ 63) (hdef : x.isDefined = true)
    (hle : stop ≤ c.program.code.size)
    (hx : Resolves s.find? c.link.signatures (.one x t))
    (hcode : c.link.Holds start (testCode c.link t stop))
    (hbody : c.CarriesOut w ret (.one body) s.enter
      (start + (testCode c.link t stop).length) stop ends) :
    c.CarriesOut w ret (.one (.ifThen x body)) s start stop false := by
  intro k m hs hcells hpc hm
  have hk := hw.knows hs (Nat.le_of_add_right_le hcells)
  refine meets_test hk hsize hx hdef hcode (by omega) hpc hm (Nat.le_refl _)
    (fun m' _ hafter => ?_) (fun v m' hv hsteps hafter => ?_)
  · exact .value ⟨rfl, hafter⟩
  · rw [if_neg hv]
    have hbranch := hbody k m' ⟨hs.count, hs.within⟩ hcells hafter.pc
      (hafter.inside hm)
    exact hbranch.mono (by omega) fun _ _ _ h =>
      (h.of_after hafter).around (fun _ => rfl) rfl

/-- The first branch of two: at its end control jumps over the other one, unless
it has left before. -/
theorem meets_firstBranch {m m' : Machine} {f : Eval Flow}
    (hsize : c.program.code.size < 2 ^ 63) (hle : stop ≤ c.program.code.size)
    (hjump : ends = false →
      c.link.Holds mid [{ op := .jump, operand := Int64.ofNat stop }])
    (hm : m.Inside c.frame c.cells) (hsteps : m.steps < m'.steps)
    (hafter : m.After m' start m.stack)
    (h : m'.Meets c.program (m'.steps + c.depth) (c.Lands s.enter mid ends m')
      (f m'.store)) :
    m'.Meets c.program (m.steps + c.depth)
      (c.Lands s stop (ends && otherEnds) m) (f m'.store) := by
  have hback := h.mono (Nat.add_le_add_right (Nat.le_of_lt hsteps) c.depth)
    fun _ _ _ h => h.of_after hafter
  refine hback.extend fun flow last h => ?_
  by_cases hflow : flow = .next
  · subst hflow
    obtain ⟨hends, h⟩ := h
    have hrunning := (h.inside hm).halted
    obtain ⟨hi, -⟩ := Link.holds_cons.mp (hjump hends)
    have hstep := Machine.advance_jump hrunning h.pc hi
      (Nat.lt_of_le_of_lt hle hsize)
    refine ⟨_, .head hrunning hstep (.refl _), rfl,
      by rw [hends, Bool.false_and], ?_⟩
    exact ⟨rfl, h.stack, h.frames, h.staged, h.halted, h.size⟩
  · exact ⟨last, .refl last, rfl, h.of_leaves hflow rfl⟩

/-- The cells of the other branch come behind those of the first one. -/
theorem carriesOut_ifElse {between : Nat} (hw : c.Fits w)
    (hsize : c.program.code.size < 2 ^ 63) (hdef : x.isDefined = true)
    (hle : stop ≤ c.program.code.size) (hbetween : between ≤ stop)
    (hx : Resolves s.find? c.link.signatures (.one x t))
    (hcode : c.link.Holds start (testCode c.link t between))
    (hjump : ends = false →
      c.link.Holds mid [{ op := .jump, operand := Int64.ofNat stop }])
    (hinner : ∀ k, s.enter.Numbered c.frame.count k →
      inner.Numbered c.frame.count (k + body.cells))
    (hbody : c.CarriesOut w ret (.one body) s.enter
      (start + (testCode c.link t between).length) mid ends)
    (helse : c.CarriesOut w ret (.one orElse) (s.resume inner).enter between
      stop otherEnds) :
    c.CarriesOut w ret (.one (.ifElse x body orElse)) s start stop
      (ends && otherEnds) := by
  intro k m hs hcells hpc hm
  have hcells : k + (body.cells + orElse.cells) ≤ c.cells := hcells
  have hk := hw.knows hs (Nat.le_of_add_right_le hcells)
  refine meets_test hk hsize hx hdef hcode (by omega) hpc hm (Nat.le_refl _)
    (fun m' hsteps hafter => ?_) (fun v m' hv hsteps hafter => ?_)
  · have hafterBody := hs.resume (hinner k ⟨hs.count, hs.within⟩)
      (Nat.le_add_right _ _)
    have hbranch := helse (k + body.cells) m'
      ⟨hafterBody.count, hafterBody.within⟩
      (by rw [Nat.add_assoc]; exact hcells) hafter.pc (hafter.inside hm)
    rw [← Nat.add_assoc] at hbranch
    refine hbranch.mono (by omega) fun _ _ _ h =>
      (h.of_after hafter).around (fun hends => ?_) rfl
    rw [hends, Bool.and_false]
  · rw [if_neg hv]
    have hbranch := hbody k m' ⟨hs.count, hs.within⟩
      (by simp only [Part.cells]; omega) hafter.pc (hafter.inside hm)
    exact meets_firstBranch hsize hle hjump hm hsteps hafter hbranch

theorem carriesOut_whileDo (hw : c.Fits w)
    (hsize : c.program.code.size < 2 ^ 63) (hdef : x.isDefined = true)
    (hle : mid + 1 ≤ c.program.code.size) (hstart : start ≤ mid)
    (hx : Resolves s.find? c.link.signatures (.one x t))
    (hcode : c.link.Holds start (testCode c.link t (mid + 1)))
    (hjump : c.link.Holds mid
      [{ op := .jump, operand := Int64.ofNat start }])
    (hbody : c.CarriesOut w ret (.one body)
      (s.enterLoop { breakTo := mid + 1, continueTo := start }).enter
      (start + (testCode c.link t (mid + 1)).length) mid ends) :
    c.CarriesOut w ret (.one (.whileDo x body)) s start (mid + 1) false := by
  intro k m hs hcells hpc hm
  have hk := hw.knows hs (Nat.le_of_add_right_le hcells)
  exact meets_loop hk hsize hx hdef hcode hjump hstart hle rfl rfl
    (fun m' => hbody k m' ⟨hs.count, hs.within⟩ hcells) (Nat.le_refl _) hpc hm

theorem carriesOut_printf {args : List Expr} {as : List Term} (hw : c.Fits w)
    (hsize : c.program.code.size < 2 ^ 63) (hdef : x.isDefined = true)
    (hdefs : exprsDefined args = true)
    (hx : Resolves s.find? c.link.signatures (.one x a))
    (hargs : Printed s.find? c.link.signatures args as)
    (hcount : args.length + 1 < 2 ^ 63)
    (his : is = a.code c.link ++ (termsCode c.link as ++
      [{ op := .printf, operand := Int64.ofNat (args.length + 1) }]))
    (hcode : c.link.Holds start is) :
    c.CarriesOut w ret (.one (.printf x args)) s start (start + is.length)
      false := by
  intro k m hs hcells hpc hm
  have hk := hw.knows hs (Nat.le_of_add_right_le hcells)
  have hprint := performs_printf hk hsize hx hargs hdef hdefs hcount
  subst his
  have hnext := hprint.lands (s := s) hcode hpc hm
  simp only [bind_assoc] at hnext
  exact hnext

theorem carriesOut_cons {ss : List Stmt} {before after : Bool}
    (hfirst : Laid c.link ret (.one body) s start s' mid ends)
    (hstmt : c.CarriesOut w ret (.one body) s start mid ends)
    (hrest : ends = false →
      c.CarriesOut w ret (.many ends ss) s' mid stop after) :
    c.CarriesOut w ret (.many before (body :: ss)) s start stop after := by
  intro k m hs hcells hpc hm
  have hcells : k + (body.cells + stmtsCells ss) ≤ c.cells := hcells
  have hsmall := hm.size_lt
  have hroom := hm.size
  refine (hstmt k m hs (by simp only [Part.cells]; omega) hpc hm).bind
    fun flow m' _ hsteps hlands => ?_
  cases flow with
  | next =>
    obtain ⟨hends, hafter⟩ := hlands
    have htail := hrest hends (k + body.cells) m' (hfirst.numbered hs)
      (by rw [Nat.add_assoc]; exact hcells) hafter.pc (hafter.inside hm)
    rw [hfirst.env hs (by omega), ← Nat.add_assoc] at htail
    exact htail.mono (by omega) fun _ _ _ h =>
      (h.of_after hafter).around id hfirst.loops.symm
  | broken | continued | returned =>
    exact .value (hlands.of_leaves (by simp) rfl)

end

end Setting

/-- The code of a part of a function carries out its execution. Statements in
turn that are empty must not follow one that control does not leave. -/
theorem Laid.carriesOut {c : Setting} {w : World} {ret : Ty} {part : Part}
    {s s' : Scope} {start stop : Nat} {ends : Bool}
    (h : Laid c.link ret part s start s' stop ends) (hw : c.Fits w)
    (hsize : c.program.code.size < 2 ^ 63) (hdef : part.isDefined = true)
    (hle : stop ≤ c.program.code.size)
    (hloops : ∀ l ∈ s.loops, l.breakTo ≤ c.program.code.size ∧
      l.continueTo ≤ c.program.code.size)
    (hpart : part ≠ .many true []) :
    c.CarriesOut w ret part s start stop ends := by
  induction h with
  | block _ ih =>
    intro k m hs hcells hpc hm
    have hbody := ih hdef hle hloops (by simp) k m ⟨hs.count, hs.within⟩ hcells
      hpc hm
    exact hbody.mono (Nat.le_refl _) fun _ _ _ h => h.around id rfl
  | decl =>
    intro k m hs hcells hpc hm
    exact .value ⟨rfl, hpc, rfl, rfl, rfl, rfl, rfl⟩
  | init hty hadd hvalue _ _ his hcode =>
    exact Setting.carriesOut_init hw hsize hdef hty hadd hvalue his hcode
  | assignVar hv hvalue _ his hcode =>
    exact Setting.carriesOut_assignVar hw hsize hdef hv hvalue his hcode
  | assignCell hx hty hvalue _ his hcode =>
    obtain ⟨hxDef, hvalueDef⟩ := Bool.and_eq_true_iff.mp hdef
    exact Setting.carriesOut_assignCell hw hsize hxDef hvalueDef hx hty hvalue
      his hcode
  | retNone _ hcode =>
    intro k m hs hcells hpc hm
    exact (Setting.meets_returnZero hcode hpc hm).bind fun _ _ _ _ hlands =>
      .value hlands
  | retSome _ hvalue _ his hcode =>
    intro k m hs hcells hpc hm
    have hk := hw.knows hs (Nat.le_of_add_right_le hcells)
    subst his
    obtain ⟨hcode, hret⟩ := Link.holds_append.mp hcode
    have hconverted := Setting.performs_converted hk hsize hvalue hdef ret
    refine (hconverted m _ m.stack hcode hpc hm rfl).bind
      fun v m' _ _ hafter => .value ?_
    exact ⟨_, (Link.holds_cons.mp hret).1, hafter⟩
  | @expr x s a start is hx his hcode =>
    intro k m hs hcells hpc hm
    have hk := hw.knows hs (Nat.le_of_add_right_le hcells)
    have hvalue : c.Performs (a.code c.link) [] (x.eval w (s.env c.frame))
        fun v => [v] := hx.performs hk hsize hdef
    subst his
    exact (hvalue.append_computes fun v => Setting.computes_pop v).lands hcode
      hpc hm
  | ifThen hcond _ hcode _ ih =>
    obtain ⟨hcondDef, hbodyDef⟩ := Bool.and_eq_true_iff.mp hdef
    exact Setting.carriesOut_ifThen hw hsize hcondDef hle hcond hcode
      (ih hbodyDef hle hloops (by simp))
  | @ifElse cond body _ s inner _ _ _ mid between _ ends _ hcond _ hcode hbody
      hbetween hjump helse ihBody ihElse =>
    obtain ⟨hdef, helseDef⟩ := Bool.and_eq_true_iff.mp hdef
    obtain ⟨hcondDef, hbodyDef⟩ := Bool.and_eq_true_iff.mp hdef
    have helseLe := helse.le
    have hmid : mid ≤ between := by rw [hbetween]; split <;> omega
    exact Setting.carriesOut_ifElse hw hsize hcondDef hle helseLe hcond hcode
      hjump (fun k hs => hbody.numbered hs)
      (ihBody hbodyDef (by omega) hloops (by simp))
      (ihElse helseDef hle hloops (by simp))
  | @whileDo cond body s inner t start mid ends hcond _ hcode hbody hjump ih =>
    obtain ⟨hcondDef, hbodyDef⟩ := Bool.and_eq_true_iff.mp hdef
    have hbodyLe := hbody.le
    have hstart : start ≤ mid := by omega
    have hloops' : ∀ l ∈
        (s.enterLoop { breakTo := mid + 1, continueTo := start }).enter.loops,
        l.breakTo ≤ c.program.code.size ∧
          l.continueTo ≤ c.program.code.size := by
      intro l hl
      rcases List.mem_cons.mp hl with rfl | hl
      · exact ⟨hle, Nat.le_trans hstart (Nat.le_of_succ_le hle)⟩
      · exact hloops l hl
    exact Setting.carriesOut_whileDo hw hsize hcondDef hle hstart hcond hcode
      hjump (ih hbodyDef (by omega) hloops' (by simp))
  | breakLoop htarget hcode =>
    intro k m hs hcells hpc hm
    obtain ⟨l, rest, hrest, rfl⟩ := Scope.loop_of_breakTarget htarget
    have hsmall : l.breakTo < 2 ^ 63 :=
      Nat.lt_of_le_of_lt (hloops l (by simp [hrest])).1 hsize
    have hstep := Machine.advance_jump hm.halted hpc
      (Link.holds_cons.mp hcode).1 hsmall
    refine .of_step hm.halted hstep (.value ?_)
    exact ⟨_, htarget, rfl, rfl, rfl, rfl, rfl, rfl⟩
  | continueLoop htarget hcode =>
    intro k m hs hcells hpc hm
    obtain ⟨l, rest, hrest, rfl⟩ := Scope.loop_of_continueTarget htarget
    have hsmall : l.continueTo < 2 ^ 63 :=
      Nat.lt_of_le_of_lt (hloops l (by simp [hrest])).2 hsize
    have hstep := Machine.advance_jump hm.halted hpc
      (Link.holds_cons.mp hcode).1 hsmall
    refine .of_step hm.halted hstep (.value ?_)
    exact ⟨_, htarget, rfl, rfl, rfl, rfl, rfl, rfl⟩
  | @printf _ args _ a _ _ _ hformat _ _ hargs his hcode =>
    obtain ⟨hformatDef, hargsDef⟩ := Bool.and_eq_true_iff.mp hdef
    have hcount : args.length + 1 < 2 ^ 63 := by
      have hlength := hargs.length_le c.link
      have hpos := a.code_length_pos c.link
      simp only [his, List.length_append] at hle
      omega
    exact Setting.carriesOut_printf hw hsize hformatDef hargsDef hformat hargs
      hcount his hcode
  | nil =>
    intro k m hs hcells hpc hm
    exact .value ⟨by simpa using hpart, hpc, rfl, rfl, rfl, rfl, rfl⟩
  | cons hfirst hrest ihFirst ihRest =>
    obtain ⟨hfirstDef, hrestDef⟩ := Bool.and_eq_true_iff.mp hdef
    have hrestLe := hrest.le
    exact Setting.carriesOut_cons hfirst
      (ihFirst hfirstDef (by omega) hloops (by simp))
      fun hends => ihRest hrestDef hle (by rw [hfirst.loops]; exact hloops)
        (by simp [hends])

end StackC
