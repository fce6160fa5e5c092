import StackC.Proofs.Evaluation
import StackC.Proofs.Integers
import StackC.Proofs.WellFormed

/-!
The code of integer expressions. It leaves the pattern of the value that the
expression has over whole numbers, and what is stored of it in a variable,
returned or passed to a function is reduced to the range of the type it is
stored as. The code has no jumps, so it takes one step for each instruction.
-/

namespace StackC

namespace Machine

/-- Code takes a machine to another one in as many steps as it has instructions,
wherever it stands. -/
def Runs (lim : Limits) (m : Machine) (is : List Instr) (m' : Machine) : Prop :=
  ∀ (p : Program) (addr : Nat), m.pc = addr →
    (∀ k i, is[k]? = some i → p.code[addr + k]? = some i) →
    m.steps + is.length ≤ lim.maxSteps → runFor p lim is.length m = (m', none)

/-- The machine some steps further on, with another stack. -/
def ahead (m : Machine) (n : Nat) (stack : List Cell) : Machine :=
  { m with pc := m.pc + n, steps := m.steps + n, stack }

/-- Code replaces values on the stack and changes nothing else. -/
def Rewrites (lim : Limits) (m : Machine) (is : List Instr)
    (pre post : List Cell) : Prop :=
  ∀ n under,
    (m.ahead n (pre ++ under)).Runs lim is
    (m.ahead (n + is.length) (post ++ under))

def cell? (m : Machine) (v : LocalVar) : Option Nat := do
  let addr ← m.slotAddr v.operand
  m.index? addr

/-- The type and the value of an integer variable, if its cell holds a value of
its type. -/
def integerVar? (m : Machine) (s : Scope) (name : Name) :
    Option (Ty × Int) := do
  let v ← s.find? name
  let k ← m.cell? v
  let n := v.ty.number (m.memory.getD k 0)
  if v.ty.isInteger ∧ v.ty.Has n then return (v.ty, n) else none

variable {lim : Limits} {m m' m'' : Machine} {is js : List Instr}
  {pre mid post : List Cell}

theorem Runs.trans (h : m.Runs lim is m') (hpc : m'.pc = m.pc + is.length)
    (hsteps : m'.steps = m.steps + is.length) (h' : m'.Runs lim js m'') :
    m.Runs lim (is ++ js) m'' := by
  intro p addr haddr hcode hlimit
  rw [List.length_append] at hlimit ⊢
  have hfirst :=
    h p addr haddr
      (fun k i hi =>
        hcode k i
        (by rw [List.getElem?_append_left
          (List.getElem?_eq_some_iff.mp hi).1]; exact hi)) (by omega)
  rw [runFor, runForInto_add _ _ hfirst]
  refine h' p (addr + is.length) (by omega) (fun k i hi => ?_) (by omega)
  rw [Nat.add_assoc]
  exact hcode (is.length + k) i
    (by rw [List.getElem?_append_right (by omega),
      Nat.add_sub_cancel_left]; exact hi)

/-- One instruction. -/
theorem runs_one {i : Instr} (hrunning : m.halted = false)
    (h : exec lim i { m with steps := m.steps + 1, pc := m.pc + 1 } =
      (m', none)) : m.Runs lim [i] m' := by
  intro p addr haddr hcode hlimit
  have hi : p.code[m.pc.toNat]? = some i := by
    rw [haddr, Int.toNat_natCast]
    exact hcode 0 i rfl
  have hstep : step p lim m = (m', none) := by
    rw [step, if_neg (by simp [hrunning]), if_neg (by omega), hi]
    exact (if_neg (Nat.not_lt.mpr hlimit)).trans h
  exact runFor_of_step hrunning hstep 0

theorem ahead_succ (m : Machine) (n : Nat) (stack : List Cell) :
    { m.ahead n stack with steps := (m.ahead n stack).steps + 1,
                           pc := (m.ahead n stack).pc + 1 } =
                             m.ahead (n + 1) stack := by
  simp only [ahead, Nat.cast_add, Nat.cast_one, Int.add_assoc, Nat.add_assoc]

namespace Rewrites

theorem append (h : m.Rewrites lim is pre mid)
    (h' : m.Rewrites lim js mid post) : m.Rewrites lim (is ++ js) pre post := by
  intro n under
  rw [List.length_append, ← Nat.add_assoc]
  refine (h n under).trans ?_ ?_ (h' (n + is.length) under)
  · simp only [ahead]
    omega
  · simp only [ahead]
    omega

theorem above (h : m.Rewrites lim is pre post) (rest : List Cell) :
    m.Rewrites lim is (pre ++ rest) (post ++ rest) := by
  intro n under
  rw [List.append_assoc, List.append_assoc]
  exact h n (rest ++ under)

theorem nil (stack : List Cell) : m.Rewrites lim [] stack stack := by
  intro n under p addr haddr hcode hlimit
  rfl

theorem one {i : Instr} (hrunning : m.halted = false)
    (h : ∀ n under, exec lim i (m.ahead n (pre ++ under)) =
      (m.ahead n (post ++ under), none)) :
    m.Rewrites lim [i] pre post := by
  intro n under
  refine runs_one hrunning ?_
  rw [ahead_succ]
  exact h (n + 1) under

theorem runs (h : m.Rewrites lim is [] post) :
    m.Runs lim is (m.ahead is.length (post ++ m.stack)) := by
  have hstart := h 0 m.stack
  rw [Nat.zero_add] at hstart
  simpa [ahead] using hstart

end Rewrites

section

variable (hrunning : m.halted = false)

include hrunning

theorem rewrites_push (v : Cell) :
    m.Rewrites lim [{ op := .push, operand := v }] [] [v] :=
  .one hrunning fun _ _ => rfl

theorem rewrites_loadLocal {v : LocalVar} {k : Nat} (hk : m.cell? v = some k) :
    m.Rewrites lim [{ op := .loadLocal, operand := v.operand }] []
      [m.memory.getD k 0] := by
  obtain ⟨addr, haddr, hindex⟩ := Option.bind_eq_some_iff.mp hk
  refine .one hrunning fun n under => ?_
  have haddr' : (m.ahead n under).slotAddr v.operand = some addr := haddr
  have hindex' : (m.ahead n under).index? addr = some k := hindex
  simp only [exec, List.nil_append, haddr', hindex']
  rfl

theorem rewrites_arith {f : Arith} {a b v : Cell} (h : f.apply a b = some v) :
    m.Rewrites lim [{ op := .arith f }] [b, a] [v] := by
  refine .one hrunning fun n under => ?_
  simp only [exec, withPop2, withPop, ahead, List.cons_append,
    List.nil_append, h]
  rfl

theorem rewrites_extend {t : Ty} (ht : t.isInteger = true)
    (hsize : t.size.toInt < 8) (v : Cell) :
    m.Rewrites lim
      [{ op := if t.isUnsigned then .zeroExtend else .signExtend,
         operand := t.size }] [v] [t.wrap v] := by
  have hwidth : ¬ (t.size < 1 ∨ 8 < t.size) :=
    width_ok (Ty.size_of_isInteger ht)
  refine .one hrunning fun n under => ?_
  rw [Ty.wrap_eq ht hsize]
  cases t.isUnsigned with
  | true | false =>
    simp only [exec, hwidth, if_false, if_true, withPop, ahead,
      List.cons_append, List.nil_append, Bool.false_eq_true]
    rfl

theorem rewrites_convertCode (target source : Ty) (v : Cell) :
    m.Rewrites lim (convertCode target source) [v]
      [target.convert source v] := by
  rw [convertCode, Ty.convert]
  split
  next => exact .nil [v]
  next hnarrow =>
    obtain ⟨hint, hsize⟩ := Ty.isInteger_of_narrow hnarrow
    exact rewrites_extend hrunning hint hsize v

/-- The code of an operator on two integers of a type. -/
theorem rewrites_integerCode {op : Operator} (hop : op.isDefined = true)
    {c : Ty} (hc : c.isInteger = true) {a b v : Cell}
    (h : op.applyInteger c a b = .ok v) :
    m.Rewrites lim (integerCode op c) [b, a] [v] := by
  obtain ⟨f, hf, happly⟩ := op.opcode_eq hop c.isUnsigned
  have hresult {u : Cell} (hu : op.apply c.isUnsigned a b = .ok u) :
      f.apply a b = some u := by
    rw [happly, Arith.result] at hu
    split at hu
    next w hw =>
      cases hu
      exact hw
    next => cases hu
  cases op with
  | add | sub | mul =>
    simp only [Operator.applyInteger] at h
    simp only [integerCode, hf]
    cases happ : Operator.apply _ c.isUnsigned a b with
    | error e =>
      rw [happ] at h
      cases h
    | ok u =>
      rw [happ] at h
      have harith : m.Rewrites lim [{ op := .arith f }] [b, a] [u] :=
        rewrites_arith hrunning (hresult happ)
      cases h
      split
      next hnarrow =>
        obtain ⟨hsign, hsize⟩ : c.isUnsigned = true ∧ c.size.toInt < 8 := by
          simpa using hnarrow
        have hextend : m.Rewrites lim _ [u] [c.wrap u] :=
          rewrites_extend hrunning hc hsize u
        rw [if_pos hsign] at hextend
        exact harith.append hextend
      next => exact harith
  | div | mod | eq | ne | lt | le | gt | ge =>
    simp only [integerCode, hf]
    exact rewrites_arith hrunning (hresult h)
  | other => cases hop

end

end Machine

namespace Ty

variable {s t : Ty} (hs : s.isInteger = true) (ht : t.isInteger = true)

include hs in
theorem decay_of_isInteger : s.decay = s := by
  obtain ⟨_, _, rfl⟩ := base_of_isInteger hs
  rfl

include hs in
theorem isArray_of_isInteger : s.isArray = false := by
  obtain ⟨_, _, rfl⟩ := base_of_isInteger hs
  rfl

include hs in
theorem isVoid_of_isInteger : s.isVoid = false := by
  obtain ⟨b, _, rfl⟩ := base_of_isInteger hs
  cases b with
  | void => cases hs
  | char | short | int | long => rfl

include hs ht

theorem binary_integers (op : Operator) :
    Ty.binary op s t = .ok (if op.isComparison then .int else common s t) := by
  have hsVoid := isVoid_of_isInteger hs
  have htVoid := isVoid_of_isInteger ht
  obtain ⟨b, unsigned, rfl⟩ := base_of_isInteger hs
  obtain ⟨b', unsigned', rfl⟩ := base_of_isInteger ht
  unfold Ty.binary
  rw [hsVoid, htVoid]
  cases op.isComparison <;> rfl

theorem checkAssign_integers (isZero : Bool) :
    checkAssign t s isZero = .ok () := by
  have hsVoid := isVoid_of_isInteger hs
  have htVoid := isVoid_of_isInteger ht
  obtain ⟨b, unsigned, rfl⟩ := base_of_isInteger hs
  obtain ⟨b', unsigned', rfl⟩ := base_of_isInteger ht
  simp only [checkAssign, decay, hsVoid, htVoid]
  rfl

end Ty

theorem operandTypes_integers {s t : Ty} (hs : s.isInteger = true)
    (ht : t.isInteger = true) (op : Operator) (left right : Expr) :
    operandTypes op left right s t = (s, t) := by
  obtain ⟨b, unsigned, rfl⟩ := Ty.base_of_isInteger hs
  obtain ⟨b', unsigned', rfl⟩ := Ty.base_of_isInteger ht
  simp only [operandTypes, Ty.decay, Ty.isPointer, Bool.false_and,
    Bool.false_eq_true, if_false, ite_self]

/-- The code of an expression, the same after whatever has been emitted before,
puts a number on the stack. -/
structure Term.Puts (a : Term) (lim : Limits) (m : Machine) (ty : Ty) (n : Int)
    (code : List Instr) : Prop where
  ty : a.ty = ty
  emits : ∀ o : Output, a.emit o = o.emitAll code
  rewrites : m.Rewrites lim code [] [Int64.ofInt n]

theorem Output.emitAll_append (o : Output) (is js : List Instr) :
    o.emitAll (is ++ js) = (o.emitAll is).emitAll js :=
  List.foldl_append

section

variable {lim : Limits} {m : Machine} (hrunning : m.halted = false) {s : Scope}
  {t : Functions}

include hrunning

/-- The number, reduced to the range of a type. -/
theorem Term.Puts.converted {a : Term} {ty target : Ty} {n : Int}
    {code : List Instr} (h : a.Puts lim m ty n code) (hty : ty.isInteger = true)
    (hn : ty.Has n) (htarget : target.isInteger = true) :
    m.Rewrites lim (code ++ convertCode target ty) []
      [Int64.ofInt (target.reduce n)] := by
  rw [← Ty.convert_ofInt htarget hn (Ty.decay_of_isInteger hty)]
  exact h.rewrites.append
    (Machine.rewrites_convertCode hrunning target ty (Int64.ofInt n))

/-- An operator on two numbers. -/
theorem Term.Puts.binary {l r : Term} {sl sr ty : Ty} {a b n : Int}
    {cl cr : List Instr} {op : Operator} (hl : l.Puts lim m sl a cl)
    (hr : r.Puts lim m sr b cr) (hsl : sl.isInteger = true)
    (hsr : sr.isInteger = true) (ha : sl.Has a) (hb : sr.Has b)
    (h : op.compute (Ty.usual sl sr) ((Ty.usual sl sr).reduce a)
      ((Ty.usual sl sr).reduce b) = some (ty, n)) :
    (ty.isInteger = true ∧ ty.Has n) ∧
      ∃ code, (Term.binary op l r ty).Puts lim m ty n code := by
  have hcommon := Ty.common_eq_usual hsl hsr
  have hc := Ty.isInteger_common hsl hsr
  rw [← hcommon] at h
  obtain ⟨happly, hty, hn⟩ :=
    Operator.applyInteger_ofInt hc (Ty.has_reduce hc a) (Ty.has_reduce hc b) h
  have hleft := hl.converted hrunning hsl ha hc
  have hright :=
    (hr.converted hrunning hsr hb hc).above
      [Int64.ofInt ((Ty.common sl sr).reduce a)]
  have hop : m.Rewrites lim (integerCode op (Ty.common sl sr)) _ _ :=
    Machine.rewrites_integerCode hrunning (Operator.isDefined_of_compute h)
      hc happly
  refine ⟨⟨hty, hn⟩, _, rfl, fun o => ?_, hleft.append (hright.append hop)⟩
  have hlTy : l.ty.decay = sl := by rw [hl.ty, Ty.decay_of_isInteger hsl]
  have hrTy : r.ty.decay = sr := by rw [hr.ty, Ty.decay_of_isInteger hsr]
  simp only [Term.emit, hlTy, hrTy, hsl, hsr, Bool.and_self, if_true, hl.emits,
    hr.emits, Output.emitAll_append]

/-- An integer expression is accepted, and its code puts its value on the
stack. -/
theorem Expr.exists_puts (lim : Limits) :
    (x : Expr) → {ty : Ty} → {n : Int} →
      x.number (m.integerVar? s) = some (ty, n) →
      (ty.isInteger = true ∧ ty.Has n) ∧
        ∃ a code, check s t x = .ok a ∧ a.Puts lim m ty n code
  | .int v lit, ty, n, h => by
    simp only [number] at h
    obtain ⟨hlit, h⟩ := Option.ite_none_right_eq_some.mp h
    cases h
    refine ⟨hlit, .int v (lit.getD .int), [{ op := .push, operand := v }], rfl,
      rfl, fun o => rfl, ?_⟩
    rw [Ty.ofInt_number]
    exact Machine.rewrites_push hrunning v
  | .var name, ty, n, h => by
    obtain ⟨v, hv, h⟩ := Option.bind_eq_some_iff.mp h
    obtain ⟨k, hk, h⟩ := Option.bind_eq_some_iff.mp h
    dsimp only at h
    obtain ⟨hint, h⟩ := Option.ite_none_right_eq_some.mp h
    cases h
    have hresolve : s.resolve name = .ok v := by rw [Scope.resolve, hv]
    refine ⟨hint, .var v, [{ op := .loadLocal, operand := v.operand }],
      bind_ok hresolve rfl, rfl, fun o => ?_, ?_⟩
    · simp only [Term.emit, Ty.isArray_of_isInteger hint.1]
      rfl
    · rw [Ty.ofInt_number]
      exact Machine.rewrites_loadLocal hrunning hk
  | .binary op left right, ty, n, h => by
    obtain ⟨⟨sl, a⟩, hleft, h⟩ := Option.bind_eq_some_iff.mp h
    obtain ⟨⟨sr, b⟩, hright, h⟩ := Option.bind_eq_some_iff.mp h
    obtain ⟨⟨hsl, ha⟩, l, cl, hl, hlPuts⟩ := exists_puts lim left hleft
    obtain ⟨⟨hsr, hb⟩, r, cr, hr, hrPuts⟩ := exists_puts lim right hright
    obtain ⟨hhas, code, hputs⟩ := hlPuts.binary hrunning hrPuts hsl hsr ha hb h
    refine ⟨hhas, .binary op l r ty, code, check_binary hl hr ?_, hputs⟩
    rw [hlPuts.ty, hrPuts.ty, operandTypes_integers hsl hsr,
      Ty.binary_integers hsl hsr, Ty.common_eq_usual hsl hsr,
      Operator.ty_of_compute h]
  | .str _, _, _, h => by cases h
  | .call .., _, _, h => by cases h
  | .addr _, _, _, h => by cases h
  | .deref _, _, _, h => by cases h
  | .hole, _, _, h => by cases h

/-- What the parameters of a function get for integer arguments. -/
def argNumbers (vars : Name → Option (Ty × Int)) :
    List Param → List Expr → Option (List Int)
  | [], [] => some []
  | p :: ps, x :: xs => do
    let (_, n) ← x.number vars
    let ws ← argNumbers vars ps xs
    if p.ty.isInteger then return p.ty.reduce n :: ws else none
  | _, _ => none

/-- Integer arguments are accepted, and their code puts on the stack what the
parameters get. -/
theorem exists_putsArgs (lim : Limits) (name : Name) {index : Nat}
    {ps : List Param} {xs : List Expr} {ws : List Int}
    (h : argNumbers (m.integerVar? s) ps xs = some ws) :
    ws.length = ps.length ∧
      ∃ as code, checkArgs s t name index ps xs = .ok as ∧
        (∀ o, emitArgs ps as o = o.emitAll code) ∧
        m.Rewrites lim code [] (ws.map Int64.ofInt).reverse := by
  induction ps generalizing index xs ws with
  | nil =>
    cases xs with
    | nil =>
      cases h
      exact ⟨rfl, [], [], rfl, fun _ => rfl, .nil []⟩
    | cons => cases h
  | cons p ps ih =>
    cases xs with
    | nil => cases h
    | cons x xs =>
      obtain ⟨⟨ty, n⟩, hx, h⟩ := Option.bind_eq_some_iff.mp h
      obtain ⟨rest, hrest, h⟩ := Option.bind_eq_some_iff.mp h
      obtain ⟨hp, h⟩ := Option.ite_none_right_eq_some.mp h
      cases h
      obtain ⟨⟨hty, hn⟩, a, code, ha, hputs⟩ := x.exists_puts hrunning lim hx
      obtain ⟨hlength, as, code', has, hemits, hrewrites⟩ := ih hrest
      have hassign := Ty.checkAssign_integers hty hp x.isZero
      rw [← hputs.ty] at hassign
      refine ⟨congrArg Nat.succ hlength, a :: as,
        code ++ convertCode p.ty ty ++ code', ?_, fun o => ?_, ?_⟩
      · exact bind_ok ha
          (bind_ok (located_ok (typed_ok hassign)) (bind_ok has rfl))
      · simp only [emitArgs, hputs.emits, hputs.ty, hemits,
          Output.emitAll_append]
      · rw [List.map_cons, List.reverse_cons]
        exact (hputs.converted hrunning hty hn hp).append
          (hrewrites.above [Int64.ofInt (p.ty.reduce n)])

end

namespace Machine

variable {lim : Limits} {m : Machine} {is : List Instr} {w : Cell}

theorem withPop_ahead (m : Machine) (n : Nat) (w : Cell) (s : List Cell)
    (f : Machine → Cell → Machine × Option Stop) :
    (m.ahead n ([w] ++ s)).withPop f = f (m.ahead n s) w := rfl

/-- The cell of a variable gets the value on top of the stack. -/
theorem Rewrites.stores (h : m.Rewrites lim is [] [w])
    (hrunning : m.halted = false) {v : LocalVar} {k : Nat}
    (hk : m.cell? v = some k) :
    m.Runs lim (is ++ [{ op := .storeLocal, operand := v.operand }])
      { m.ahead (is.length + 1) m.stack with
        memory := m.memory.setIfInBounds k w } := by
  obtain ⟨addr, haddr, hindex⟩ := Option.bind_eq_some_iff.mp hk
  refine h.runs.trans rfl rfl (runs_one hrunning ?_)
  rw [ahead_succ]
  have haddr' : (m.ahead (is.length + 1) ([w] ++ m.stack)).slotAddr v.operand =
      some addr := haddr
  have hindex' : (m.ahead (is.length + 1) m.stack).index? addr = some k :=
    hindex
  simp only [exec, haddr', withPop_ahead, hindex']
  rfl

/-- The value on top of the stack is returned: to the caller, or as the result
of the run. -/
theorem Rewrites.returns (h : m.Rewrites lim is [] [w])
    (hrunning : m.halted = false) (hframes : 0 < m.frames.size) :
    ∃ m', m.Runs lim (is ++ [{ op := .ret }]) m' ∧
      (m.frames.size = 1 → m'.halted = true ∧ m'.result = w) ∧
      (1 < m.frames.size → m'.halted = false ∧ m'.stack = w :: m.stack) := by
  have hleave :
      ∃ m', (m.ahead (is.length + 1) m.stack).leaveFrame w = (m', none) ∧
      (m.frames.size = 1 → m'.halted = true ∧ m'.result = w) ∧
      (1 < m.frames.size → m'.halted = false ∧ m'.stack = w :: m.stack) := by
    have hsame : (m.ahead (is.length + 1) m.stack).frames = m.frames := rfl
    simp only [leaveFrame, hsame]
    cases hf : m.frames.back? with
    | none =>
      rw [Array.back?_eq_none_iff] at hf
      simp [hf] at hframes
    | some f =>
      dsimp only
      split
      next hempty =>
        have hone : m.frames.size - 1 = 0 := by
          simpa [Array.isEmpty] using hempty
        exact ⟨_, rfl, fun _ => ⟨rfl, rfl⟩, fun hmore => by omega⟩
      next hmore =>
        have hmany : m.frames.size - 1 ≠ 0 := by
          simpa [Array.isEmpty] using hmore
        exact ⟨_, rfl, fun hone => by omega, fun _ => ⟨hrunning, rfl⟩⟩
  obtain ⟨m', hm', hresult⟩ := hleave
  refine ⟨m', h.runs.trans rfl rfl (runs_one hrunning ?_), hresult⟩
  rw [ahead_succ]
  exact hm'

/-- The values on top of the stack become the arguments of a function. -/
theorem Rewrites.calls {ws : List Cell} (h : m.Rewrites lim is [] ws.reverse)
    (hrunning : m.halted = false) (hcount : ws.length < 2 ^ 63)
    (hdepth : m.frames.size < lim.maxDepth) (entry : Cell) :
    m.Runs lim
      (is ++ ([{ op := .frame, operand := Int64.ofNat ws.length }] ++
        [{ op := .call, operand := entry }]))
      { m.ahead (is.length + 2) m.stack with
        pc := entry.toInt
        memory := m.memory ++ ws
        staged := []
        frames := m.frames.push
          { base := m.memory.size, count := ws.length,
            returnTo := m.pc + (is.length + 2 : Nat) } } := by
  have hoperand : (Int64.ofNat ws.length).toInt = ws.length :=
    Int64.toInt_ofNat_of_lt hcount
  generalize Int64.ofNat ws.length = operand at hoperand
  obtain ⟨henough, htake, hdrop⟩ :=
    takes_args 0 (rfl : ws.reverse ++ m.stack = _) hoperand
      (by rw [hoperand, Int64.toInt_zero]; omega)
  have hframe :
      (m.ahead is.length (ws.reverse ++ m.stack)).Runs lim
      [{ op := .frame, operand }]
      ({ m with staged := ws }.ahead (is.length + 1) m.stack) := by
    refine runs_one hrunning ?_
    rw [ahead_succ]
    simp only [exec, takeArgs, ahead, if_neg henough, htake, hdrop]
    rfl
  have hcall : ({ m with staged := ws }.ahead (is.length + 1) m.stack).Runs lim
    [{ op := .call, operand := entry }] { m.ahead (is.length + 2) m.stack with
        pc := entry.toInt
        memory := m.memory ++ ws
        staged := []
        frames :=
          m.frames.push
            { base := m.memory.size, count := ws.length,
              returnTo := m.pc + (is.length + 2 : Nat) } } := by
    refine runs_one hrunning ?_
    rw [ahead_succ]
    have hroom : ¬ lim.maxDepth ≤ m.frames.size := Nat.not_le.mpr hdepth
    exact if_neg hroom
  refine h.runs.trans rfl rfl (hframe.trans ?_ ?_ hcall)
  · simp only [ahead, List.length_singleton, Nat.cast_add, Nat.cast_one,
      Int.add_assoc]
  · simp only [ahead, List.length_singleton, Nat.add_assoc]

end Machine

/-- What the code of an expression does whose value over whole numbers is `n`:
it leaves the pattern of `n`. A variable that it is assigned to or that it
initializes, and the caller that it is returned to, get the pattern of the
number of their own type that `n` is reduced to. -/
structure Emitter.ComputesInteger (e : Emitter) (lim : Limits) (m : Machine)
    (x : Expr) (ty : Ty) (n : Int) : Prop where
  inRange : ty.isInteger = true ∧ ty.Has n
  value : ∃ a code, e.check x = .ok a ∧ a.ty = ty ∧
    e.emitTerm a = e.emitAll code ∧
    m.Runs lim code (m.ahead code.length (Int64.ofInt n :: m.stack))
  assigned : ∀ (f : FuncDef) (name : Name) (v : LocalVar) (k : Nat),
    e.scope.find? name = some v → v.ty.isInteger = true → m.cell? v = some k →
    ∃ code, (Stmt.assign (.var name) x).emit f e = .ok (false, e.emitAll code) ∧
    m.Runs lim code { m.ahead code.length m.stack with
        memory := m.memory.setIfInBounds k (Int64.ofInt (v.ty.reduce n)) }
  initialized :
    ∀ (f : FuncDef) (before : Emitter) (t : Ty) (name : Name) (v :
      LocalVar) (k : Nat), before.declare t name = .ok (v, e) →
      t.isInteger = true → m.cell? v = some k →
      ∃ code, (Stmt.init t name x).emit f before = .ok (false, e.emitAll code) ∧
      m.Runs lim code { m.ahead code.length m.stack with
        memory := m.memory.setIfInBounds k (Int64.ofInt (t.reduce n)) }
  returned : ∀ f : FuncDef, f.ret.isInteger = true → 0 < m.frames.size →
    ∃ code m', (Stmt.ret (some x)).emit f e = .ok (true, e.emitAll code) ∧
    m.Runs lim code m' ∧
    (m.frames.size = 1 → m'.halted = true ∧
      m'.result = Int64.ofInt (f.ret.reduce n)) ∧
      (1 < m.frames.size → m'.halted = false ∧
        m'.stack = Int64.ofInt (f.ret.reduce n) :: m.stack)

theorem Emitter.emitTerm_converted {e : Emitter} {lim : Limits} {m : Machine}
    {a : Term} {ty : Ty} {n : Int} {code : List Instr}
    (h : a.Puts lim m ty n code) (target : Ty) (i : Instr) :
    ((e.emitTerm a).emitAll (convertCode target a.ty)).emit i =
      e.emitAll (code ++ convertCode target ty ++ [i]) := by
  simp only [emitTerm, emitAll, emit, h.emits, h.ty, Output.emitAll_append]
  rfl

theorem Emitter.computesInteger (e : Emitter) (lim : Limits) {m : Machine}
    (hrunning : m.halted = false) {x : Expr} {ty : Ty} {n : Int}
    (h : x.number (m.integerVar? e.scope) = some (ty, n)) :
    e.ComputesInteger lim m x ty n := by
  obtain ⟨⟨hty, hn⟩, a, code, ha, hputs⟩ :=
    x.exists_puts (t := e.out.funcs) hrunning lim h
  have hassign {target : Ty} (htarget : target.isInteger = true) :
      Ty.checkAssign target a.ty x.isZero = .ok () := by
    rw [hputs.ty]
    exact Ty.checkAssign_integers hty htarget x.isZero
  have hstores {v : LocalVar} {k : Nat} (hvty : v.ty.isInteger = true)
      (hk : m.cell? v = some k) :=
    (hputs.converted hrunning hty hn hvty).stores hrunning hk
  refine ⟨⟨hty, hn⟩, ⟨a, code, ha, hputs.ty, ?_, hputs.rewrites.runs⟩,
    ?_, ?_, ?_⟩
  · rw [emitTerm, emitAll, hputs.emits]
  · intro f name v k hv hvty hk
    have hresolve : e.scope.resolve name = .ok v := by rw [Scope.resolve, hv]
    refine ⟨code ++ convertCode v.ty ty ++
      [{ op := .storeLocal, operand := v.operand }], ?_, ?_⟩
    · refine bind_ok
        (bind_ok (bind_ok hresolve rfl)
          (bind_ok ha (bind_ok (typed_ok (hassign hvty)) rfl))) ?_
      exact congrArg (fun e => Except.ok (false, e))
        (emitTerm_converted hputs v.ty _)
    · rw [List.length_append]
      exact hstores hvty hk
  · intro f before t name v k hdeclare ht hk
    obtain ⟨-, hadd, -⟩ := of_declare hdeclare
    have hvty : v.ty = t := by rw [(Scope.of_addLocal hadd).1]
    subst hvty
    refine ⟨code ++ convertCode v.ty ty ++
      [{ op := .storeLocal, operand := v.operand }], ?_, ?_⟩
    · have hinit :
          before.declareInit v.ty name x =
          .ok (((e.emitTerm a).emitAll (convertCode v.ty a.ty)).emit
          { op := .storeLocal, operand := v.operand }) := by
        refine bind_ok hdeclare ?_
        dsimp only
        rw [if_neg (by simp [Ty.isArray_of_isInteger ht])]
        exact bind_ok ha (bind_ok (located_ok (typed_ok (hassign ht))) rfl)
      refine bind_ok hinit ?_
      exact congrArg (fun e => Except.ok (false, e))
        (emitTerm_converted hputs v.ty _)
    · rw [List.length_append]
      exact hstores ht hk
  · intro f hret hframes
    obtain ⟨m', hruns, hresult⟩ :=
      (hputs.converted hrunning hty hn hret).returns hrunning hframes
    refine ⟨code ++ convertCode f.ret ty ++ [{ op := .ret }], m', ?_,
      hruns, hresult⟩
    have hgive :
        e.giveBack f (some x) =
        .ok (((e.emitTerm a).emitAll (convertCode f.ret a.ty)).emit
        { op := .ret }) := by
      rw [giveBack, if_neg (by simp [Ty.isVoid_of_isInteger hret])]
      exact bind_ok ha (bind_ok (located_ok (typed_ok (hassign hret))) rfl)
    refine bind_ok hgive ?_
    exact congrArg (fun e => Except.ok (true, e))
      (emitTerm_converted hputs f.ret _)

/-- Integer code computes the arithmetic of whole numbers, reduced as the types
say. The code of an expression leaves the pattern of its value. A variable, a
caller or a parameter that gets a value gets the one number of its own type that
is congruent to it. -/
theorem Emitter.integer_code_computes (e : Emitter) (lim : Limits) {m : Machine}
    (hrunning : m.halted = false) :
    (∀ (t : Ty) (n w : Int), t.isInteger = true →
      (w = t.reduce n ↔ t.Has w ∧ w ≡ n [ZMOD (2 ^ t.bits : Nat)])) ∧
    (∀ (x : Expr) (ty : Ty) (n : Int),
      x.number (m.integerVar? e.scope) = some (ty, n) →
      e.ComputesInteger lim m x ty n) ∧
    ∀ (name : Name) (ps : List Param) (xs : List Expr) (ws : List Int),
      ps.length < 2 ^ 63 →
      m.frames.size < lim.maxDepth →
        argNumbers (m.integerVar? e.scope) ps xs = some ws →
      ∃ as code, checkArgs e.scope e.out.funcs name 1 ps xs = .ok as ∧
        (∀ o : Output, emitArgs ps as o = o.emitAll code) ∧
        ∀ entry : Cell, m.Runs lim
          (code ++
            ([{ op := .frame, operand := Int64.ofNat ps.length }] ++
              [{ op := .call, operand := entry }]))
          { m.ahead (code.length + 2) m.stack with
            pc := entry.toInt
            memory := m.memory ++ ws.map Int64.ofInt
            staged := []
            frames := m.frames.push
              { base := m.memory.size, count := ps.length,
                returnTo := m.pc + (code.length + 2 : Nat) } } := by
  refine ⟨fun t n w ht => Ty.eq_reduce_iff ht, fun x ty n hx =>
    e.computesInteger lim hrunning hx, ?_⟩
  intro name ps xs ws hcount hdepth hws
  obtain ⟨hlength, as, code, has, hemits, hrewrites⟩ :=
    exists_putsArgs hrunning lim name hws
  refine ⟨as, code, has, hemits, fun entry => ?_⟩
  have hlength' : (ws.map Int64.ofInt).length = ps.length := by
    rw [List.length_map, hlength]
  have hcalls := hrewrites.calls hrunning (hlength' ▸ hcount) hdepth entry
  rwa [hlength'] at hcalls

/-- A function with a `char` and an `unsigned int`, which hold -100 and 5. -/
def mixedSigns : Emitter × Machine :=
  ({ scope :=
      { blocks := [[{ ty := .base .int true, name := text "u", isParam := false,
                      slot := 2 },
          { ty := .char, name := text "c", isParam := false, slot := 1 }]]
        cellCount := 2 } },
   { pc := 0, memory := #[0, -100, 5],
     frames := #[{ base := 1, count := 0, returnTo := -1 }] })

/-- The difference is computed without a sign, and `c` gets its low byte back
with one. -/
theorem Emitter.integer_code_computes_mixedSigns :
    mixedSigns.2.halted = false ∧
      Expr.number (mixedSigns.2.integerVar? mixedSigns.1.scope)
        (.binary .sub (.var (text "c")) (.var (text "u"))) =
        some (.base .int true, 4294967191) ∧
      mixedSigns.1.ComputesInteger {} mixedSigns.2
        (.binary .sub (.var (text "c")) (.var (text "u"))) (.base .int true)
        4294967191 ∧
      Ty.char.reduce 4294967191 = -105 := by
  have hvalue :
      Expr.number (mixedSigns.2.integerVar? mixedSigns.1.scope)
      (.binary .sub (.var (text "c")) (.var (text "u"))) =
      some (.base .int true, 4294967191) := by
    decide +kernel
  have hcode :=
    (integer_code_computes mixedSigns.1 {} (m := mixedSigns.2) rfl).2.1
      _ _ _ hvalue
  exact ⟨rfl, hvalue, hcode, by decide +kernel⟩

end StackC
