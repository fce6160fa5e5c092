import StackC.Emit.Expr
import StackC.Proofs.Simulation

/-!
Instructions, and the code of conversions and operators. What a conversion does
to a value is stated in whole numbers; the code gets there by shifts.
-/

namespace StackC

/-- Shifting to the left and back keeps the low `k` bits. -/
theorem shiftLeft_ushiftRight (x : BitVec 64) {k : Nat} (hk : k ≤ 64) :
    (x <<< (64 - k)) >>> (64 - k) =
      BitVec.ofInt 64 (x.toInt % ((2 ^ k : Nat) : Int)) := by
  obtain ⟨s, hs⟩ : ∃ s, 64 - k = s := ⟨_, rfl⟩
  have hpow : 2 ^ 64 = 2 ^ k * 2 ^ s := by
    rw [← Nat.pow_add, show k + s = 64 by omega]
  have hdvd : ((2 ^ k : Nat) : Int) ∣ ((2 ^ 64 : Nat) : Int) :=
    Int.natCast_dvd_natCast.mpr (hpow ▸ Nat.dvd_mul_right _ _)
  have hmod :
      x.toInt % ((2 ^ k : Nat) : Int) = ((x.toNat % 2 ^ k : Nat) : Int) := by
    rw [BitVec.toInt_eq_toNat_bmod, ← Int.emod_emod_of_dvd _ hdvd,
      Int.bmod_emod, Int.emod_emod_of_dvd _ hdvd, Int.natCast_emod]
  have hlt : x.toNat % 2 ^ k < 2 ^ 64 :=
    Nat.lt_of_le_of_lt (Nat.mod_le _ _) x.isLt
  rw [hmod, hs, BitVec.ofInt_natCast]
  apply BitVec.eq_of_toNat_eq
  rw [BitVec.toNat_ofNat, Nat.mod_eq_of_lt hlt, BitVec.toNat_ushiftRight,
    BitVec.toNat_shiftLeft, Nat.shiftLeft_eq, Nat.shiftRight_eq_div_pow, hpow,
    Nat.mul_mod_mul_right, Nat.mul_div_cancel _ (Nat.two_pow_pos s)]

/-- The same with copies of the highest bit kept. -/
theorem shiftLeft_sshiftRight (x : BitVec 64) {k : Nat} (hpos : 0 < k)
    (hk : k ≤ 64) :
    (x <<< (64 - k)).sshiftRight (64 - k) =
      BitVec.ofInt 64 (x.toInt.bmod (2 ^ k)) := by
  obtain ⟨s, hs⟩ : ∃ s, 64 - k = s := ⟨_, rfl⟩
  have hpow : 2 ^ 64 = 2 ^ s * 2 ^ k := by
    rw [← Nat.pow_add, show s + k = 64 by omega]
  have heven : 2 ∣ 2 ^ k := Nat.dvd_of_pow_dvd hpos (Nat.dvd_refl _)
  have hshift : (x <<< s).toInt = (2 ^ s : Nat) * x.toInt.bmod (2 ^ k) := by
    rw [BitVec.toInt_shiftLeft, Nat.shiftLeft_eq, Int.natCast_mul, Int.mul_comm,
      hpow, Int.mod_bmod_mul_of_pos _ _ (Nat.two_pow_pos s) heven,
      BitVec.toInt_eq_toNat_bmod,
      Int.bmod_bmod_of_dvd (hpow ▸ Nat.dvd_mul_left _ _)]
  have hsmall :
      (x.toInt.bmod (2 ^ k)).bmod (2 ^ 64) = x.toInt.bmod (2 ^ k) := by
    have hle : 2 ^ k ≤ 2 ^ 64 := Nat.pow_le_pow_right (by omega) hk
    have hlow := Int.le_bmod (x := x.toInt) (Nat.two_pow_pos k)
    have hhigh := Int.bmod_lt (x := x.toInt) (Nat.two_pow_pos k)
    exact Int.bmod_eq_of_le_mul_two (by omega) (by omega)
  apply BitVec.eq_of_toInt_eq
  rw [hs, BitVec.toInt_sshiftRight, hshift, BitVec.toInt_ofInt, hsmall,
    Int.shiftRight_eq_div_pow,
    Int.mul_ediv_cancel_left
    _ (Int.natCast_ne_zero.mpr (Nat.ne_of_gt (Nat.two_pow_pos s)))]

variable {t ty : Ty} {op : Operator}

/-- Only narrow integer types need code for a conversion. -/
theorem Ty.isInteger_of_narrow {b : Bool}
    (h : ¬ (!t.isInteger || 8 ≤ t.size.toInt || b) = true) :
    t.isInteger = true ∧ t.size.toInt < 8 := by
  simp only [Bool.or_eq_true, not_or, Bool.not_eq_true, decide_eq_true_eq] at h
  exact ⟨by simpa using h.1.1, by omega⟩

/-- A conversion to an integer type that is narrower than a cell. -/
theorem Ty.wrap_eq (h : t.isInteger = true) (hsize : t.size.toInt < 8)
    (v : Cell) :
    t.wrap v = if t.isUnsigned then Cell.zeroExtend v t.size
      else Cell.signExtend v t.size := by
  have hzero (k : Nat) (hk : k ≤ 64) :=
    (shiftLeft_ushiftRight v.toBitVec hk).symm
  have hsign (k : Nat) (hpos : 0 < k) (hk : k ≤ 64) :=
    (shiftLeft_sshiftRight v.toBitVec hpos hk).symm
  cases t with
  | base b unsigned =>
    cases b with
    | void => cases h
    | long =>
      have hwide : ¬ (8 : Cell).toInt < 8 := by decide
      exact absurd hsize hwide
    | char =>
      cases unsigned with
      | true => exact Int64.toBitVec_inj.mp (hzero 8 (by decide))
      | false => exact Int64.toBitVec_inj.mp (hsign 8 (by decide) (by decide))
    | short =>
      cases unsigned with
      | true => exact Int64.toBitVec_inj.mp (hzero 16 (by decide))
      | false => exact Int64.toBitVec_inj.mp (hsign 16 (by decide) (by decide))
    | int =>
      cases unsigned with
      | true => exact Int64.toBitVec_inj.mp (hzero 32 (by decide))
      | false => exact Int64.toBitVec_inj.mp (hsign 32 (by decide) (by decide))
  | pointer | array => cases h

/-- What an operation of the machine gives, in the words of evaluations. -/
def Arith.result (f : Arith) (a b : Cell) : Except Halt Cell :=
  match f.apply a b with
  | some v => .ok v
  | none => .error (.fault .divisionByZero)

/-- How an instruction meets the result of an evaluation. -/
def Machine.Executes (lim : Limits) (i : Instr) (m : Machine)
    (Q : α → Machine → Prop) : EStateM.Result Halt Store α → Prop
  | .ok a s => ∃ m', exec lim i m = (m', none) ∧ m'.store = s ∧ Q a m'
  | .error (.fault f) s =>
    ∃ m' e, exec lim i m = (m', some (.fault e)) ∧ e.fault = f ∧ m'.store = s
  | _ => False

namespace Setting

variable {c : Setting} {pre : List Cell} {x : Eval α} {post : α → List Cell}
  {i : Instr}

/-- One instruction that meets an evaluation. The machine stands behind it
already. -/
theorem performs_one
    (h : ∀ (lim : Limits) (m : Machine) (addr : Nat) (under : List Cell),
      lim.canWrite = true → m.pc = addr → m.Inside c.frame c.cells →
      m.stack = pre ++ under →
      m.Executes lim i (fun a m' => m.After m' addr (post a ++ under))
      (x m.store)) : c.Performs [i] pre x post := by
  intro m addr under hcode hpc hm hstack
  obtain ⟨hi, -⟩ := Link.holds_cons.mp hcode
  have hstep := Machine.advance_eq hm.halted hpc hi
  have hexec := h { maxSteps := m.steps + 1, maxDepth := m.frames.size + 1 }
    { m with steps := m.steps + 1, pc := addr + 1 } (addr + 1) under rfl rfl
    ⟨hm.halted, hm.frame, hm.staged, hm.base, hm.size, hm.room⟩ hstack
  have hsame : Machine.store { m with steps := m.steps + 1, pc := addr + 1 } =
      m.store := rfl
  rw [hsame] at hexec
  cases hx : x m.store with
  | ok a s =>
    rw [hx] at hexec
    obtain ⟨m', hm', rfl, hafter⟩ := hexec
    refine .of_step hm.halted (hstep.trans hm') (.value ?_)
    exact ⟨hafter.pc, hafter.stack, hafter.frames, hafter.staged, hafter.halted,
      hafter.size⟩
  | error e s =>
    rw [hx] at hexec
    cases e with
    | fault f =>
      obtain ⟨m', e, hm', rfl, rfl⟩ := hexec
      exact .fault hm.halted (hstep.trans hm')
    | outOfMemory | timeout | stuck => cases hexec

theorem computes_push (v : Cell) :
    c.Computes [{ op := .push, operand := v }] [] [v] := by
  refine performs_one fun lim m addr under _ hpc _ hstack => ?_
  exact ⟨m.push v, rfl, rfl, hpc, by rw [Machine.push, hstack]; rfl, rfl,
    rfl, rfl, rfl⟩

theorem computes_pop (v : Cell) : c.Computes [{ op := .pop }] [v] [] := by
  refine performs_one fun lim m addr under _ hpc _ hstack => ?_
  refine ⟨{ m with stack := under }, ?_, rfl, hpc, rfl, rfl, rfl, rfl, rfl⟩
  simp [Machine.exec, Machine.withPop, hstack, Machine.go]

theorem performs_arith (f : Arith) (a b : Cell) :
    c.Performs [{ op := .arith f }] [b, a] (orHalt (f.result a b))
      fun v => [v] := by
  refine performs_one fun lim m addr under _ hpc _ hstack => ?_
  cases hf : f.apply a b with
  | some v =>
    have hresult : orHalt (f.result a b) = (pure v : Eval Cell) := by
      rw [Arith.result, hf]; rfl
    rw [hresult]
    refine ⟨{ m with stack := v :: under }, ?_, rfl, hpc, rfl, rfl,
      rfl, rfl, rfl⟩
    simp [Machine.exec, Machine.withPop2, Machine.withPop, hstack, hf,
      Machine.go, Machine.push]
  | none =>
    have hresult :
        orHalt (f.result a b) =
        (throw (.fault .divisionByZero) : Eval Cell) := by
      rw [Arith.result, hf]
      rfl
    rw [hresult]
    refine ⟨{ m with stack := under, halted := true },
      { pc := m.pc, fault := .divisionByZero }, ?_, rfl, rfl⟩
    simp [Machine.exec, Machine.withPop2, Machine.withPop, hstack, hf,
      Machine.fail]

theorem Performs.computes {is : List Instr} {a : α}
    (h : c.Performs is pre (pure a) post) : c.Computes is pre (post a) := by
  intro m addr under hcode hpc hm hstack
  exact h m addr under hcode hpc hm hstack

theorem Computes.performs {is : List Instr} {a : α}
    (h : c.Computes is pre (post a)) : c.Performs is pre (pure a) post := by
  intro m addr under hcode hpc hm hstack
  exact h m addr under hcode hpc hm hstack

theorem computes_arith {f : Arith} {a b v : Cell} (h : f.apply a b = some v) :
    c.Computes [{ op := .arith f }] [b, a] [v] := by
  have hresult : orHalt (f.result a b) = (pure v : Eval Cell) := by
    rw [Arith.result, h]; rfl
  have := performs_arith (c := c) f a b
  rw [hresult] at this
  exact this.computes

/-- The instruction that brings a value into the range of a narrow integer
type. -/
theorem computes_extend (h : t.isInteger = true) (hsize : t.size.toInt < 8)
    (v : Cell) :
    c.Computes
      [{ op := if t.isUnsigned then .zeroExtend else .signExtend,
         operand := t.size }] [v] [t.wrap v] := by
  refine performs_one fun lim m addr under _ hpc _ hstack => ?_
  have hwidth : ¬ (t.size < 1 ∨ 8 < t.size) :=
    Machine.width_ok (Ty.size_of_isInteger h)
  refine ⟨{ m with stack := t.wrap v :: under }, ?_, rfl, hpc, rfl, rfl,
    rfl, rfl, rfl⟩
  rw [Ty.wrap_eq h hsize]
  cases hsign : t.isUnsigned with
  | true =>
    simp [Machine.exec, Machine.withPop, hstack, hwidth, Machine.go,
      Machine.push]
  | false =>
    simp [Machine.exec, Machine.withPop, hstack, hwidth, Machine.go,
      Machine.push]

theorem computes_convertCode (target source : Ty) (v : Cell) :
    c.Computes (convertCode target source) [v] [target.convert source v] := by
  rw [convertCode, Ty.convert]
  split
  next => exact computes_nil [v]
  next hnarrow =>
    obtain ⟨hint, hsize⟩ := Ty.isInteger_of_narrow hnarrow
    exact computes_extend hint hsize v

theorem computes_scaleCode (k v : Cell) :
    c.Computes (scaleCode k) [v] [v * k] := by
  rw [scaleCode]
  split
  next hone =>
    rw [show k = 1 by simpa using hone, Int64.mul_one]
    exact computes_nil [v]
  next =>
    have hpush : c.Computes [{ op := .push, operand := k }] [v] [k, v] :=
      (computes_push k).above [v]
    exact hpush.append (computes_arith rfl)

end Setting

/-- The operation of the machine for an operator. -/
theorem Operator.opcode_eq (h : op.isDefined = true) (unsigned : Bool) :
    ∃ f, (if unsigned then op.unsignedOpcode else op.opcode) = .arith f ∧
      ∀ a b, op.apply unsigned a b = f.result a b := by
  cases op with
  | other => cases h
  | add | sub | mul | eq | ne | lt | le | gt | ge =>
    cases unsigned with
    | true | false => exact ⟨_, rfl, fun a b => rfl⟩
  | div | mod =>
    cases unsigned with
    | true | false =>
      refine ⟨_, rfl, fun a b => ?_⟩
      simp only [apply, Arith.result, Arith.apply]
      split <;> rfl

namespace Setting

variable {c : Setting}

variable {op : Operator}

theorem performs_opcode (h : op.isDefined = true) (unsigned : Bool)
    (a b : Cell) :
    c.Performs [{ op := if unsigned then op.unsignedOpcode else op.opcode }]
      [b, a] (orHalt (op.apply unsigned a b)) fun v => [v] := by
  obtain ⟨f, hf, happly⟩ := op.opcode_eq h unsigned
  rw [hf, happly]
  exact performs_arith f a b

/-- Sums, differences and products of integers. -/
theorem performs_wrapping {f : Arith} (hty : ty.isInteger = true) {a b v : Cell}
    (hf : (if ty.isUnsigned then op.unsignedOpcode else op.opcode) = .arith f)
    (hv : f.apply a b = some v) :
    c.Performs (if ty.isUnsigned && ty.size.toInt < 8 then
      [{ op := if ty.isUnsigned then op.unsignedOpcode else op.opcode },
        { op := .zeroExtend, operand := ty.size }]
        else [{ op := if ty.isUnsigned then op.unsignedOpcode else op.opcode }])
        [b, a] (pure (if ty.isUnsigned && ty.size.toInt < 8 then ty.wrap v
          else v)) fun v => [v] := by
  rw [hf]
  split
  next hnarrow =>
    obtain ⟨hsign, hsize⟩ : ty.isUnsigned = true ∧ ty.size.toInt < 8 := by
      simpa using hnarrow
    have hextend := computes_extend (c := c) hty hsize v
    rw [if_pos hsign] at hextend
    exact Computes.performs ((computes_arith hv).append hextend)
  next => exact Computes.performs (computes_arith hv)

/-- The code of an operator on two integers of a type. -/
theorem performs_integerCode (hop : op.isDefined = true)
    (hty : ty.isInteger = true) (a b : Cell) :
    c.Performs (integerCode op ty) [b, a] (orHalt (op.applyInteger ty a b))
      fun v => [v] := by
  cases op with
  | add | sub | mul => exact performs_wrapping hty (by split <;> rfl) rfl
  | div | mod | eq | ne | lt | le | gt | ge | other =>
    exact performs_opcode hop ty.isUnsigned a b

end Setting

/-- The operand types that the rules allow, when the result is not a truth
value. -/
inductive Ty.Operands : Operator → Ty → Ty → Ty → Prop
  | integers {op : Operator} {l r : Ty} (hl : l.isInteger = true)
    (hr : r.isInteger = true) : Operands op l r (Ty.common l r)
  | offset {elem r : Ty} (hr : r.isInteger = true) :
    Operands .add (.pointer elem) r (.pointer elem)
  | offsetLeft {elem l : Ty} (hl : l.isInteger = true) :
    Operands .add l (.pointer elem) (.pointer elem)
  | offsetBack {elem r : Ty} (hr : r.isInteger = true) :
    Operands .sub (.pointer elem) r (.pointer elem)
  | difference {elem : Ty} : Operands .sub (.pointer elem) (.pointer elem) .long

theorem Ty.isInteger_of_base {b : Base} {unsigned : Bool}
    (h : (Ty.base b unsigned).isVoid = false) :
    (Ty.base b unsigned).isInteger = true := by
  cases b with
  | void => cases h
  | char | short | int | long => rfl

theorem Ty.base_of_isInteger (h : t.isInteger = true) :
    ∃ b unsigned, t = .base b unsigned := by
  cases t with
  | base b unsigned => exact ⟨b, unsigned, rfl⟩
  | pointer | array => cases h

theorem Ty.operands_of_binary {l r : Ty} (hop : op.isComparison = false)
    (h : Ty.binary op l r = .ok ty) : Ty.Operands op l r ty := by
  unfold Ty.binary at h
  obtain ⟨hvoid, h⟩ := ok_of_else h
  obtain ⟨hl, hr⟩ : l.isVoid = false ∧ r.isVoid = false := by simpa using hvoid
  rw [if_neg (by simp [hop])] at h
  split at h
  next =>
    cases h
    exact .integers (isInteger_of_base hl) (isInteger_of_base hr)
  next =>
    cases h
    exact .offset (isInteger_of_base hr)
  next =>
    cases h
    exact .offsetLeft (isInteger_of_base hl)
  next =>
    cases h
    exact .offsetBack (isInteger_of_base hr)
  next =>
    obtain ⟨heq, h⟩ := ok_of_then h
    cases h
    rw [beq_iff_eq] at heq
    subst heq
    exact .difference
  next => cases h

theorem pointerCode_difference (elem : Ty) :
    pointerCode .sub (.pointer elem) (.pointer elem) =
      if 1 < elem.cells.toInt then
        [{ op := .arith .sub }] ++
        ([{ op := .push, operand := elem.cells }] ++ [{ op := .arith .div }])
      else [{ op := .arith .sub }] := by
  simp [pointerCode, Ty.isPointer, Operator.opcode]

theorem Cell.ne_zero_of_one_lt {v : Cell} (h : 1 < v.toInt) : v ≠ 0 := by
  rintro rfl
  exact absurd h (by decide)

namespace Setting

variable {c : Setting}

/-- The code of a difference of pointers. -/
theorem performs_difference (elem : Ty) (a b : Cell) :
    c.Performs (pointerCode .sub (.pointer elem) (.pointer elem)) [b, a]
      (orHalt (Operator.applyPointer .sub (.pointer elem) (.pointer elem) a b))
      fun v => [v] := by
  have hsub : c.Computes [{ op := .arith .sub }] [b, a] [a - b] :=
    computes_arith rfl
  rw [pointerCode_difference, Operator.applyPointer]
  split
  next hmany =>
    have hpush :
        c.Computes [{ op := .push, operand := elem.cells }] [a - b]
        [elem.cells, a - b] := (computes_push elem.cells).above [a - b]
    exact Computes.performs
      (hsub.append (hpush.append
        (computes_arith (if_neg (Cell.ne_zero_of_one_lt hmany)))))
  next => exact Computes.performs hsub

/-- The code of an operator with a pointer among its operands. The operands are
scaled as they come, by `f` and `g`. -/
theorem performs_pointerCode (hop : op.isDefined = true) {l r : Ty}
    (hpointer : ¬ (l.isInteger && r.isInteger) = true)
    (hty : op.isComparison = false → ∃ ty, Ty.binary op l r = .ok ty) :
    ∃ f g : Cell → Cell, (∀ a, c.Computes (scaleLeftCode op l r) [a] [f a]) ∧
      (∀ b, c.Computes (scaleRightCode op l r) [b] [g b]) ∧
      ∀ a b, c.Performs (pointerCode op l r) [g b, f a]
        (orHalt (op.applyPointer l r a b)) fun v => [v] := by
  cases hcomparison : op.isComparison with
  | true =>
    have hplain : scaleLeftCode op l r = [] ∧ scaleRightCode op l r = [] ∧
        pointerCode op l r = [{ op := op.opcode }] ∧ ∀ a b,
        op.applyPointer l r a b = op.apply false a b := by
      cases op with
      | add | sub | mul | div | mod => cases hcomparison
      | eq | ne | lt | le | gt | ge | other =>
        exact ⟨rfl, rfl, rfl, fun _ _ => rfl⟩
    obtain ⟨hleft, hright, hcode, happly⟩ := hplain
    refine ⟨id, id, fun a => ?_, fun b => ?_, fun a b => ?_⟩
    · rw [hleft]
      exact computes_nil [a]
    · rw [hright]
      exact computes_nil [b]
    · rw [hcode, happly]
      exact performs_opcode hop false a b
  | false =>
    obtain ⟨ty, hty⟩ := hty hcomparison
    cases Ty.operands_of_binary hcomparison hty with
    | integers hl hr => exact absurd (by rw [hl, hr]; rfl) hpointer
    | @offset elem _ hr | @offsetBack elem _ hr =>
      refine ⟨id, (· * elem.cells), ?_, ?_, ?_⟩
      · intro a
        obtain ⟨_, _, rfl⟩ := Ty.base_of_isInteger hr
        exact computes_nil [a]
      · intro b
        simp only [scaleRightCode, hr, ↓reduceIte]
        exact computes_scaleCode elem.cells b
      · intro a b
        obtain ⟨_, _, rfl⟩ := Ty.base_of_isInteger hr
        exact Computes.performs (computes_arith rfl)
    | @offsetLeft elem _ hl =>
      refine ⟨(· * elem.cells), id, ?_, ?_, ?_⟩
      · intro a
        simp only [scaleLeftCode, hl, ↓reduceIte]
        exact computes_scaleCode elem.cells a
      · intro b
        obtain ⟨_, _, rfl⟩ := Ty.base_of_isInteger hl
        exact computes_nil [b]
      · intro a b
        obtain ⟨_, _, rfl⟩ := Ty.base_of_isInteger hl
        exact Computes.performs (computes_arith rfl)
    | difference =>
      exact ⟨id, id, fun a => computes_nil [a], fun b => computes_nil [b],
        performs_difference _⟩

end Setting

end StackC
