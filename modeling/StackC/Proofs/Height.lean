import StackC.Proofs.Shape

/-!
Heights of the operand stack. `Steady` says that a run which reaches an address
of a function with so many values on the operand stack never asks for a value
that is not there before the function returns, and that it then returns with
exactly one value. It is built up in steps, since loops go back to earlier
addresses. The code of every function that has only defined operators is steady
from its start with an empty stack.
-/

namespace StackC

/-- How many values an instruction takes from the operand stack. -/
def Instr.pops (i : Instr) : Nat :=
  match i.op with
  | .pop | .storeLocal | .load | .signExtend | .zeroExtend | .jumpZero
  | .ret => 1
  | .arith _ | .store => 2
  | .printf | .frame => i.operand.toInt.toNat
  | _ => 0

/-- How many values an instruction puts on the operand stack. -/
def Instr.pushes (i : Instr) : Nat :=
  match i.op with
  | .push | .loadLocal | .addrLocal | .load | .arith _ | .signExtend
  | .zeroExtend => 1
  | _ => 0

/-- An instruction can be executed with `h` values on the stack. A call is
looked at together with the instruction before it, and a function returns with
one value on the stack. -/
def Instr.Ready (L : Link) (addr h : Nat) (i : Instr) : Prop :=
  match i.op with
  | .ret => h = 1
  | .frame =>
    i.pops ≤ h ∧ ∃ f ∈ L.signatures, i.operand.toInt = f.params.length ∧
      L.code[addr + 1]? = some { op := .call, operand := L.entry f.name }
  | .printf => i.pops ≤ h ∧ 1 ≤ i.operand.toInt
  | .entry | .call | .illegal .. => False
  | _ => i.pops ≤ h

/-- The addresses an instruction leads to within its function, with the heights
there. After a call there is its result. -/
def Instr.next (addr h : Nat) (i : Instr) : List (Nat × Nat) :=
  match i.op with
  | .ret => []
  | .jump => [(i.operand.toInt.toNat, h)]
  | .jumpZero => [(i.operand.toInt.toNat, h - i.pops), (addr + 1, h - i.pops)]
  | .frame => [(addr + 2, h - i.pops + 1)]
  | _ => [(addr + 1, h - i.pops + i.pushes)]

/-- Whether an instruction only works on the values on top of the stack, always
as many of them, and leads to the next instruction. -/
def Opcode.isPlain : Opcode → Bool
  | .ret | .jump | .jumpZero | .frame | .call | .printf | .entry
  | .illegal .. => false
  | _ => true

/-- Nothing goes wrong within `n` steps from an address between `lo` and `hi`
with `h` values on the stack. -/
def Link.Safe (L : Link) (lo hi : Nat) : (n addr h : Nat) → Prop
  | 0, _, _ => True
  | n + 1, addr, h =>
    (lo < addr ∧ addr < hi) ∧ ∃ i, L.code[addr]? = some i ∧ i.Ready L addr h ∧
      ∀ q ∈ i.next addr h, L.Safe lo hi n q.1 q.2

/-- Nothing goes wrong from an address with `h` values on the stack. -/
def Link.Steady (L : Link) (lo hi addr h : Nat) : Prop :=
  ∀ n, L.Safe lo hi n addr h

namespace Link

variable {L : Link} {lo hi n addr h : Nat}

theorem Safe.pred (hsafe : L.Safe lo hi (n + 1) addr h) :
    L.Safe lo hi n addr h := by
  induction n generalizing addr h with
  | zero => trivial
  | succ n ih =>
    obtain ⟨hrange, i, hcode, hready, hnext⟩ := hsafe
    exact ⟨hrange, i, hcode, hready, fun q hq => ih (hnext q hq)⟩

theorem Safe.mono {m : Nat} (hsafe : L.Safe lo hi m addr h) (hle : n ≤ m) :
    L.Safe lo hi n addr h := by
  induction hle with
  | refl => exact hsafe
  | step _ ih => exact ih hsafe.pred

/-- What an instruction leads to from a steady place is steady. -/
theorem Steady.step (hsteady : L.Steady lo hi addr h) :
    (lo < addr ∧ addr < hi) ∧ ∃ i, L.code[addr]? = some i ∧ i.Ready L addr h ∧
      ∀ q ∈ i.next addr h, L.Steady lo hi q.1 q.2 := by
  obtain ⟨hrange, i, hcode, hready, -⟩ := hsteady 1
  refine ⟨hrange, i, hcode, hready, fun q hq n => ?_⟩
  obtain ⟨-, j, hj, -, hnext⟩ := hsteady (n + 1)
  rw [hcode] at hj
  cases hj
  exact hnext q hq

/-- The instructions take `d` values from the stack and leave `u` in their
place. -/
def Turns (L : Link) (lo hi : Nat) (is : List Instr) (d u : Nat) : Prop :=
  ∀ n addr h, L.Holds addr is → lo < addr → addr + is.length ≤ hi →
    L.Safe lo hi n (addr + is.length) (h + u) → L.Safe lo hi n addr (h + d)

theorem turns_nil (d : Nat) : L.Turns lo hi [] d d :=
  fun _ _ _ _ _ _ hsafe => hsafe

variable {is : List Instr} {d u : Nat} {op : Operator}

theorem Turns.append {js : List Instr} {w : Nat} (hfirst : L.Turns lo hi is d u)
    (hrest : L.Turns lo hi js u w) : L.Turns lo hi (is ++ js) d w := by
  intro n addr h hcode hlo hhi hsafe
  obtain ⟨his, hjs⟩ := holds_append.mp hcode
  rw [List.length_append, ← Nat.add_assoc] at hhi hsafe
  exact hfirst n addr h his hlo (by omega)
    (hrest n _ h hjs (by omega) hhi hsafe)

theorem Turns.safe (hturns : L.Turns lo hi is d u) (hcode : L.Holds addr is)
    (hlo : lo < addr) (hle : addr + is.length ≤ hi)
    (hsafe : L.Safe lo hi n (addr + is.length) u) : L.Safe lo hi n addr d := by
  have h := hturns n addr 0 hcode hlo hle
  rw [Nat.zero_add, Nat.zero_add] at h
  exact h hsafe

/-- What lies below the values that are used does not matter. -/
theorem Turns.above (hturns : L.Turns lo hi is d u) (k : Nat) :
    L.Turns lo hi is (k + d) (k + u) := by
  intro n addr h hcode hlo hhi hsafe
  rw [← Nat.add_assoc] at hsafe ⊢
  exact hturns n addr (h + k) hcode hlo hhi hsafe

/-- An instruction that leads to the next one only. -/
theorem turns_one {i : Instr} (hready : ∀ addr h, i.Ready L addr (h + i.pops))
    (hnext : ∀ addr h, i.next addr h = [(addr + 1, h - i.pops + i.pushes)]) :
    L.Turns lo hi [i] i.pops i.pushes := by
  intro n addr h hcode hlo hhi hsafe
  cases n with
  | zero => trivial
  | succ n =>
    refine ⟨⟨hlo, hhi⟩, i, (holds_cons.mp hcode).1, hready addr h,
      fun q hq => ?_⟩
    rw [hnext, Nat.add_sub_cancel] at hq
    rcases List.mem_singleton.mp hq with rfl
    exact hsafe.pred

/-- An instruction that only works on the values on top of the stack. -/
theorem turns_plain {i : Instr} (h : i.op.isPlain = true) :
    L.Turns lo hi [i] i.pops i.pushes := by
  obtain ⟨op, operand⟩ := i
  refine turns_one (fun addr h => ?_) fun addr h => ?_
  · cases op <;> first | exact Nat.le_add_left _ _ | cases h
  · cases op <;> first | rfl | cases h

theorem turns_printf {k : Nat} (hk : k + 1 < 2 ^ 63) :
    L.Turns lo hi [{ op := .printf, operand := Int64.ofNat (k + 1) }]
      (k + 1) 0 := by
  have hcount := Int64.toInt_ofNat_of_lt hk
  have hpops :
      Instr.pops { op := .printf, operand := Int64.ofNat (k + 1) } = k + 1 := by
    rw [Instr.pops, hcount, Int.toNat_natCast]
  have hturns :
      L.Turns lo hi [{ op := .printf, operand := Int64.ofNat (k + 1) }]
      (Instr.pops { op := .printf, operand := Int64.ofNat (k + 1) }) 0 :=
    turns_one (fun _ _ => ⟨Nat.le_add_left _ _, by rw [hcount]; omega⟩)
      fun _ _ => rfl
  rwa [hpops] at hturns

/-- The arguments of a call are replaced by its result. -/
theorem turns_call {f : FuncDef} (hf : f ∈ L.signatures)
    (hparams : f.params.length < 2 ^ 63) :
    L.Turns lo hi [{ op := .frame, operand := Int64.ofNat f.params.length },
      { op := .call, operand := L.entry f.name }] f.params.length 1 := by
  intro n addr h hcode hlo hhi hsafe
  have hcount := Int64.toInt_ofNat_of_lt hparams
  have hpops :
      Instr.pops { op := .frame, operand := Int64.ofNat f.params.length } =
      f.params.length := by
    rw [Instr.pops, hcount, Int.toNat_natCast]
  obtain ⟨hframe, hcall⟩ := holds_cons.mp hcode
  cases n with
  | zero => trivial
  | succ n =>
    have hready : Instr.Ready L addr (h + f.params.length)
        { op := .frame, operand := Int64.ofNat f.params.length } :=
      ⟨by rw [hpops]; omega, f, hf, hcount, (holds_cons.mp hcall).1⟩
    refine ⟨⟨hlo, by simp at hhi; omega⟩, _, hframe, hready, fun q hq => ?_⟩
    rcases List.mem_singleton.mp hq with rfl
    rw [hpops, Nat.add_sub_cancel]
    exact hsafe.pred

theorem turns_convertCode (target source : Ty) :
    L.Turns lo hi (convertCode target source) 1 1 := by
  simp only [convertCode]
  split
  next => exact turns_nil 1
  next =>
    split
    · exact turns_plain rfl
    · exact turns_plain rfl

theorem turns_scaleCode (c : Cell) : L.Turns lo hi (scaleCode c) 1 1 := by
  simp only [scaleCode]
  split
  next => exact turns_nil 1
  next =>
    have hpush : L.Turns lo hi [{ op := .push, operand := c }] 0 1 :=
      turns_plain rfl
    exact (hpush.above 1).append (turns_plain rfl)

theorem turns_scaleLeftCode (op : Operator) (l r : Ty) :
    L.Turns lo hi (scaleLeftCode op l r) 1 1 := by
  simp only [scaleLeftCode]
  split
  · split
    · exact turns_scaleCode _
    · exact turns_nil 1
  · split
    · exact turns_scaleCode _
    · exact turns_nil 1
  · exact turns_nil 1

theorem turns_opcode (h : op.isDefined = true) :
    L.Turns lo hi [{ op := op.opcode }] 2 1 := by
  cases op with
  | other => cases h
  | add | sub | mul | div | mod | eq | ne | lt | le | gt | ge =>
    exact turns_plain rfl

theorem turns_unsignedOpcode (h : op.isDefined = true) :
    L.Turns lo hi [{ op := op.unsignedOpcode }] 2 1 := by
  cases op with
  | other => cases h
  | add | sub | mul | div | mod | eq | ne | lt | le | gt | ge =>
    exact turns_plain rfl

theorem turns_integerCode (h : op.isDefined = true) (c : Ty) :
    L.Turns lo hi (integerCode op c) 2 1 := by
  have happly :
      L.Turns lo hi
      [{ op := if c.isUnsigned then op.unsignedOpcode else op.opcode }]
      2 1 := by
    cases c.isUnsigned
    · exact turns_opcode h
    · exact turns_unsignedOpcode h
  cases op with
  | other => cases h
  | add | sub | mul =>
    simp only [integerCode]
    split
    next => exact happly.append (turns_plain rfl)
    next => exact happly
  | div | mod | eq | ne | lt | le | gt | ge => exact happly

theorem turns_pointerCode (h : op.isDefined = true) (l r : Ty) :
    L.Turns lo hi (pointerCode op l r) 2 1 := by
  simp only [pointerCode]
  split
  next elem =>
    split
    next =>
      have hpush : L.Turns lo hi [{ op := .push, operand := elem.cells }] 0 1 :=
        turns_plain rfl
      exact (turns_opcode h).append ((hpush.above 1).append (turns_plain rfl))
    next => exact turns_opcode h
  next => exact turns_opcode h

end Link

theorem Term.code_ne_nil (L : Link) : (a : Term) → a.code L ≠ []
  | .int .. | .str _ | .var _ | .addrVar _ => by simp [Term.code]
  | .binary op l r ty => by
    have := l.code_ne_nil L
    simp only [Term.code]
    split <;> simp [this]
  | .call f args => by simp [Term.code]
  | .addrDeref p _ => p.code_ne_nil L
  | .deref p ty => by
    simp only [Term.code]
    split
    · exact p.code_ne_nil L
    · simp

theorem Term.code_length_pos (L : Link) (a : Term) : 0 < (a.code L).length :=
  List.length_pos_iff.mpr (a.code_ne_nil L)

section

variable {L : Link} {lo hi : Nat}

/-- Code that lies below `hi` is no longer than `hi`. -/
theorem Link.turns_of_length {is : List Instr} {d u : Nat} (hhi : hi < 2 ^ 63)
    (h : is.length < 2 ^ 63 → L.Turns lo hi is d u) : L.Turns lo hi is d u := by
  intro n addr k hcode hlo hle hsafe
  exact h (by omega) n addr k hcode hlo hle hsafe

variable {vars : Name → Option LocalVar} {n addr target : Nat}

theorem Resolves.lengths {signatures : List FuncDef} {phrase : Phrase}
    (h : Resolves vars signatures phrase) (L : Link) :
    match phrase with
    | .one _ _ => True
    | .args ps _ as =>
      ps.length = as.length ∧ as.length ≤ (argsCode L ps as).length := by
  induction h with
  | int | str | var | binary | call | addrVar | addrDeref | deref => trivial
  | nil => exact ⟨rfl, Nat.le_refl 0⟩
  | @cons p ps x xs a as _ _ _ _ has =>
    have := a.code_length_pos L
    simp only [List.length_cons, argsCode, List.length_append]
    omega

/-- The code of a term leaves one value, the code of arguments leaves as many as
there are. -/
theorem Resolves.turns {phrase : Phrase} (hhi : hi < 2 ^ 63)
    (h : Resolves vars L.signatures phrase) :
    match phrase with
    | .one x a => x.isDefined = true → L.Turns lo hi (a.code L) 0 1
    | .args ps xs as =>
      exprsDefined xs = true →
        L.Turns lo hi (argsCode L ps as) 0 ps.length := by
  induction h with
  | int | str | addrVar => exact fun _ => Link.turns_plain rfl
  | @var name v hv =>
    intro _
    cases hv : v.ty.isArray <;> simp only [Term.code, hv]
      <;> exact Link.turns_plain rfl
  | @binary op left right l r ty _ _ _ hl hr =>
    intro hdef
    simp only [Expr.isDefined, Bool.and_eq_true] at hdef
    obtain ⟨⟨hop, hleft⟩, hright⟩ := hdef
    simp only [Term.code]
    split
    next =>
      exact ((hl hleft).append (Link.turns_convertCode _ _)).append
        ((((hr hright).append (Link.turns_convertCode _ _)).above 1).append
          (Link.turns_integerCode hop _))
    next =>
      refine ((hl hleft).append (Link.turns_scaleLeftCode _ _ _)).append ?_
      exact (((hr hright).append (Link.turns_scaleLeftCode _ _ _)).above
        1).append (Link.turns_pointerCode hop _ _)
  | @call name args f as hname hf hres hargs =>
    intro hdef
    obtain ⟨hlength, hle⟩ := hres.lengths L
    refine Link.turns_of_length hhi fun hshort => ?_
    simp only [Term.code, List.length_append] at hshort
    have hcall : f.erase ∈ L.signatures := List.mem_of_find?_eq_some hf
    exact (hargs hdef).append
      (Link.turns_call (f := f.erase) hcall
        (show f.params.length < 2 ^ 63 by omega))
  | addrDeref _ _ hp => exact hp
  | @deref x p ty _ _ hp =>
    intro hdef
    simp only [Term.code]
    split
    next => exact hp hdef
    next => exact (hp hdef).append (Link.turns_plain rfl)
  | nil => exact fun _ => Link.turns_nil 0
  | @cons p ps x xs a as _ _ _ ha has =>
    intro hdef
    obtain ⟨hx, hxs⟩ := Bool.and_eq_true_iff.mp hdef
    have hrest := (has hxs).above 1
    rw [Nat.add_zero, Nat.add_comm] at hrest
    exact ((ha hx).append (Link.turns_convertCode _ _)).append hrest

theorem Printed.length_le {signatures : List FuncDef} {xs : List Expr}
    {as : List Term} (h : Printed vars signatures xs as) (L : Link) :
    xs.length ≤ (termsCode L as).length := by
  induction h with
  | nil => exact Nat.le_refl 0
  | @cons x xs a as _ _ _ ih =>
    have := a.code_length_pos L
    simp only [termsCode, List.flatMap_cons, List.length_append,
      List.length_cons] at ih ⊢
    omega

theorem Printed.turns {vars : Name → Option LocalVar} {xs : List Expr}
    {as : List Term} (hhi : hi < 2 ^ 63) (h : Printed vars L.signatures xs as)
    (hdef : exprsDefined xs = true) :
    L.Turns lo hi (termsCode L as) 0 xs.length := by
  induction h with
  | nil => exact Link.turns_nil 0
  | @cons x xs a as ha _ _ ih =>
    obtain ⟨hx, hxs⟩ := Bool.and_eq_true_iff.mp hdef
    have hrest := (ih hxs).above 1
    rw [Nat.add_zero, Nat.add_comm] at hrest
    exact (ha.turns hhi hx).append hrest

def Part.isDefined : Part → Bool
  | .one s => s.isDefined
  | .many _ ss => stmtsDefined ss

theorem Link.safe_jump {h : Nat} (hhi : hi < 2 ^ 63) (hlo : lo < addr)
    (haddr : addr < hi)
    (hcode : L.Holds addr [{ op := .jump, operand := Int64.ofNat target }])
    (hsafe : L.Safe lo hi n target h) : L.Safe lo hi n addr h := by
  cases n with
  | zero => trivial
  | succ n =>
    have htarget : (Int64.ofNat target).toInt.toNat = target := by
      rw [Int64.toInt_ofNat_of_lt (Nat.lt_trans hsafe.1.2 hhi),
        Int.toNat_natCast]
    refine ⟨⟨hlo, haddr⟩, _, (Link.holds_cons.mp hcode).1, Nat.zero_le _,
      fun q hq => ?_⟩
    rcases List.mem_singleton.mp hq with rfl
    simp only [htarget]
    exact hsafe.pred

theorem Link.safe_jumpZero {h : Nat} (hhi : hi < 2 ^ 63) (hlo : lo < addr)
    (haddr : addr < hi)
    (hcode : L.Holds addr [{ op := .jumpZero, operand := Int64.ofNat target }])
    (htarget : L.Safe lo hi n target h) (hnext : L.Safe lo hi n (addr + 1) h) :
    L.Safe lo hi (n + 1) addr (h + 1) := by
  refine ⟨⟨hlo, haddr⟩, _, (Link.holds_cons.mp hcode).1, Nat.le_add_left _ _,
    fun q hq => ?_⟩
  cases n with
  | zero => trivial
  | succ n =>
    have heq : (Int64.ofNat target).toInt.toNat = target := by
      rw [Int64.toInt_ofNat_of_lt (Nat.lt_trans htarget.1.2 hhi),
        Int.toNat_natCast]
    rcases List.mem_cons.mp hq with rfl | hq
    · simp only [heq]
      exact htarget
    · rcases List.mem_singleton.mp hq with rfl
      exact hnext

/-- A condition with its jump. -/
theorem Link.safe_test {x : Expr} {c : Term} (hhi : hi < 2 ^ 63)
    (hc : Resolves vars L.signatures (.one x c)) (hdef : x.isDefined = true)
    (hcode : L.Holds addr (testCode L c target)) (hlo : lo < addr)
    (hle : addr + (testCode L c target).length ≤ hi)
    (htarget : L.Safe lo hi n target 0)
    (hnext : L.Safe lo hi n (addr + (testCode L c target).length) 0) :
    L.Safe lo hi (n + 1) addr 0 := by
  obtain ⟨hterm, hjump⟩ := Link.holds_append.mp hcode
  simp only [testCode, List.length_append, List.length_singleton] at hle hnext
  rw [← Nat.add_assoc] at hnext
  refine hc.turns hhi hdef (n + 1) addr 0 hterm hlo (by omega) ?_
  exact Link.safe_jumpZero hhi (by omega) (by omega) hjump htarget hnext

theorem Link.safe_ret (hlo : lo < addr) (haddr : addr < hi)
    (hcode : L.Holds addr [{ op := .ret }]) : L.Safe lo hi n addr 1 := by
  cases n with
  | zero => trivial
  | succ n =>
    refine ⟨⟨hlo, haddr⟩, _, (Link.holds_cons.mp hcode).1, rfl, fun q hq => ?_⟩
    cases hq

theorem turns_convertedCode {x : Expr} {a : Term} (hhi : hi < 2 ^ 63)
    (ha : Resolves vars L.signatures (.one x a)) (hdef : x.isDefined = true)
    (ty : Ty) : L.Turns lo hi (convertedCode L ty a) 0 1 :=
  ((ha.turns hhi) hdef).append (Link.turns_convertCode _ _)

theorem Link.safe_returnZero (hlo : lo < addr) (haddr : addr + 2 ≤ hi)
    (hcode : L.Holds addr Emitter.returnZero) : L.Safe lo hi n addr 0 := by
  obtain ⟨hpush, hret⟩ := Link.holds_returnZero hcode
  have hturns : L.Turns lo hi [{ op := .push }] 0 1 := Link.turns_plain rfl
  exact hturns n addr 0 hpush hlo (by simp; omega)
    (Link.safe_ret (by omega) (by simp; omega) hret)

/-- A part is safe from its start with an empty stack, if its end is safe
whenever control can get there and the places where the loops around it continue
and end are. -/
def Part.Safe (L : Link) (lo hi : Nat) (part : Part) (s : Scope)
    (start stop : Nat) (ends : Bool) : Prop :=
  ∀ {n : Nat}, part.isDefined = true → lo < start → stop ≤ hi →
    (ends = false → L.Safe lo hi n stop 0) →
    (∀ l ∈ s.loops, L.Safe lo hi n l.breakTo 0 ∧
      L.Safe lo hi n l.continueTo 0) →
    part ≠ .many true [] → L.Safe lo hi n start 0

section

variable {ret : Ty} {part : Part} {s s' : Scope} {start stop : Nat}
  {ends : Bool} (hhi : hi < 2 ^ 63)

include hhi

theorem Part.safe_ifElse {cond : Expr} {body orElse : Stmt}
    {inner other : Scope} {c : Term} {mid between : Nat} {otherEnds : Bool}
    (hcond : Resolves s.find? L.signatures (.one cond c))
    (hcode : L.Holds start (testCode L c between))
    (hbody : Laid L ret (.one body) s.enter
      (start + (testCode L c between).length) inner mid ends)
    (hbetween : between = if ends then mid else mid + 1)
    (hjump : ends = false →
      L.Holds mid [{ op := .jump, operand := Int64.ofNat stop }])
    (helse : Laid L ret (.one orElse) (s.resume inner).enter between other stop
      otherEnds)
    (ihBody : Safe L lo hi (.one body) s.enter
      (start + (testCode L c between).length) mid ends)
    (ihElse : Safe L lo hi (.one orElse) (s.resume inner).enter between stop
      otherEnds) :
    Safe L lo hi (.one (.ifElse cond body orElse)) s start stop
      (ends && otherEnds) := by
  intro n hdef hlo hle hend hloops _
  obtain ⟨hdef, helseDef⟩ := Bool.and_eq_true_iff.mp hdef
  obtain ⟨hcondDef, hbodyDef⟩ := Bool.and_eq_true_iff.mp hdef
  have hbodyLe := hbody.le
  have helseLe := helse.le
  have hmid : mid ≤ between := by rw [hbetween]; split <;> omega
  cases n with
  | zero => trivial
  | succ n =>
    have hloops' (l : Loop) (hl : l ∈ s.loops) : L.Safe lo hi n l.breakTo 0 ∧
        L.Safe lo hi n l.continueTo 0 :=
      ⟨(hloops l hl).1.pred, (hloops l hl).2.pred⟩
    have helseSafe : L.Safe lo hi n between 0 := by
      refine ihElse helseDef (by omega) hle (fun hends => (hend ?_).pred)
        hloops' (by simp)
      rw [hends, Bool.and_false]
    refine Link.safe_test hhi hcond hcondDef hcode hlo (by omega) helseSafe ?_
    refine ihBody hbodyDef (by omega) (by omega) (fun hends => ?_)
      hloops' (by simp)
    rw [hbetween, hends] at helseLe
    have hstop := (hend (by rw [hends, Bool.false_and])).pred
    exact Link.safe_jump hhi (by omega) (Nat.lt_of_lt_of_le helseLe hle)
      (hjump hends) hstop

theorem Part.safe_whileDo {cond : Expr} {body : Stmt} {inner : Scope} {c : Term}
    {mid : Nat} (hcond : Resolves s.find? L.signatures (.one cond c))
    (hcode : L.Holds start (testCode L c (mid + 1)))
    (hbody : Laid L ret (.one body)
      (s.enterLoop { breakTo := mid + 1, continueTo := start }).enter
      (start + (testCode L c (mid + 1)).length) inner mid ends)
    (hjump : L.Holds mid [{ op := .jump, operand := Int64.ofNat start }])
    (ih : Safe L lo hi (.one body)
      (s.enterLoop { breakTo := mid + 1, continueTo := start }).enter
      (start + (testCode L c (mid + 1)).length) mid ends) :
    Safe L lo hi (.one (.whileDo cond body)) s start (mid + 1) false := by
  intro n hdef hlo hle hend hloops _
  obtain ⟨hcondDef, hbodyDef⟩ := Bool.and_eq_true_iff.mp hdef
  have hbodyLe := hbody.le
  -- The loop comes back to its start with fewer steps left.
  suffices hstart : ∀ k ≤ n, L.Safe lo hi k start 0
    from hstart n (Nat.le_refl n)
  intro k hk
  induction k with
  | zero => trivial
  | succ k ihk =>
    have hagain := ihk (by omega)
    have hstop := (hend rfl).mono (show k ≤ n by omega)
    refine Link.safe_test hhi hcond hcondDef hcode hlo (by omega) hstop ?_
    refine ih hbodyDef (by omega) (by omega) (fun _ => ?_) (fun l hl => ?_)
      (by simp)
    · exact Link.safe_jump hhi (by omega) (by omega) hjump hagain
    · rcases List.mem_cons.mp hl with rfl | hl
      · exact ⟨hstop, hagain⟩
      · exact ⟨(hloops l hl).1.mono (by omega),
          (hloops l hl).2.mono (by omega)⟩

theorem Laid.safe (h : Laid L ret part s start s' stop ends) :
    part.Safe L lo hi s start stop ends := by
  intro n hdef hlo hle hend hloops hpart
  induction h generalizing n with
  | block _ ih =>
    exact ih hdef hlo hle hend hloops (by simp)
  | decl => exact hend rfl
  | init _ _ hvalue _ _ his hcode | assignVar _ hvalue _ his hcode =>
    refine Link.Turns.safe (his ▸ ?_) hcode hlo hle (hend rfl)
    exact (turns_convertedCode hhi hvalue hdef _).append (Link.turns_plain rfl)
  | @assignCell x value s p a ty start is hx _ hvalue _ his hcode =>
    obtain ⟨hxDef, hvalueDef⟩ := Bool.and_eq_true_iff.mp hdef
    refine Link.Turns.safe (his ▸ ?_) hcode hlo hle (hend rfl)
    have hconverted : L.Turns lo hi (convertedCode L ty a) 0 1 :=
      turns_convertedCode hhi hvalue hvalueDef ty
    exact (hx.turns hhi hxDef).append
      ((hconverted.above 1).append (Link.turns_plain rfl))
  | retNone _ hcode => exact Link.safe_returnZero hlo hle hcode
  | retSome _ hvalue _ his hcode =>
    subst his
    obtain ⟨hcode, hret⟩ := Link.holds_append.mp hcode
    simp only [List.length_append, List.length_singleton] at hle
    refine (turns_convertedCode hhi hvalue hdef _).safe hcode hlo (by omega) ?_
    exact Link.safe_ret (by omega) (by omega) hret
  | expr hx his hcode =>
    refine Link.Turns.safe (his ▸ ?_) hcode hlo hle (hend rfl)
    exact (hx.turns hhi hdef).append (Link.turns_plain rfl)
  | ifThen hcond _ hcode hbody ih =>
    obtain ⟨hcondDef, hbodyDef⟩ := Bool.and_eq_true_iff.mp hdef
    have hbodyLe := hbody.le
    cases n with
    | zero => trivial
    | succ n =>
      have hstop := (hend rfl).pred
      refine Link.safe_test hhi hcond hcondDef hcode hlo (by omega) hstop ?_
      exact ih hbodyDef (by omega) hle (fun _ => hstop)
        (fun l hl => ⟨(hloops l hl).1.pred, (hloops l hl).2.pred⟩) (by simp)
  | ifElse hcond _ hcode hbody hbetween hjump helse ihBody ihElse =>
    exact Part.safe_ifElse hhi hcond hcode hbody hbetween hjump helse ihBody
      ihElse hdef hlo hle hend hloops hpart
  | whileDo hcond _ hcode hbody hjump ih =>
    exact Part.safe_whileDo hhi hcond hcode hbody hjump ih hdef hlo hle hend
      hloops hpart
  | breakLoop htarget hcode =>
    obtain ⟨l, rest, hrest, rfl⟩ := Scope.loop_of_breakTarget htarget
    exact Link.safe_jump hhi hlo hle hcode (hloops l (by simp [hrest])).1
  | continueLoop htarget hcode =>
    obtain ⟨l, rest, hrest, rfl⟩ := Scope.loop_of_continueTarget htarget
    exact Link.safe_jump hhi hlo hle hcode (hloops l (by simp [hrest])).2
  | @printf format args s a as start is hformat _ _ hargs his hcode =>
    obtain ⟨hformatDef, hargsDef⟩ := Bool.and_eq_true_iff.mp hdef
    refine Link.Turns.safe (his ▸ ?_) hcode hlo hle (hend rfl)
    refine Link.turns_of_length hhi fun hshort => ?_
    have hcount := hargs.length_le L
    simp only [List.length_append] at hshort
    have hvalues : L.Turns lo hi (termsCode L as) (1 + 0) (1 + args.length) :=
      (hargs.turns hhi hargsDef).above 1
    rw [Nat.add_comm 1 args.length] at hvalues
    have hprint : args.length + 1 < 2 ^ 63 := by
      have := a.code_length_pos L
      omega
    exact (hformat.turns hhi hformatDef).append
      (hvalues.append (Link.turns_printf hprint))
  | nil =>
    exact hend (by simpa using hpart)
  | @cons stmt ss s s' s'' start mid stop before ends after hfirst hrest ihFirst
      ihRest =>
    obtain ⟨hfirstDef, hrestDef⟩ := Bool.and_eq_true_iff.mp hdef
    have hfirstLe := hfirst.le
    have hrestLe := hrest.le
    cases ss with
    | nil =>
      cases hrest
      exact ihFirst hfirstDef hlo hle hend hloops (by simp)
    | cons t ts =>
      have hmid :=
        ihRest hrestDef (by omega) hle hend (by rw [hfirst.loops]; exact hloops)
          (by simp)
      exact ihFirst hfirstDef hlo (by omega) (fun _ => hmid) hloops (by simp)

end

end

/-- The code of a function whose operators are all defined. -/
theorem LaidFunction.steady {L : Link} {f : Function} {start stop : Nat}
    (h : LaidFunction L f start stop) (hdef : f.isDefined = true)
    (hsize : L.code.size < 2 ^ 63) : L.Steady start stop (start + 1) 0 := by
  have hshape := h.shape
  cases h with
  | @intro params last mid _ ends hparams hentry hreserve hbody hreturn hstop =>
    intro n
    have hhi : stop < 2 ^ 63 := Nat.lt_of_le_of_lt hshape.le hsize
    have hloops : params.loops = [] := by rw [paramScope_eq hparams]
    have hmid : mid ≤ stop := by rw [hstop]; split <;> omega
    have hbodyLe := hbody.le
    refine hbody.safe hhi hdef (Nat.lt_succ_self start) hmid (fun hends => ?_)
      (by simp [hloops]) (by simp)
    rw [hends] at hstop
    exact Link.safe_returnZero (by omega) (Nat.le_of_eq hstop.symm)
      (hreturn hends)

end StackC
