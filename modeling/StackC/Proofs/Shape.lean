import StackC.Proofs.Locals

/-!
The shape of generated code. Every instruction in the code of a function names
variables of that function only, jumps stay inside the code of the function, and
calls go to declared functions with as many arguments as they have parameters.
Instructions that take no operand have operand 0. The code of a function starts
with the only instruction that reserves local cells and ends with a return.
-/

namespace StackC

/-! ### Rules for single instructions -/

/-- A number by which instructions of a function may name a variable. -/
def IsSlot (params cells : Nat) (c : Cell) : Prop :=
  (∃ k, 1 ≤ k ∧ k ≤ params ∧ c = -Int64.ofNat k) ∨
    ∃ k, 1 ≤ k ∧ k ≤ cells ∧ c = Int64.ofNat k

theorem LocalVar.Within.isSlot {v : LocalVar} {params cells : Nat}
    (h : v.Within params cells) : IsSlot params cells v.operand := by
  obtain ⟨k, hpos, hk, hslot⟩ := h
  simp only [LocalVar.operand]
  split at hk
  next hparam => exact Or.inl ⟨k, hpos, hk, by rw [if_pos hparam, hslot]⟩
  next hparam => exact Or.inr ⟨k, hpos, hk, by rw [if_neg hparam, hslot]⟩

/-- What holds of the instruction at an address in the body of a function with
the given numbers of parameters and local cells, when `inside` tells where jumps
may go. -/
def Instr.Shaped (L : Link) (params cells : Nat) (inside : Nat → Prop)
    (addr : Nat) (i : Instr) : Prop :=
  match i.op with
  | .jump | .jumpZero =>
    ∃ target, inside target ∧ i.operand = Int64.ofNat target
  | .loadLocal | .storeLocal | .addrLocal => IsSlot params cells i.operand
  | .call =>
    ∃ f ∈ L.signatures, i.operand = L.entry f.name ∧ ∃ before,
      addr = before + 1 ∧
      L.code[before]? =
      some { op := .frame, operand := Int64.ofNat f.params.length }
  | .signExtend | .zeroExtend => 1 ≤ i.operand.toInt ∧ i.operand.toInt ≤ 8
  | .ret | .pop | .load | .store | .arith _ => i.operand = 0
  | .entry | .illegal .. => False
  | _ => True

variable {addr k : Nat} {i : Instr} {p : Program}

theorem Instr.Shaped.operand_eq_zero {L : Link} {params cells : Nat}
    {inside : Nat → Prop} (h : i.Shaped L params cells inside addr)
    (hop : i.op.hasOperand = false) : i.operand = 0 := by
  rw [Instr.Shaped] at h
  cases heq : i.op with
  | ret | pop | load | store | arith _ =>
    rw [heq] at h
    exact h
  | illegal _ _ =>
    rw [heq] at h
    exact h.elim
  | _ =>
    rw [heq] at hop
    cases hop

/-- All instructions from `start` up to `stop` are as they should be. -/
def Link.Shaped (L : Link) (params cells : Nat) (inside : Nat → Prop)
    (start stop : Nat) : Prop :=
  ∀ addr, start ≤ addr → addr < stop →
    ∃ i, L.code[addr]? = some i ∧ i.Shaped L params cells inside addr

section

variable {L : Link} {params cells : Nat} {inside : Nat → Prop}

variable {i : Instr} {l r : Ty} {vars : Name → Option LocalVar}

namespace Link

theorem shaped_self (addr : Nat) : L.Shaped params cells inside addr addr := by
  intro k hle hlt
  omega

theorem Shaped.append {start mid stop : Nat}
    (hfirst : L.Shaped params cells inside start mid)
    (hrest : L.Shaped params cells inside mid stop) :
    L.Shaped params cells inside start stop := by
  intro addr hle hlt
  by_cases h : addr < mid
  · exact hfirst addr hle h
  · exact hrest addr (by omega) hlt

theorem shaped_one (hcode : L.code[addr]? = some i)
    (hi : i.Shaped L params cells inside addr) :
    L.Shaped params cells inside addr (addr + 1) := by
  intro k hle hlt
  have : k = addr := by omega
  subst this
  exact ⟨i, hcode, hi⟩

/-- Wherever the given instructions stand, they are as they should be. -/
def ShapedCode (L : Link) (params cells : Nat) (inside : Nat → Prop)
    (is : List Instr) : Prop :=
  ∀ addr, L.Holds addr is → L.Shaped params cells inside addr (addr + is.length)

theorem shaped_of_code {is : List Instr} (hcode : L.Holds addr is)
    (his : L.ShapedCode params cells inside is) :
    L.Shaped params cells inside addr (addr + is.length) :=
  his addr hcode

theorem ShapedCode.append {is js : List Instr}
    (hfirst : L.ShapedCode params cells inside is)
    (hrest : L.ShapedCode params cells inside js) :
    L.ShapedCode params cells inside (is ++ js) := by
  intro addr hcode
  obtain ⟨his, hjs⟩ := holds_append.mp hcode
  rw [List.length_append, ← Nat.add_assoc]
  exact (hfirst addr his).append (hrest _ hjs)

theorem shapedCode_nil : L.ShapedCode params cells inside [] :=
  fun addr _ => shaped_self addr

theorem shapedCode_singleton (h : ∀ addr, i.Shaped L params cells inside addr) :
    L.ShapedCode params cells inside [i] :=
  fun addr hcode => shaped_one (holds_cons.mp hcode).1 (h addr)

theorem shapedCode_of_forall {is : List Instr}
    (h : ∀ i ∈ is, ∀ addr, i.Shaped L params cells inside addr) :
    L.ShapedCode params cells inside is := by
  induction is with
  | nil => exact shapedCode_nil
  | cons i is ih =>
    have hrest := ih fun j hj => h j (List.mem_cons_of_mem i hj)
    exact (shapedCode_singleton (h i List.mem_cons_self)).append hrest

end Link

/-! ### Terms -/

theorem Ty.size_of_isInteger {ty : Ty} (h : ty.isInteger = true) :
    1 ≤ ty.size.toInt ∧ ty.size.toInt ≤ 8 := by
  cases ty with
  | base b unsigned =>
    have hsize : b ≠ .void → 1 ≤ b.size.toInt ∧ b.size.toInt ≤ 8 := by cases b
      <;> decide
    exact hsize fun hvoid => by simp [hvoid, isInteger] at h
  | pointer elem | array elem len => cases h

theorem Ty.isInteger_common (hl : l.isInteger = true)
    (hr : r.isInteger = true) : (common l r).isInteger = true := by
  cases l with
  | base b u =>
    cases r with
    | base c v => cases b <;> cases c <;> cases v <;> rfl
    | pointer | array => cases hr
  | pointer | array => cases hl

theorem shaped_convertCode {target source : Ty}
    (h : i ∈ convertCode target source) (addr : Nat) :
    i.Shaped L params cells inside addr := by
  simp only [convertCode] at h
  split at h
  next => cases h
  next hneeded =>
    have hwidth : 1 ≤ target.size.toInt ∧ target.size.toInt ≤ 8 :=
      Ty.size_of_isInteger (by simp_all)
    rcases List.mem_singleton.mp h with rfl
    cases htarget : target.isUnsigned <;> exact hwidth

theorem shaped_scaleCode {c : Cell} (h : i ∈ scaleCode c) (addr : Nat) :
    i.Shaped L params cells inside addr := by
  simp only [scaleCode] at h
  split at h
  next => cases h
  next =>
    simp only [List.mem_cons, List.not_mem_nil, or_false] at h
    rcases h with rfl | rfl <;> trivial

theorem scaleRightCode_eq (op : Operator) (l r : Ty) :
    scaleRightCode op l r = scaleLeftCode op r l := rfl

theorem shaped_scaleLeftCode {op : Operator} (h : i ∈ scaleLeftCode op l r)
    (addr : Nat) : i.Shaped L params cells inside addr := by
  simp only [scaleLeftCode] at h
  split at h
  · split at h
    · exact shaped_scaleCode h addr
    · cases h
  · split at h
    · exact shaped_scaleCode h addr
    · cases h
  · cases h

theorem shaped_scaleRightCode {op : Operator} (h : i ∈ scaleRightCode op l r)
    (addr : Nat) : i.Shaped L params cells inside addr :=
  shaped_scaleLeftCode (scaleRightCode_eq op l r ▸ h) addr

theorem shaped_opcode (op : Operator) (addr : Nat) :
    ({ op := op.opcode } : Instr).Shaped L params cells inside addr := by
  cases op <;> trivial

theorem shaped_unsignedOpcode (op : Operator) (addr : Nat) :
    ({ op := op.unsignedOpcode } : Instr).Shaped L params cells
      inside addr := by
  cases op <;> trivial

/-- An integer operator is one instruction, perhaps with one more that wraps the
result around. -/
theorem integerCode_subset (op : Operator) (c : Ty) :
    integerCode op c ⊆
      [{ op := if c.isUnsigned then op.unsignedOpcode else op.opcode },
        { op := .zeroExtend, operand := c.size }] := by
  cases op with
  | add | sub | mul =>
    simp only [integerCode]
    split <;> simp
  | div | mod | eq | ne | lt | le | gt | ge | other => simp [integerCode]

theorem shaped_integerCode {op : Operator} {c : Ty} (hc : c.isInteger = true)
    (h : i ∈ integerCode op c) (addr : Nat) :
    i.Shaped L params cells inside addr := by
  have hi := integerCode_subset op c h
  simp only [List.mem_cons, List.not_mem_nil, or_false] at hi
  rcases hi with rfl | rfl
  · cases c.isUnsigned
    · exact shaped_opcode op addr
    · exact shaped_unsignedOpcode op addr
  · exact Ty.size_of_isInteger hc

/-- An operator on pointers is one instruction, perhaps followed by a
division. -/
theorem pointerCode_subset (op : Operator) (l r : Ty) :
    ∃ c, pointerCode op l r ⊆ [{ op := op.opcode },
      { op := .push, operand := c }, { op := .arith .div }] := by
  simp only [pointerCode]
  split
  next elem =>
    refine ⟨elem.cells, ?_⟩
    split <;> simp
  next => exact ⟨0, by simp⟩

theorem shaped_pointerCode {op : Operator} (h : i ∈ pointerCode op l r)
    (addr : Nat) : i.Shaped L params cells inside addr := by
  obtain ⟨c, hsubset⟩ := pointerCode_subset op l r
  have hi := hsubset h
  simp only [List.mem_cons, List.not_mem_nil, or_false] at hi
  rcases hi with rfl | rfl | rfl
  · exact shaped_opcode op addr
  · trivial
  · trivial

/-- The instructions of a term, when the variables in it are those of the
function. -/
theorem Resolves.shapedCode (hvars : ∀ name v, vars name = some v →
    v.Within params cells) {phrase : Phrase}
    (h : Resolves vars L.signatures phrase) :
    match phrase with
    | .one _ a => L.ShapedCode params cells inside (a.code L)
    | .args ps _ as => L.ShapedCode params cells inside (argsCode L ps as) := by
  induction h with
  | int | str => exact Link.shapedCode_singleton fun _ => trivial
  | @var name v hv =>
    refine Link.shapedCode_singleton fun _ => ?_
    cases v.ty.isArray <;> exact (hvars name v hv).isSlot
  | addrVar hv => exact Link.shapedCode_singleton fun _ => (hvars _ _ hv).isSlot
  | @binary op left right l r ty _ _ _ hl hr =>
    simp only [Term.code]
    split
    next hints =>
      obtain ⟨hlInt, hrInt⟩ := Bool.and_eq_true_iff.mp hints
      have hcommon := Ty.isInteger_common hlInt hrInt
      exact (hl.append (Link.shapedCode_of_forall fun _ hi =>
        shaped_convertCode hi)).append
        ((hr.append (Link.shapedCode_of_forall fun _ hi =>
          shaped_convertCode hi)).append (Link.shapedCode_of_forall fun _ hi =>
          shaped_integerCode hcommon hi))
    next =>
      exact (hl.append (Link.shapedCode_of_forall fun _ hi =>
        shaped_scaleLeftCode hi)).append
        ((hr.append (Link.shapedCode_of_forall fun _ hi =>
          shaped_scaleRightCode hi)).append
          (Link.shapedCode_of_forall fun _ hi => shaped_pointerCode hi))
  | @call name args f as hname hf _ hargs =>
    refine hargs.append fun addr hcode => ?_
    obtain ⟨hframe, hcall⟩ := Link.holds_cons.mp hcode
    have hmem : f.erase ∈ L.signatures := List.mem_of_find?_eq_some hf
    refine (Link.shaped_one hframe trivial).append
      (Link.shaped_one (Link.holds_cons.mp hcall).1 ?_)
    exact ⟨f.erase, hmem, rfl, addr, rfl, hframe⟩
  | addrDeref _ _ hp => exact hp
  | deref _ _ hp =>
    simp only [Term.code]
    split
    next => exact hp
    next => exact hp.append (Link.shapedCode_singleton fun _ => rfl)
  | nil => exact Link.shapedCode_nil
  | cons _ _ _ ha has =>
    exact (ha.append (Link.shapedCode_of_forall fun _ hi =>
      shaped_convertCode hi)).append has

theorem Printed.shapedCode {vars : Name → Option LocalVar}
    (hvars : ∀ name v, vars name = some v → v.Within params cells)
    {xs : List Expr} {as : List Term} (h : Printed vars L.signatures xs as) :
    L.ShapedCode params cells inside (termsCode L as) := by
  induction h with
  | nil => exact Link.shapedCode_nil
  | cons ha _ _ ih => exact (ha.shapedCode hvars).append ih

/-! ### Statements -/

variable {ret : Ty} {part : Part} {s s' : Scope} {start stop : Nat}
  {ends : Bool}

theorem Laid.le (h : Laid L ret part s start s' stop ends) : start ≤ stop := by
  induction h with
  | block _ ih => exact ih
  | decl | nil => exact Nat.le_refl _
  | init | assignVar | assignCell | retNone | retSome | expr | breakLoop
  | continueLoop | printf =>
    exact Nat.le_add_right _ _
  | ifThen _ _ _ _ ih => exact Nat.le_trans (Nat.le_add_right _ _) ih
  | @ifElse _ _ _ _ _ _ _ _ mid between _ ends _ _ _ _ _ hbetween _ _ ihBody
      ihElse =>
    have : mid ≤ between := by rw [hbetween]; split <;> omega
    omega
  | whileDo _ _ _ _ _ ih => omega
  | cons _ _ ihFirst ihRest => exact Nat.le_trans ihFirst ihRest

/-- The scope after a part has the same loops around it. -/
theorem Laid.loops (h : Laid L ret part s start s' stop ends) :
    s'.loops = s.loops := by
  induction h with
  | decl _ hadd | init _ hadd => exact Emitter.loops_addLocal hadd
  | cons _ _ ihFirst ihRest => exact ihRest.trans ihFirst
  | _ => rfl

/-- Where control cannot reach the end of a part, the part has code, and its
last instruction is a return unless there are loops around it. -/
theorem Laid.last_of_ends (h : Laid L ret part s start s' stop ends)
    (hends : ends = true) :
    match part with
    | .one _ =>
      start < stop ∧ (s.loops = [] → L.code[stop - 1]? = some { op := .ret })
    | .many before ss => before = false ∨ ss ≠ [] →
      start < stop ∧
        (s.loops = [] → L.code[stop - 1]? = some { op := .ret }) := by
  induction h with
  | block _ ih => exact ih hends (Or.inl rfl)
  | decl | init | assignVar | assignCell | expr | ifThen | whileDo
  | printf => cases hends
  | retNone _ hcode =>
    obtain ⟨-, hret⟩ := Link.holds_cons.mp hcode
    exact ⟨by omega, fun _ => (Link.holds_cons.mp hret).1⟩
  | retSome _ _ _ his hcode =>
    obtain ⟨-, hret⟩ := Link.holds_append.mp (his ▸ hcode)
    subst his
    refine ⟨by simp, fun _ => ?_⟩
    have := (Link.holds_cons.mp hret).1
    simpa using this
  | breakLoop htarget | continueLoop htarget =>
    refine ⟨by omega, fun hloops => ?_⟩
    simp [Scope.breakTarget, Scope.continueTarget, hloops] at htarget
  | ifElse _ _ _ hbody hbetween _ _ _ ihElse =>
    obtain ⟨hbodyEnds, helseEnds⟩ := Bool.and_eq_true_iff.mp hends
    obtain ⟨hlt, hlast⟩ := ihElse helseEnds
    rw [if_pos hbodyEnds] at hbetween
    have := hbody.le
    exact ⟨by omega, hlast⟩
  | nil =>
    rintro (hbefore | hss)
    · rw [hends] at hbefore
      cases hbefore
    · exact absurd rfl hss
  | @cons stmt ss s s' s'' start mid stop before ends after hfirst hrest ihFirst
      ihRest =>
    intro _
    cases ss with
    | nil =>
      cases hrest
      exact ihFirst hends
    | cons t ts =>
      obtain ⟨hlt, hlast⟩ := ihRest hends (Or.inr (by simp))
      have := hfirst.le
      exact ⟨by omega, fun hloops => hlast (hfirst.loops.trans hloops)⟩

theorem Scope.Numbered.within_of_find? {handed : Nat}
    (hs : s.Numbered params handed) (hle : handed ≤ cells) (name : Name)
    (v : LocalVar) (hv : s.find? name = some v) : v.Within params cells :=
  (hs.within v (Scope.mem_visible_of_find? hv)).mono hle

theorem Scope.Numbered.vars_within {handed more : Nat}
    (hs : s.Numbered params handed) (hcells : handed + more ≤ cells) :
    ∀ name v, s.find? name = some v → v.Within params cells :=
  hs.within_of_find? (Nat.le_trans (Nat.le_add_right _ _) hcells)

/-- The code of a condition with its jump. -/
theorem shapedCode_testCode {x : Expr} {c : Term} {target : Nat}
    (hvars : ∀ name v, vars name = some v → v.Within params cells)
    (hc : Resolves vars L.signatures (.one x c)) (htarget : inside target) :
    L.ShapedCode params cells inside (testCode L c target) :=
  (hc.shapedCode hvars).append (Link.shapedCode_singleton fun _ =>
    ⟨target, htarget, rfl⟩)

theorem shapedCode_convertedCode {x : Expr} {a : Term} {ty : Ty}
    (hvars : ∀ name v, vars name = some v → v.Within params cells)
    (ha : Resolves vars L.signatures (.one x a)) :
    L.ShapedCode params cells inside (convertedCode L ty a) :=
  (ha.shapedCode hvars).append (Link.shapedCode_of_forall fun _ hi =>
    shaped_convertCode hi)

theorem shapedCode_returnZero :
    L.ShapedCode params cells inside Emitter.returnZero :=
  Link.shapedCode_of_forall fun i hi addr => by
    simp only [Emitter.returnZero, List.mem_cons, List.not_mem_nil,
      or_false] at hi
    rcases hi with rfl | rfl <;> trivial

/-- Jumps may go to the start of a part: it has code, or control can reach its
end. -/
theorem Laid.inside_start (h : Laid L ret part s start s' stop ends)
    (hpart : ∀ before ss, part = .many before ss → before = false)
    (hinside : ∀ t, start ≤ t → t < stop → inside t)
    (hstop : ends = false → inside stop) : inside start := by
  have hle := h.le
  cases hends : ends with
  | true =>
    have hlt : start < stop := by
      have hlast := h.last_of_ends hends
      cases part with
      | one s => exact hlast.1
      | many before ss => exact (hlast (Or.inl (hpart before ss rfl))).1
    exact hinside start (Nat.le_refl _) hlt
  | false =>
    by_cases hlt : start < stop
    · exact hinside start (Nat.le_refl _) hlt
    · have heq : start = stop := by omega
      exact heq ▸ hstop hends

/-- The instructions of a part have their shape when jumps may go to all its
addresses, to its end if control can get there, and to where the loops around it
continue and end. -/
def Part.Shaped (L : Link) (params cells : Nat) (inside : Nat → Prop)
    (part : Part) (s : Scope) (start stop : Nat) (ends : Bool) : Prop :=
  ∀ {handed : Nat}, s.Numbered params handed → handed + part.cells ≤ cells →
    (∀ t, start ≤ t → t < stop → inside t) → (ends = false → inside stop) →
    (∀ l ∈ s.loops, inside l.breakTo ∧ inside l.continueTo) →
    L.Shaped params cells inside start stop

theorem Part.shaped_ifElse {cond : Expr} {body orElse : Stmt}
    {inner other : Scope} {c : Term} {mid between : Nat} {otherEnds : Bool}
    (hcond : Resolves s.find? L.signatures (.one cond c))
    (hcode : L.Holds start (testCode L c between))
    (hbody : Laid L ret (.one body) s.enter
      (start + (testCode L c between).length) inner mid ends)
    (hbetween : between = if ends then mid else mid + 1)
    (hjump : ends = false →
      L.Holds mid [{ op := .jump, operand := Int64.ofNat stop }])
    (helse : Laid L ret (.one orElse) (s.resume inner).enter between other stop
      otherEnds)
    (ihBody : Shaped L params cells inside (.one body) s.enter
      (start + (testCode L c between).length) mid ends)
    (ihElse : Shaped L params cells inside (.one orElse) (s.resume inner).enter
      between stop otherEnds) :
    Shaped L params cells inside (.one (.ifElse cond body orElse)) s start stop
      (ends && otherEnds) := by
  intro handed hs hcells hinside hstop hloops
  have hvars := hs.vars_within hcells
  have hbodyLe := hbody.le
  have helseLe := helse.le
  have hmid : mid ≤ between := by rw [hbetween]; split <;> omega
  have hend : otherEnds = false ∨ ends = false → inside stop := by
    rintro (h | h) <;> exact hstop (by simp [h])
  have helseInside : ∀ t, between ≤ t → t < stop → inside t :=
    fun t hle hlt => hinside t (by omega) hlt
  have hother : inside between :=
    helse.inside_start nofun helseInside fun h => hend (Or.inl h)
  have hcellsEq : handed + (body.cells + orElse.cells) ≤ cells := hcells
  have hbodyShaped :=
    ihBody ⟨hs.count, hs.within⟩ (show handed + body.cells ≤ cells by omega)
    (fun t hle hlt => hinside t (by omega) (by omega))
    (fun hends =>
      hinside mid (by omega)
      (by rw [hbetween, hends] at helseLe; simp at helseLe; omega)) hloops
  have hs' :=
    hs.resume (hbody.numbered ⟨hs.count, hs.within⟩) (Nat.le_add_right _ _)
  have helseShaped :=
    ihElse ⟨hs'.count, hs'.within⟩ (show handed + body.cells + orElse.cells ≤
      cells by omega) helseInside (fun h => hend (Or.inl h)) hloops
  have hover : L.Shaped params cells inside mid between := by
    rw [hbetween]
    cases hends : ends with
    | true => exact Link.shaped_self mid
    | false =>
      refine Link.shaped_of_code (hjump hends)
        (Link.shapedCode_singleton fun _ => ?_)
      exact ⟨stop, hend (Or.inr hends), rfl⟩
  exact (Link.shaped_of_code hcode
    (shapedCode_testCode hvars hcond hother)).append
    (hbodyShaped.append (hover.append helseShaped))

theorem Part.shaped_whileDo {cond : Expr} {body : Stmt} {inner : Scope}
    {c : Term} {mid : Nat}
    (hcond : Resolves s.find? L.signatures (.one cond c))
    (hcode : L.Holds start (testCode L c (mid + 1)))
    (hbody : Laid L ret (.one body)
      (s.enterLoop { breakTo := mid + 1, continueTo := start }).enter
      (start + (testCode L c (mid + 1)).length) inner mid ends)
    (hjump : L.Holds mid [{ op := .jump, operand := Int64.ofNat start }])
    (ih : Shaped L params cells inside (.one body)
      (s.enterLoop { breakTo := mid + 1, continueTo := start }).enter
      (start + (testCode L c (mid + 1)).length) mid ends) :
    Shaped L params cells inside (.one (.whileDo cond body)) s start (mid + 1)
      false := by
  intro handed hs hcells hinside hstop hloops
  have hvars := hs.vars_within hcells
  have hbodyLe := hbody.le
  have hstart : inside _ := hinside _ (Nat.le_refl _) (by omega)
  have hend := hstop rfl
  have hbodyShaped :=
    ih ⟨hs.count, hs.within⟩ hcells
      (fun t hle hlt => hinside t (by omega) (by omega))
      (fun _ => hinside _ (by omega) (by omega)) fun l hl => by
      rcases List.mem_cons.mp hl with rfl | hl
      · exact ⟨hend, hstart⟩
      · exact hloops l hl
  refine (Link.shaped_of_code hcode
    (shapedCode_testCode hvars hcond hend)).append (hbodyShaped.append ?_)
  exact Link.shaped_of_code hjump (Link.shapedCode_singleton fun _ =>
    ⟨_, hstart, rfl⟩)

theorem Part.shaped_cons {stmt : Stmt} {ss : List Stmt} {s'' : Scope}
    {mid : Nat} {before after : Bool}
    (hfirst : Laid L ret (.one stmt) s start s' mid ends)
    (hrest : Laid L ret (.many ends ss) s' mid s'' stop after)
    (ihFirst : Shaped L params cells inside (.one stmt) s start mid ends)
    (ihRest : Shaped L params cells inside (.many ends ss) s' mid stop after) :
    Shaped L params cells inside (.many before (stmt :: ss)) s start stop
      after := by
  intro handed hs hcells hinside hstop hloops
  have hfirstLe := hfirst.le
  have hrestLe := hrest.le
  have hcellsEq : handed + (stmt.cells + stmtsCells ss) ≤ cells := hcells
  have hrestShaped :=
    ihRest (hfirst.numbered hs)
      (show handed + stmt.cells + stmtsCells ss ≤ cells by omega)
    (fun t hle hlt => hinside t (by omega) hlt) hstop
    (by rw [hfirst.loops]; exact hloops)
  refine (ihFirst hs (show handed + stmt.cells ≤ cells by omega)
    (fun t hle hlt => hinside t hle (by omega)) (fun hends => ?_)
    hloops).append hrestShaped
  refine hrest.inside_start ?_
    (fun t hle hlt => hinside t (by omega) hlt) hstop
  intro before ss heq
  cases heq
  exact hends

theorem Laid.shaped (h : Laid L ret part s start s' stop ends) :
    part.Shaped L params cells inside s start stop ends := by
  intro handed hs hcells hinside hstop hloops
  induction h generalizing handed with
  | block _ ih => exact ih ⟨hs.count, hs.within⟩ hcells hinside hstop hloops
  | decl | nil => exact Link.shaped_self _
  | init hty hadd hvalue _ _ his hcode =>
    have hs' := hs.addLocal hty hadd
    have hmem := (Scope.of_addLocal hadd).2.1 ▸ List.mem_cons_self
    have hv := (hs'.within _ hmem).mono hcells
    refine Link.shaped_of_code hcode (his ▸ ?_)
    exact (shapedCode_convertedCode (hs'.within_of_find? hcells) hvalue).append
      (Link.shapedCode_singleton fun _ => hv.isSlot)
  | assignVar hv hvalue _ his hcode =>
    have hvars := hs.vars_within hcells
    refine Link.shaped_of_code hcode (his ▸ ?_)
    exact (shapedCode_convertedCode hvars hvalue).append
      (Link.shapedCode_singleton fun _ => (hvars _ _ hv).isSlot)
  | assignCell hx _ hvalue _ his hcode =>
    have hvars := hs.vars_within hcells
    refine Link.shaped_of_code hcode (his ▸ ?_)
    exact (hx.shapedCode hvars).append
      ((shapedCode_convertedCode hvars hvalue).append
        (Link.shapedCode_singleton fun _ => rfl))
  | retNone _ hcode => exact Link.shaped_of_code hcode shapedCode_returnZero
  | retSome _ hvalue _ his hcode =>
    have hvars := hs.vars_within hcells
    refine Link.shaped_of_code hcode (his ▸ ?_)
    exact (shapedCode_convertedCode hvars hvalue).append
      (Link.shapedCode_singleton fun _ => rfl)
  | expr hx his hcode =>
    have hvars := hs.vars_within hcells
    refine Link.shaped_of_code hcode (his ▸ ?_)
    exact (hx.shapedCode hvars).append (Link.shapedCode_singleton fun _ => rfl)
  | ifThen hcond _ hcode hbody ih =>
    have hvars := hs.vars_within hcells
    have hend := hstop rfl
    refine (Link.shaped_of_code hcode
      (shapedCode_testCode hvars hcond hend)).append ?_
    exact ih ⟨hs.count, hs.within⟩ hcells
      (fun t hle hlt => hinside t (by omega) hlt) (fun _ => hend) hloops
  | ifElse hcond _ hcode hbody hbetween hjump helse ihBody ihElse =>
    exact Part.shaped_ifElse hcond hcode hbody hbetween hjump helse ihBody
      ihElse hs hcells hinside hstop hloops
  | whileDo hcond _ hcode hbody hjump ih =>
    exact Part.shaped_whileDo hcond hcode hbody hjump ih hs hcells hinside hstop
      hloops
  | breakLoop htarget hcode =>
    refine Link.shaped_of_code hcode (Link.shapedCode_singleton fun _ =>
      ⟨_, ?_, rfl⟩)
    obtain ⟨l, rest, hrest, rfl⟩ := Scope.loop_of_breakTarget htarget
    exact (hloops l (by simp [hrest])).1
  | continueLoop htarget hcode =>
    refine Link.shaped_of_code hcode (Link.shapedCode_singleton fun _ =>
      ⟨_, ?_, rfl⟩)
    obtain ⟨l, rest, hrest, rfl⟩ := Scope.loop_of_continueTarget htarget
    exact (hloops l (by simp [hrest])).2
  | printf hformat _ _ hargs his hcode =>
    have hvars := hs.vars_within hcells
    refine Link.shaped_of_code hcode (his ▸ ?_)
    exact (hformat.shapedCode hvars).append ((hargs.shapedCode hvars).append
      (Link.shapedCode_singleton fun _ => trivial))
  | cons hfirst hrest ihFirst ihRest =>
    exact Part.shaped_cons hfirst hrest ihFirst ihRest hs hcells hinside hstop
      hloops

end

/-! ### Functions -/

/-- What holds of the instructions of a function. -/
structure LaidFunction.Shape (L : Link) (f : Function) (start stop : Nat) :
    Prop where
  lt : start + 1 < stop
  le : stop ≤ L.code.size
  reserve :
    L.code[start]? = some { op := .entry, operand := Int64.ofNat f.cells }
  body : L.Shaped f.params.length f.cells (fun t => start < t ∧ t < stop)
    (start + 1) stop
  last : L.code[stop - 1]? = some { op := .ret }

theorem LaidFunction.shape {L : Link} {f : Function} {start stop : Nat}
    (h : LaidFunction L f start stop) : LaidFunction.Shape L f start stop := by
  cases h with
  | @intro params last mid _ ends hparams hentry hreserve hbody hreturn hstop =>
    have hs := numbered_paramScope hparams
    have hcount : last.cellCount = Int64.ofNat f.cells := by
      have := (hbody.numbered hs).count
      rwa [Nat.zero_add] at this
    have hloops : params.loops = [] := by rw [paramScope_eq hparams]
    have hle := hbody.le
    have hmid : mid ≤ stop := by rw [hstop]; split <;> omega
    have hinside (t : Nat) (hlow : start + 1 ≤ t) (hhigh : t < mid) :
        start < t ∧ t < stop := by omega
    have hbodyShaped := hbody.shaped hs (Nat.le_of_eq (Nat.zero_add _)) hinside
      (fun hends => by rw [hstop, hends]; simp; omega) (by simp [hloops])
    have hlast : start + 1 < stop ∧
        L.code[stop - 1]? = some { op := .ret } := by
      cases hends : ends with
      | true =>
        obtain ⟨hlt, hret⟩ := hbody.last_of_ends hends
        rw [hstop, hends]
        exact ⟨hlt, hret hloops⟩
      | false =>
        obtain ⟨-, hret⟩ := Link.holds_cons.mp (hreturn hends)
        rw [hstop, hends]
        exact ⟨by simp; omega, (Link.holds_cons.mp hret).1⟩
    have hsize := (Array.getElem?_eq_some_iff.mp hlast.2).1
    refine ⟨hlast.1, by omega, by rw [hreserve, hcount],
      hbodyShaped.append ?_, hlast.2⟩
    rw [hstop]
    cases hends : ends with
    | true => exact Link.shaped_self mid
    | false => exact Link.shaped_of_code (hreturn hends) shapedCode_returnZero

/-- A block of instructions that stands at `start` in a program is the code of
the function `f`. -/
structure FunctionBlock (p : Program) (fs : List Function) (f : Function)
    (start : Nat) (block : List Instr) : Prop where
  entry : ∃ addr : Cell, p.funcs.get? f.name = some addr ∧ addr.toInt = start
  reserve : ∃ i : Instr, block[0]? = some i ∧ i.op = .entry ∧
    i.operand.toInt = f.cells
  reserveOnce : ∀ k i, block[k]? = some i → i.op = .entry → k = 0
  last : ∃ i, block.getLast? = some i ∧ i.op = .ret
  jumps : ∀ i ∈ block, i.op = .jump ∨ i.op = .jumpZero →
    start < i.operand.toInt ∧ i.operand.toInt < start + block.length
  slots : ∀ i ∈ block, i.op = .loadLocal ∨ i.op = .storeLocal ∨
    i.op = .addrLocal →
    (-f.params.length ≤ i.operand.toInt ∧ i.operand.toInt ≤ -1) ∨
    (1 ≤ i.operand.toInt ∧ i.operand.toInt ≤ f.cells)
  calls : ∀ k i, block[k]? = some i → i.op = .call →
    ∃ g ∈ fs, p.funcs.get? g.name = some i.operand ∧
    ∃ (j : Nat) (frame : Instr), k = j + 1 ∧ block[j]? = some frame ∧
    frame.op = .frame ∧ frame.operand.toInt = g.params.length

/-- Blocks stand one after another from `start` on, and each is the code of its
function. -/
def FunctionBlocks (p : Program) (fs : List Function) :
    Nat → List Function → List (List Instr) → Prop
  | _, [], [] => True
  | start, f :: rest, block :: blocks =>
    FunctionBlock p fs f start block ∧
      FunctionBlocks p fs (start + block.length) rest blocks
  | _, _, _ => False

/-- Lengths of lists are numbers that a cell holds. -/
structure Program.Fits (p : Program) (fs : List Function) : Prop where
  code : p.code.size < 2 ^ 63
  params : ∀ f ∈ fs, f.params.length < 2 ^ 63

theorem IsSlot.toInt {params cells : Nat} {c : Cell} (h : IsSlot params cells c)
    (hparams : params < 2 ^ 63) (hcells : cells < 2 ^ 63) :
    (-params ≤ c.toInt ∧ c.toInt ≤ -1) ∨ (1 ≤ c.toInt ∧ c.toInt ≤ cells) := by
  rcases h with ⟨k, hpos, hk, rfl⟩ | ⟨k, hpos, hk, rfl⟩
  · rw [Int64.toInt_neg_ofNat_of_le (by omega)]
    omega
  · rw [Int64.toInt_ofNat_of_lt (by omega)]
    omega

/-- The instructions of a program from one address up to another. -/
def Program.stretch (p : Program) (start stop : Nat) : List Instr :=
  (p.code.extract start stop).toList

theorem Program.length_stretch (p : Program) (start : Nat) {stop : Nat}
    (h : stop ≤ p.code.size) :
    (p.stretch start stop).length = stop - start := by
  simp [stretch]
  omega

theorem Program.getElem?_stretch {start stop : Nat}
    (h : (p.stretch start stop)[k]? = some i) :
    k < stop - start ∧ p.code[start + k]? = some i := by
  rw [stretch, Array.getElem?_toList, Array.getElem?_extract] at h
  obtain ⟨hk, h⟩ := Option.ite_none_right_eq_some.mp h
  exact ⟨by omega, h⟩

theorem Program.getElem?_stretch_of_lt {start stop : Nat}
    (hstop : stop ≤ p.code.size) (hk : k < stop - start) :
    (p.stretch start stop)[k]? = p.code[start + k]? := by
  rw [stretch, Array.getElem?_toList, Array.getElem?_extract, if_pos (by omega)]

theorem Program.stretch_append {start mid stop : Nat} (hmid : start ≤ mid)
    (hstop : mid ≤ stop) :
    p.stretch start mid ++ p.stretch mid stop = p.stretch start stop := by
  rw [stretch, stretch, stretch, ← Array.toList_append,
    Array.extract_append_extract, Nat.min_eq_left hmid, Nat.max_eq_right hstop]

/-- Where an instruction of a function stands: it is the first one, or it is one
of the body. -/
theorem LaidFunction.Shape.cases {fs : List Function} {f : Function}
    {start stop : Nat} (h : LaidFunction.Shape (p.link fs) f start stop)
    (hi : (p.stretch start stop)[k]? = some i) :
    (k = 0 ∧ i = { op := .entry, operand := Int64.ofNat f.cells }) ∨
      (0 < k ∧
        i.Shaped (p.link fs) f.params.length f.cells (fun t => start < t ∧
          t < stop) (start + k)) := by
  obtain ⟨hk, hcode⟩ := Program.getElem?_stretch hi
  by_cases hzero : k = 0
  · subst hzero
    have := h.reserve.symm.trans hcode
    exact Or.inl ⟨rfl, (Option.some.inj this).symm⟩
  · obtain ⟨j, hj, hshaped⟩ := h.body (start + k) (by omega) (by omega)
    have := hj.symm.trans hcode
    exact Or.inr ⟨by omega, Option.some.inj this ▸ hshaped⟩

/-- The code of a function is a block as it should be. -/
theorem LaidFunction.block {fs : List Function} {f : Function}
    {start stop : Nat} (h : LaidFunction (p.link fs) f start stop) (hf : f ∈ fs)
    (hfits : p.Fits fs) (hcells : f.cells < 2 ^ 63)
    (hfuncs : ∀ name, (p.funcs.get? name).isSome = true ↔
      ∃ g ∈ fs, g.name = name) :
    FunctionBlock p fs f start (p.stretch start stop) := by
  have hshape := h.shape
  have hsize : stop ≤ p.code.size := hshape.le
  have hcode := hfits.code
  have hlt := hshape.lt
  have hlength := Program.length_stretch p start hsize
  have hknown (g : Function) (hg : g ∈ fs) :
      p.funcs.get? g.name = some ((p.link fs).entry g.name) := by
    obtain ⟨addr, haddr⟩ :=
      Option.isSome_iff_exists.mp ((hfuncs g.name).mpr ⟨g, hg, rfl⟩)
    simp [Program.link, haddr]
  refine ⟨⟨_, hknown f hf, ?_⟩, ?_, ?_, ⟨{ op := .ret }, ?_, rfl⟩, ?_, ?_, ?_⟩
  · rw [h.entry, Int64.toInt_ofNat_of_lt (by omega)]
  · rw [Program.getElem?_stretch_of_lt hsize (by omega)]
    exact ⟨_, hshape.reserve, rfl, Int64.toInt_ofNat_of_lt hcells⟩
  · intro k i hi hop
    rcases hshape.cases hi with ⟨hk, -⟩ | ⟨-, hshaped⟩
    · exact hk
    · simp [Instr.Shaped, hop] at hshaped
  · rw [List.getLast?_eq_getElem?, hlength,
      Program.getElem?_stretch_of_lt hsize (by omega),
      show start + (stop - start - 1) = stop - 1 by omega]
    exact hshape.last
  · intro i hi hop
    obtain ⟨k, hi⟩ := List.mem_iff_getElem?.mp hi
    rcases hshape.cases hi with ⟨-, rfl⟩ | ⟨-, hshaped⟩
    · simp at hop
    · obtain ⟨target, hinside, htarget⟩ : ∃ target,
          (start < target ∧ target < stop) ∧
          i.operand = Int64.ofNat target := by
        rcases hop with hop | hop <;> simpa [Instr.Shaped, hop] using hshaped
      rw [htarget, Int64.toInt_ofNat_of_lt (by omega), hlength]
      omega
  · intro i hi hop
    obtain ⟨k, hi⟩ := List.mem_iff_getElem?.mp hi
    rcases hshape.cases hi with ⟨-, rfl⟩ | ⟨-, hshaped⟩
    · simp at hop
    · have hslot : IsSlot f.params.length f.cells i.operand := by
        rcases hop with hop | hop | hop <;> simpa [Instr.Shaped, hop]
          using hshaped
      exact hslot.toInt (hfits.params f hf) hcells
  · intro k i hi hop
    rcases hshape.cases hi with ⟨-, rfl⟩ | ⟨hpos, hshaped⟩
    · cases hop
    · simp only [Instr.Shaped, hop] at hshaped
      obtain ⟨d, hd, hentry, before, hbefore, hframe⟩ := hshaped
      obtain ⟨g, hg, rfl⟩ := List.mem_map.mp hd
      obtain ⟨hk, -⟩ := Program.getElem?_stretch hi
      refine ⟨g, hg, by rw [hentry]; exact hknown g hg, before - start,
        { op := .frame, operand := Int64.ofNat g.params.length }, by
          omega, ?_, rfl,
        Int64.toInt_ofNat_of_lt (hfits.params g hg)⟩
      rw [Program.getElem?_stretch_of_lt hsize (by omega),
        show start + (before - start) = before by omega]
      exact hframe

theorem LaidFunctions.blocks {p : Program} {fs rest : List Function}
    {start stop : Nat} (h : LaidFunctions (p.link fs) rest start stop)
    (hrest : ∀ f ∈ rest, f ∈ fs) (hfits : p.Fits fs)
    (hcells : ∀ f ∈ fs, f.cells < 2 ^ 63)
    (hfuncs : ∀ name, (p.funcs.get? name).isSome = true ↔
      ∃ g ∈ fs, g.name = name) :
    start ≤ stop ∧
      ∃ blocks : List (List Instr), p.stretch start stop = blocks.flatten ∧
        FunctionBlocks p fs start rest blocks := by
  induction h with
  | nil => exact ⟨Nat.le_refl _, [], by simp [Program.stretch], trivial⟩
  | @cons f rest start mid stop hfirst _ ih =>
    have hshape := hfirst.shape
    have hf := hrest f List.mem_cons_self
    obtain ⟨hle, blocks, hflatten, hblocks⟩ :=
      ih fun g hg => hrest g (List.mem_cons_of_mem f hg)
    have hlength := Program.length_stretch p start hshape.le
    have hlt := hshape.lt
    refine ⟨by omega, p.stretch start mid :: blocks, ?_,
      hfirst.block hf hfits (hcells f hf) hfuncs, ?_⟩
    · rw [List.flatten_cons, ← hflatten, Program.stretch_append (by omega) hle]
    · rw [hlength, show start + (mid - start) = mid by omega]
      exact hblocks

/-- The code of an accepted list of functions splits into one block for each
function, in their order. A run starts at `main`, and exactly the declared
functions have addresses. -/
theorem Program.code_splits_into_blocks {fs : List Function} {p : Program}
    (h : ofFunctions fs = .ok p) (hfits : p.Fits fs)
    (hcells : ∀ f ∈ fs, f.cells < 2 ^ 63) :
    (∃ blocks : List (List Instr), p.code.toList = blocks.flatten ∧
      FunctionBlocks p fs 0 fs blocks) ∧
    p.funcs.get? mainName = some p.entry ∧
    ∀ name, (p.funcs.get? name).isSome = true ↔ ∃ f ∈ fs, f.name = name := by
  have hplaces := places_of_ofFunctions h hfits.code
  obtain ⟨-, blocks, hflatten, hblocks⟩ :=
    hplaces.laid.blocks (fun _ hf => hf) hfits hcells hplaces.funcs
  refine ⟨⟨blocks, ?_, hblocks⟩, hplaces.entry, hplaces.funcs⟩
  rw [← hflatten, stretch, Array.extract_size]

/-- `less` gives one less than its argument; `main` counts down to zero with
it. -/
def countdown : List Function :=
  [{ ret := .int, name := mainName, params := []
     body :=
      [.init .int (text "n") (.int 2 none),
       .whileDo (.var (text "n"))
         (.assign (.var (text "n")) (.call (text "less") [.var (text "n")])),
       .ret (some (.var (text "n")))] },
   { ret := .int, name := text "less",
     params := [{ ty := .int, name := text "n" }]
     body :=
      [.decl (.array .int 2) (text "unused"),
       .ret (some (.binary .sub (.var (text "n")) (.int 1 none)))] }]

def countdownProgram : Program where
  code := #[ { op := .entry, operand := 1 }, { op := .push, operand := 2 },
    { op := .storeLocal, operand := 1 }, { op := .loadLocal, operand := 1 },
    { op := .jumpZero, operand := 10 }, { op := .loadLocal, operand := 1 },
    { op := .frame, operand := 1 }, { op := .call, operand := 12 },
    { op := .storeLocal, operand := 1 }, { op := .jump, operand := 3 },
    { op := .loadLocal, operand := 1 }, { op := .ret },
    { op := .entry, operand := 2 }, { op := .loadLocal, operand := -1 },
    { op := .push, operand := 1 }, { op := .arith .sub }, { op := .ret }]
  data := #[0]
  entry := 0
  funcs := .ofList [(mainName, 0), (text "less", 12)]

theorem ofFunctions_countdown :
    Program.ofFunctions countdown = .ok countdownProgram :=
  ok_of_toOption (by decide +kernel)

theorem Program.code_splits_into_blocks_countdown :
    ofFunctions countdown = .ok countdownProgram ∧
      countdownProgram.Fits countdown ∧ (∀ f ∈ countdown, f.cells < 2 ^ 63) ∧
      ∃ blocks : List (List Instr),
        countdownProgram.code.toList = blocks.flatten ∧
      FunctionBlocks countdownProgram countdown 0 countdown blocks := by
  have hfits : countdownProgram.Fits countdown := ⟨by decide, by decide⟩
  have hcells : ∀ f ∈ countdown, f.cells < 2 ^ 63 := by decide
  exact ⟨ofFunctions_countdown, hfits, hcells,
    (code_splits_into_blocks ofFunctions_countdown hfits hcells).1⟩

end StackC
