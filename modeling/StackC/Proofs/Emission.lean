import StackC.Proofs.Patches
import StackC.Proofs.Shape
import StackC.Proofs.WellFormed

/-!
Emission succeeds. A node of a tree becomes at most 8 instructions. While the
addresses of the code fit into cells, nothing is refused on the way from a
statement that follows the rules to its code: every expression has a type, and
every label that is bound was free.
-/

namespace StackC

/-! ### The length of code -/

/-- A link of nothing. The length of code does not depend on what it is linked
to. -/
def Link.empty : Link where
  code := #[]
  entry _ := 0
  string _ := 0
  signatures := []

theorem length_convertCode_le (target source : Ty) :
    (convertCode target source).length ≤ 1 := by
  simp only [convertCode]
  split <;> simp

theorem length_scaleLeftCode_le (op : Operator) (l r : Ty) :
    (scaleLeftCode op l r).length ≤ 2 := by
  have hscale (c : Cell) : (scaleCode c).length ≤ 2 := by
    simp only [scaleCode]
    split <;> simp
  simp only [scaleLeftCode]
  split
  · split
    · exact hscale _
    · simp
  · split
    · exact hscale _
    · simp
  · simp

theorem length_integerCode_le (op : Operator) (c : Ty) :
    (integerCode op c).length ≤ 2 := by
  have hwrap (i j : Instr)
      (b : Bool) : (if b then [i, j] else [i]).length ≤ 2 := by
    cases b <;> simp
  cases op with
  | add | sub | mul => exact hwrap _ _ _
  | _ => simp [integerCode]

theorem length_pointerCode_le (op : Operator) (l r : Ty) :
    (pointerCode op l r).length ≤ 3 := by
  simp only [pointerCode]
  split
  · split <;> simp
  · simp

/-- The code of an expression with `n` nodes is shorter than `8 * n`. -/
theorem Resolves.length_code {vars : Name → Option LocalVar}
    {signatures : List FuncDef} {phrase : Phrase}
    (h : Resolves vars signatures phrase) (L : Link) :
    match phrase with
    | .one x a => (a.code L).length < 8 * x.nodes
    | .args ps xs as => (argsCode L ps as).length ≤ 8 * exprsNodes xs := by
  induction h with
  | int | str | var => simp [Term.code, Expr.nodes]
  | addrVar => simp [Term.code, Expr.nodes]
  | @binary op left right l r ty _ _ _ hl hr =>
    dsimp only at hl hr ⊢
    have hconvert := length_convertCode_le (Ty.common l.ty.decay r.ty.decay)
    have hconvertLeft := hconvert l.ty.decay
    have hconvertRight := hconvert r.ty.decay
    have hinteger := length_integerCode_le op (Ty.common l.ty.decay r.ty.decay)
    have hscaleLeft := length_scaleLeftCode_le op l.ty.decay r.ty.decay
    have hscaleRight := length_scaleLeftCode_le op r.ty.decay l.ty.decay
    have hpointer := length_pointerCode_le op l.ty.decay r.ty.decay
    simp only [Term.code, Expr.nodes]
    split
    · simp only [List.length_append]
      omega
    · simp only [List.length_append, scaleRightCode_eq]
      omega
  | call _ _ _ hargs =>
    dsimp only at hargs ⊢
    simp only [Term.code, Expr.nodes, List.length_append, List.length_cons,
      List.length_nil]
    omega
  | addrDeref _ _ hp =>
    dsimp only at hp ⊢
    simp only [Term.code, Expr.nodes]
    omega
  | deref _ _ hp =>
    dsimp only at hp ⊢
    simp only [Term.code, Expr.nodes]
    split
    · omega
    · simp only [List.length_append, List.length_singleton]
      omega
  | nil => simp [argsCode, exprsNodes]
  | @cons p ps x xs a as _ _ _ ha has =>
    dsimp only at ha has ⊢
    have hconvert := length_convertCode_le p.ty a.ty
    simp only [argsCode, exprsNodes, List.length_append]
    omega

theorem Printed.length_code {vars : Name → Option LocalVar}
    {signatures : List FuncDef} {xs : List Expr} {as : List Term}
    (h : Printed vars signatures xs as) (L : Link) :
    (termsCode L as).length ≤ 8 * exprsNodes xs := by
  induction h with
  | nil => simp [termsCode, exprsNodes]
  | @cons x xs a as ha _ _ ih =>
    have hlength := ha.length_code L
    dsimp only at hlength
    simp only [termsCode, List.flatMap_cons, List.length_append, exprsNodes]
      at ih ⊢
    omega

/-! ### Statements -/

namespace Emitter

variable {e e' e'' : Emitter} {n m : Nat}

/-- Between two emitters the code of `n` nodes was added, and nothing was lost
that something waits for. -/
structure Extends (n : Nat) (e e' : Emitter) : Prop where
  keeps : e.out.Keeps e.out.draft.labels.size e'.out
  size : e'.out.size ≤ e.out.size + 8 * n

theorem Extends.trans (hfirst : Extends n e e') (hsecond : Extends m e' e'') :
    Extends (n + m) e e'' where
  keeps := hfirst.keeps.trans (hsecond.keeps.mono hfirst.keeps.draft.labels)
  size := by
    have hleft := hfirst.size
    have hright := hsecond.size
    omega

theorem Extends.mono (h : Extends n e e') (hle : n ≤ m) : Extends m e e' where
  keeps := h.keeps
  size := by
    have := h.size
    omega

theorem Extends.of_out (h : Extends n e e') {out : Emitter}
    (hout : out.out = e'.out) : Extends n e out where
  keeps := hout ▸ h.keeps
  size := hout ▸ h.size

theorem extends_refl (e : Emitter) : Extends 0 e e where
  keeps := Output.Keeps.refl _ _
  size := by omega

/-- Where the code of `n` nodes can be added: what waits is in order, the
functions are those of the program, the loops are those of the rules, and the
addresses fit. -/
structure Ready (functions : Name → Option Function) (loop : Bool) (n : Nat)
    (e : Emitter) : Prop where
  declares : e.out.funcs.Declares functions
  sound : e.out.Sound
  loops : loop = true → e.scope.loops ≠ []
  size : e.out.size + 8 * n < 2 ^ 63

variable {functions : Name → Option Function} {loop : Bool}

theorem Ready.mono (h : Ready functions loop n e) (hle : m ≤ n) :
    Ready functions loop m e where
  declares := h.declares
  sound := h.sound
  loops := h.loops
  size := by
    have := h.size
    omega

/-- After the code of some of the nodes there is room for the others. -/
theorem Ready.next {inner : Bool} (h : Ready functions loop (n + m) e)
    (hextends : Extends n e e') (hdefs : e'.out.funcs.defs = e.out.funcs.defs)
    (hloops : inner = true → e'.scope.loops ≠ []) :
    Ready functions inner m e' where
  declares := h.declares.of_defs hdefs
  sound := hextends.keeps.sound h.sound
  loops := hloops
  size := by
    have hsize := h.size
    have hadded := hextends.size
    omega

section

variable {vars : Name → Option LocalVar} {signatures : List FuncDef} {x : Expr}
  {a : Term}

theorem size_emitTerm_lt (hx : Resolves vars signatures (.one x a))
    (hcalls : a.CallsIn e.out.funcs.defs) :
    (e.emitTerm a).out.size < e.out.size + 8 * x.nodes := by
  have hsize :
      (e.emitTerm a).out.size = e.out.size + (a.code Link.empty).length :=
    (a.adds_emit e.out hcalls).size Link.empty
  have hlength := hx.length_code Link.empty
  dsimp only at hlength
  omega

theorem extends_emitTerm (hx : Resolves vars signatures (.one x a))
    (hcalls : a.CallsIn e.out.funcs.defs) :
    Extends x.nodes e (e.emitTerm a) where
  keeps := a.keeps_emit _ e.out hcalls
  size := Nat.le_of_lt (size_emitTerm_lt hx hcalls)

theorem size_emit (e : Emitter) (i : Instr) :
    (e.emit i).out.size = e.out.size + 1 :=
  Output.size_emit e.out i

theorem extends_emit (e : Emitter) (i : Instr) : Extends 1 e (e.emit i) where
  keeps := Output.keeps_emit _ _ i
  size := by
    rw [size_emit]
    omega

theorem size_emitAll (e : Emitter) (is : List Instr) :
    (e.emitAll is).out.size = e.out.size + is.length :=
  Output.size_emitAll e.out is

/-- A value that is converted and then used up by one instruction. -/
theorem extends_converted (hx : Resolves vars signatures (.one x a))
    (hcalls : a.CallsIn e.out.funcs.defs) (ty : Ty) (i : Instr) :
    Extends (x.nodes + 1) e
      (((e.emitTerm a).emitAll (convertCode ty a.ty)).emit i) where
  keeps := (a.keeps_emit _ e.out hcalls).trans
    ((Output.keeps_emitAll _ _ _).trans (Output.keeps_emit _ _ i))
  size := by
    have hterm := size_emitTerm_lt hx hcalls
    have hconvert := length_convertCode_le ty a.ty
    rw [size_emit, size_emitAll]
    omega

theorem extends_test (hx : Resolves vars signatures (.one x a))
    (hcalls : a.CallsIn e.out.funcs.defs) :
    Extends x.nodes e (e.test a).2 ∧ e.out.draft.labels.size ≤ (e.test a).1 ∧
      ((e.test a).2.out.draft.label (e.test a).1).addr = none := by
  have hterm : e.out.Keeps e.out.draft.labels.size (e.emitTerm a).out :=
    a.keeps_emit _ e.out hcalls
  have hlabel :=
    Output.Keeps.of_draft
      (Draft.keeps_newLabel e.out.draft.labels.size (e.emitTerm a).out.draft)
  have hjump :=
    Output.Keeps.of_draft
      (Draft.keeps_jump e.out.draft.labels.size
        (e.emitTerm a).newLabel.2.out.draft
        (show Opcode.isBranch .jumpZero = true from rfl) (e.test a).1)
  refine ⟨⟨hterm.trans (hlabel.trans hjump), ?_⟩, hterm.draft.labels, ?_⟩
  · have hsize := size_emitTerm_lt hx hcalls
    have hadded : (e.test a).2.out.size = (e.emitTerm a).out.size + 1 :=
      size_jump _ _ _
    omega
  · have hsame :
        ((e.test a).2.out.draft.label (e.test a).1).addr =
        ((e.emitTerm a).newLabel.2.out.draft.label (e.test a).1).addr :=
      Draft.addr_jump _ _ _ _
    have hnew : (e.emitTerm a).newLabel.2.out.draft.label (e.test a).1 =
        (e.emitTerm a).out.draft.label (e.test a).1 := Draft.label_newLabel _ _
    have hfresh : (e.emitTerm a).out.draft.label (e.test a).1 = {} :=
      Draft.label_of_size_le (Nat.le_refl _)
    rw [hsame, hnew, hfresh]

/-- A condition of scalar type is tested with a jump to a new label. -/
theorem exists_test (what : Bytes) (ht : e.out.funcs.Declares functions)
    (hx : HasScalarType functions e.scope.context x) :
    ∃ c, e.checkScalar what x = .ok c ∧ Extends x.nodes e (e.test c).2 ∧
      (e.test c).2.out.funcs.defs = e.out.funcs.defs ∧
      e.out.draft.labels.size ≤ (e.test c).1 ∧
      (e.test c).1 < (e.test c).2.out.draft.labels.size ∧
      ((e.test c).2.out.draft.label (e.test c).1).addr = none := by
  obtain ⟨c, hc⟩ := (checkScalar_iff ht).mpr hx
  obtain ⟨hresolves, hcalls, -⟩ := resolves_of_checkScalar hc
  obtain ⟨htest, hnew, hfree⟩ := extends_test hresolves hcalls
  obtain ⟨-, hdefs, -, hlt, -⟩ := test_spec hcalls
  exact ⟨c, hc, htest, hdefs, hnew, hlt, hfree⟩

end

theorem extends_jump (e : Emitter) (l : LabelId) :
    Extends 1 e (e.jump .jump l) where
  keeps := Output.Keeps.of_draft (Draft.keeps_jump _ _ rfl l)
  size := by
    rw [size_jump]
    omega

/-- A new label, and a jump to it unless control never gets there. -/
def skip (e : Emitter) (ends : Bool) : LabelId × Emitter :=
  let (l, e) := e.newLabel
  (l, if ends then e else e.jump .jump l)

theorem extends_skip (e : Emitter) (ends : Bool) :
    Extends 1 e (e.skip ends).2 ∧ (e.skip ends).2.scope = e.scope ∧
      (e.skip ends).2.out.funcs = e.out.funcs ∧
      (e.skip ends).1 = e.out.draft.labels.size ∧
      (e.skip ends).1 < (e.skip ends).2.out.draft.labels.size ∧
      ((e.skip ends).2.out.draft.label (e.skip ends).1).addr = none := by
  have hlabel :=
    Output.Keeps.of_draft
      (Draft.keeps_newLabel e.out.draft.labels.size e.out.draft)
  have hfree : (e.newLabel.2.out.draft.label e.newLabel.1).addr = none := by
    have hsame : e.newLabel.2.out.draft.label e.newLabel.1 =
        e.out.draft.label e.newLabel.1 := Draft.label_newLabel _ _
    have hfresh : e.out.draft.label e.newLabel.1 = {} :=
      Draft.label_of_size_le (Nat.le_refl _)
    rw [hsame, hfresh]
  cases ends with
  | true =>
    exact ⟨⟨hlabel, Nat.le_add_right _ _⟩, rfl, rfl, rfl, newLabel_lt e, hfree⟩
  | false =>
    have hnew : Extends 0 e e.newLabel.2 := ⟨hlabel, Nat.le_refl _⟩
    have hjump := extends_jump e.newLabel.2 e.newLabel.1
    exact ⟨hnew.trans hjump, rfl, rfl, rfl,
      Nat.lt_of_lt_of_le (newLabel_lt e) hjump.keeps.draft.labels,
      (Draft.addr_jump _ _ _ _).trans hfree⟩

/-- A label that was made in between can be bound if it is free. -/
theorem Extends.exists_bind {l : LabelId} (h : Extends n e e')
    (hsound : e.out.Sound) (hsize : e.out.size + 8 * n < 2 ^ 63)
    (hnew : e.out.draft.labels.size ≤ l)
    (hfree : (e'.out.draft.label l).addr = none) :
    ∃ last, e'.bind l = .ok last ∧ Extends n e last ∧ last.scope = e'.scope ∧
      last.out.funcs = e'.out.funcs ∧
      last.out.draft.labels.size = e'.out.draft.labels.size ∧
      ∀ k, k ≠ l → last.out.draft.label k = e'.out.draft.label k := by
  have hfits : e'.out.size < 2 ^ 63 := Nat.lt_of_le_of_lt h.size hsize
  obtain ⟨draft, hbind, hlines⟩ :=
    Draft.exists_bind (h.keeps.sound hsound).draft hfree hfits
  obtain ⟨hlabels, hothers, -⟩ := Draft.labels_bind hbind
  have hkeeps := Draft.keeps_bind hbind hnew (h.keeps.sound hsound).draft hlines
  have hsame : draft.size = e'.out.draft.size := Draft.size_bind hbind
  have hok : e'.bind l = .ok { e' with out := { e'.out with draft } } := by
    simp only [bind, hbind]
  refine ⟨_, hok, ⟨h.keeps.trans (Output.Keeps.of_draft hkeeps), ?_⟩, rfl, rfl,
    hlabels, hothers⟩
  have hadded := h.size
  show draft.size ≤ _
  rw [hsame]
  exact hadded

/-! ### Statements without jumps -/

variable {ty : Ty}

theorem exists_declare {name : Name} (hty : ty.Storable)
    (hnew : name ∉ (e.scope.innermost.map fun v => (v.name, v.ty)).map (·.1)) :
    ∃ v e', e.declare ty name = .ok (v, e') ∧ e'.out = e.out := by
  obtain ⟨v, scope, hadd⟩ := Scope.addLocal_of_new hnew
  exact ⟨v, { e with scope },
    bind_ok (typed_ok (Ty.storable_iff.mpr hty)) (bind_ok hadd rfl), rfl⟩

theorem exists_declareInit {name : Name} {value : Expr}
    (ht : e.out.funcs.Declares functions) (hty : ty.Storable)
    (hnew : name ∉ (e.scope.innermost.map fun v => (v.name, v.ty)).map (·.1))
    (harray : ty.isArray = false)
    (hvalue : FitsInto functions
      (((name, ty) :: e.scope.innermost.map fun v => (v.name, v.ty)) ::
        e.scope.context.tail) ty value) :
    ∃ e', e.declareInit ty name value = .ok e' ∧
      Extends (value.nodes + 1) e e' ∧
      e'.scope.context = ((name, ty) :: e.scope.innermost.map fun v =>
        (v.name, v.ty)) :: e.scope.context.tail := by
  obtain ⟨v, mid, hdeclare, hout⟩ := exists_declare hty hnew
  obtain ⟨-, hadd, -⟩ := of_declare hdeclare
  obtain ⟨-, hvty, hcontext⟩ := Scope.context_addLocal hadd
  obtain ⟨ty', hvalue, hassign⟩ := hvalue
  rw [← hcontext] at hvalue
  have hmid : mid.out.funcs.Declares functions := hout ▸ ht
  obtain ⟨a, ha, rfl⟩ := check_of_hasType hmid value hvalue
  obtain ⟨hresolves, hcalls⟩ := resolves_of_check value ha
  have hextends :=
    extends_converted hresolves hcalls v.ty
      { op := .storeLocal, operand := v.operand }
  have harray : ¬ v.ty.isArray = true := by simp [hvty, harray]
  rw [← hvty] at hassign
  refine ⟨_, bind_ok hdeclare ((if_neg harray).trans
    (bind_ok ha (bind_ok (located_ok (typed_ok hassign)) rfl))), ?_, hcontext⟩
  exact ⟨hout ▸ hextends.keeps, hout ▸ hextends.size⟩

theorem exists_assign {x value : Expr} {Γ Γ' : Context} {ret : Ty}
    (ht : e.out.funcs.Declares functions) (hΓ : e.scope.context = Γ)
    (hvalid : StmtValid functions ret loop Γ (.assign x value) Γ') :
    ∃ e', e.assign x value = .ok e' ∧ Extends (x.nodes + value.nodes + 1) e e' ∧
      e'.scope.context = Γ' := by
  cases hvalid with
  | assignVar hvisible hvalue =>
    subst hΓ
    obtain ⟨v, hv, rfl⟩ := Scope.resolve_of_type? hvisible
    obtain ⟨ty', hvalue, hassign⟩ := hvalue
    obtain ⟨a, ha, rfl⟩ := check_of_hasType ht value hvalue
    obtain ⟨hresolves, hcalls⟩ := resolves_of_check value ha
    refine ⟨_,
      bind_ok (bind_ok hv rfl) (bind_ok ha (bind_ok (typed_ok hassign) rfl)),
      ?_, rfl⟩
    exact (extends_converted hresolves hcalls v.ty
      { op := .storeLocal, operand := v.operand }).mono (by omega)
  | @assignDeref _ _ z _ p ty hz hderef hvalue =>
    subst hΓ
    obtain ⟨p, hp, rfl⟩ := check_of_hasType ht z hz
    obtain ⟨ty', hvalue, hassign⟩ := hvalue
    obtain ⟨a, ha, rfl⟩ := check_of_hasType ht value hvalue
    obtain ⟨hpResolves, hpCalls⟩ := resolves_of_check z hp
    obtain ⟨hresolves, hcalls⟩ := resolves_of_check value ha
    refine ⟨_, bind_ok (bind_ok hp (bind_ok (typed_ok hderef) rfl))
      (bind_ok ha (bind_ok (typed_ok hassign) rfl)), ?_, rfl⟩
    have hdefs : (e.emitTerm p).out.funcs.defs = e.out.funcs.defs :=
      (p.adds_emit e.out hpCalls).defs
    have hstore :=
      extends_converted hresolves (hdefs.symm ▸ hcalls) ty { op := .store }
    refine ((extends_emitTerm hpResolves hpCalls).trans hstore).mono ?_
    simp only [Expr.nodes]
    omega

theorem exists_giveBack {f : FuncDef} {value : Option Expr} {Γ Γ' : Context}
    (ht : e.out.funcs.Declares functions) (hΓ : e.scope.context = Γ)
    (hvalid : StmtValid functions f.ret loop Γ (.ret value) Γ') :
    ∃ e', e.giveBack f value = .ok e' ∧ Extends (Stmt.ret value).nodes e e' ∧
      e'.scope.context = Γ' := by
  cases hvalid with
  | retNone hvoid =>
    refine ⟨e.emitAll returnZero, if_pos hvoid,
      ⟨Output.keeps_emitAll _ _ _, ?_⟩, hΓ⟩
    simp only [size_emitAll, returnZero, Stmt.nodes, List.length_cons,
      List.length_nil]
    omega
  | @retSome _ _ value hvoid hvalue =>
    subst hΓ
    obtain ⟨ty, hvalue, hassign⟩ := hvalue
    obtain ⟨a, ha, rfl⟩ := check_of_hasType ht value hvalue
    obtain ⟨hresolves, hcalls⟩ := resolves_of_check value ha
    have hnonvoid : ¬ f.ret.isVoid = true := by simp [hvoid]
    refine ⟨_,
      (if_neg hnonvoid).trans
      (bind_ok ha (bind_ok (located_ok (typed_ok hassign)) rfl)), ?_, rfl⟩
    exact extends_converted hresolves hcalls f.ret { op := .ret }

theorem exists_printf {format : Expr} {args : List Expr}
    (ht : e.out.funcs.Declares functions)
    (hformat : HasType functions e.scope.context format ty)
    (hty : ty.decay.isFormat = true)
    (hverbs : ∀ s, format = .str s → countVerbs s = .ok args.length)
    (hargs : ∀ x ∈ args, HasScalarType functions e.scope.context x) :
    ∃ e', e.printf format args = .ok e' ∧ e'.scope = e.scope ∧
      Extends (format.nodes + exprsNodes args + 1) e e' := by
  obtain ⟨a, ha, rfl⟩ := check_of_hasType ht format hformat
  obtain ⟨as, has⟩ : ∃ as, checkPrinted e.scope e.out.funcs 1 args = .ok as :=
    (checkPrinted_iff ht).mpr hargs
  obtain ⟨hresolves, hcalls⟩ := resolves_of_check format ha
  obtain ⟨hprinted, hargsCalls⟩ := printed_of_checkPrinted has
  have hfirst := a.adds_emit e.out hcalls
  have hargsCalls' : ∀ b ∈ as, b.CallsIn (a.emit e.out).funcs.defs :=
    fun b hb => hfirst.defs ▸ hargsCalls b hb
  refine ⟨_,
    bind_ok ha
    ((if_pos hty).trans
      (bind_ok (checkFormat_iff.mpr hverbs) (bind_ok has rfl))), rfl, ?_, ?_⟩
  · exact (a.keeps_emit _ e.out hcalls).trans
      ((keeps_emitTerms _ as hargsCalls').trans (Output.keeps_emit _ _ _))
  · have hformatSize : (a.emit e.out).size < e.out.size + 8 * format.nodes :=
      size_emitTerm_lt hresolves hcalls
    have hargsSize := (adds_emitTerms as hargsCalls').size Link.empty
    have hlength := hprinted.length_code Link.empty
    rw [size_emit]
    dsimp only
    omega

end Emitter

/-! ### Statements with jumps -/

section

open Emitter

variable {functions : Name → Option Function} {e : Emitter} {loop : Bool}
  {f : FuncDef} {Γ Γ' Γ'' : Context}

/-- What a statement that follows the rules becomes. -/
def Stmt.Emits (f : FuncDef) (s : Stmt) (e : Emitter) (Γ : Context) : Prop :=
  ∃ ends e', s.emit f e = .ok (ends, e') ∧ Extends s.nodes e e' ∧
    e'.scope.context = Γ

/-- A statement can be emitted wherever the context is the given one and there
is room. -/
def Stmt.Emittable (functions : Name → Option Function) (f : FuncDef)
    (loop : Bool) (Γ : Context) (s : Stmt) (Γ' : Context) : Prop :=
  ∀ e : Emitter, e.scope.context = Γ → Ready functions loop s.nodes e →
    s.Emits f e Γ'

variable {cond : Expr} {body : Stmt}

theorem Stmt.emits_ifThen
    (h : Ready functions loop (Stmt.ifThen cond body).nodes e)
    (hΓ : e.scope.context = Γ) (hcond : HasScalarType functions Γ cond)
    (hbody : body.Emittable functions f loop ([] :: Γ) Γ') :
    (Stmt.ifThen cond body).Emits f e Γ := by
  subst hΓ
  simp only [Stmt.nodes] at h
  obtain ⟨c, hc, htest, hdefs, hnew, hlt, hfree⟩ :=
    exists_test (text "if condition") h.declares hcond
  have hstart :
      Extends cond.nodes e { (e.test c).2 with scope := e.scope.enter } :=
    htest.of_out rfl
  have hready := (h.mono (Nat.le_succ _)).next hstart hdefs h.loops
  obtain ⟨ends, inner, hinner, hextends, -⟩ := hbody _ rfl hready
  have hleave : inner.scope.leave = e.scope.resume inner.scope :=
    (body.lays_emit f hinner).scope.leave_enter
  have hboth :
      Extends (cond.nodes + body.nodes + 1) e
      { inner with scope := inner.scope.leave } :=
    ((hstart.trans hextends).mono (Nat.le_succ _)).of_out rfl
  have hstill : (inner.out.draft.label (e.test c).1).addr = none :=
    (hextends.keeps.draft.addr _ hlt).trans hfree
  obtain ⟨last, hlast, hall, hscope, -⟩ :=
    hboth.exists_bind h.sound h.size hnew hstill
  refine ⟨false, last, bind_ok hc (bind_ok hinner (bind_ok hlast rfl)),
    hall, ?_⟩
  rw [hscope, hleave]
  rfl

theorem Stmt.emits_ifElse {orElse : Stmt}
    (h : Ready functions loop (Stmt.ifElse cond body orElse).nodes e)
    (hΓ : e.scope.context = Γ) (hcond : HasScalarType functions Γ cond)
    (hbody : body.Emittable functions f loop ([] :: Γ) Γ')
    (helse : orElse.Emittable functions f loop ([] :: Γ) Γ'') :
    (Stmt.ifElse cond body orElse).Emits f e Γ := by
  subst hΓ
  have hnodes : (Stmt.ifElse cond body orElse).nodes =
      (cond.nodes + body.nodes + 1) + orElse.nodes := by
    simp only [Stmt.nodes]
    omega
  rw [hnodes] at h
  obtain ⟨c, hc, htest, hdefs, hnew, hlt, hfree⟩ :=
    exists_test (text "if condition") h.declares hcond
  have hstart :
      Extends cond.nodes e { (e.test c).2 with scope := e.scope.enter } :=
    htest.of_out rfl
  have hready :
      Ready functions loop body.nodes
      { (e.test c).2 with scope := e.scope.enter } :=
    (h.mono (by omega)).next hstart hdefs h.loops
  obtain ⟨bodyEnds, inner, hinner, hextends, -⟩ := hbody _ rfl hready
  have hlays := body.lays_emit f hinner
  have hleave : inner.scope.leave = e.scope.resume inner.scope :=
    hlays.scope.leave_enter
  obtain ⟨done, jumped, hjumped⟩ : ∃ done jumped,
      ({ inner with scope := inner.scope.leave } : Emitter).skip bodyEnds =
      (done, jumped) := ⟨_, _, rfl⟩
  obtain ⟨hskip, hjumpedScope, hjumpedFuncs, hdone, hdoneLt, hdoneFree⟩ :
      Extends 1 inner jumped ∧ jumped.scope = inner.scope.leave ∧
      jumped.out.funcs = inner.out.funcs ∧ done = inner.out.draft.labels.size ∧
      done < jumped.out.draft.labels.size ∧
      (jumped.out.draft.label done).addr = none := by
    have hspec :=
      extends_skip { inner with scope := inner.scope.leave } bodyEnds
    rw [hjumped] at hspec
    exact ⟨⟨hspec.1.keeps, hspec.1.size⟩, hspec.2⟩
  have hinnerLt : (e.test c).1 < inner.out.draft.labels.size :=
    Nat.lt_of_lt_of_le hlt hextends.keeps.draft.labels
  have hotherFree : (jumped.out.draft.label (e.test c).1).addr = none :=
    (hskip.keeps.draft.addr _ hinnerLt).trans
      ((hextends.keeps.draft.addr _ hlt).trans hfree)
  have hfirst := (hstart.trans hextends).trans hskip
  obtain ⟨mid, hmid, hmidExtends, hmidScope, hmidFuncs, hmidLabels,
      hmidOthers⟩ :=
    hfirst.exists_bind h.sound (Nat.lt_of_le_of_lt (by omega) h.size) hnew
      hotherFree
  have hmidIs : mid.scope = e.scope.resume inner.scope := by
    rw [hmidScope, hjumpedScope, hleave]
  have hne : done ≠ (e.test c).1 := by
    rw [hdone]
    exact Ne.symm (Nat.ne_of_lt hinnerLt)
  have hmidDefs : mid.out.funcs.defs = e.out.funcs.defs := by
    rw [hmidFuncs, hjumpedFuncs, hlays.defs]
    exact hdefs
  have hmidStart :
      Extends (cond.nodes + body.nodes + 1) e
      { mid with scope := mid.scope.enter } := hmidExtends.of_out rfl
  have hmidReady :
      Ready functions loop orElse.nodes
      { mid with scope := mid.scope.enter } := by
    refine h.next hmidStart hmidDefs fun hloop => ?_
    show mid.scope.loops ≠ []
    rw [hmidIs]
    exact h.loops hloop
  obtain ⟨elseEnds, last, hlast, hlastExtends, -⟩ :=
    helse _ (by rw [hmidIs]; rfl) hmidReady
  have helseLeave : last.scope.leave = mid.scope.resume last.scope :=
    (orElse.lays_emit f hlast).scope.leave_enter
  have hall :
      Extends (cond.nodes + body.nodes + 1 + orElse.nodes) e
      { last with scope := last.scope.leave } :=
    (hmidStart.trans hlastExtends).of_out rfl
  have hdoneStill : (last.out.draft.label done).addr = none := by
    have hdoneMid : done < mid.out.draft.labels.size := by
      rw [hmidLabels]
      exact hdoneLt
    refine (hlastExtends.keeps.draft.addr done hdoneMid).trans ?_
    show (mid.out.draft.label done).addr = none
    rw [hmidOthers done hne]
    exact hdoneFree
  have hdoneNew : e.out.draft.labels.size ≤ done := by
    rw [hdone]
    exact (hstart.trans hextends).keeps.draft.labels
  obtain ⟨final, hfinal, hfinalExtends, hfinalScope, -⟩ :=
    hall.exists_bind h.sound h.size hdoneNew hdoneStill
  have hok : (Stmt.ifElse cond body orElse).emit f e =
      .ok (bodyEnds && elseEnds, final) := by
    obtain ⟨rfl, rfl⟩ :
        ({ inner with scope := inner.scope.leave } : Emitter).newLabel.1 =
        done ∧ (({ inner with scope := inner.scope.leave } : Emitter).skip
        bodyEnds).2 = jumped := by
      rw [hjumped]
      exact ⟨hdone.symm, rfl⟩
    exact bind_ok hc
      (bind_ok hinner (bind_ok hmid (bind_ok hlast (bind_ok hfinal rfl))))
  refine ⟨bodyEnds && elseEnds, final, hok, hnodes ▸ hfinalExtends, ?_⟩
  rw [hfinalScope, helseLeave, hmidIs]
  rfl

theorem Stmt.emits_whileDo
    (h : Ready functions loop (Stmt.whileDo cond body).nodes e)
    (hΓ : e.scope.context = Γ) (hcond : HasScalarType functions Γ cond)
    (hbody : body.Emittable functions f true ([] :: Γ) Γ') :
    (Stmt.whileDo cond body).Emits f e Γ := by
  subst hΓ
  simp only [Stmt.nodes] at h
  have hhere : Extends 0 e e.here.2 :=
    ⟨Output.Keeps.of_draft (Draft.keeps_here (Nat.le_refl _)), Nat.le_refl _⟩
  obtain ⟨c, hc, htest, hdefs, hnew, hlt, hfree⟩ :=
    exists_test (e := e.here.2) (text "while condition") h.declares hcond
  obtain ⟨inside, hinside⟩ :
      ∃ inside,
      inside = e.scope.enterLoop
      { breakTo := (e.here.2.test c).1, continueTo := e.here.1 } := ⟨_, rfl⟩
  have hstart :
      Extends cond.nodes e
      { (e.here.2.test c).2 with scope := inside.enter } := by
    have := hhere.trans htest
    rw [Nat.zero_add] at this
    exact this.of_out rfl
  have hready :
      Ready functions true body.nodes
      { (e.here.2.test c).2 with scope := inside.enter } :=
    (h.mono (Nat.le_succ _)).next hstart hdefs fun _ => by
      simp [hinside, Scope.enter, Scope.enterLoop]
  obtain ⟨ends, inner, hinner, hextends, -⟩ :=
    hbody _ (by rw [hinside]; rfl) hready
  have hleave : inner.scope.leave = inside.resume inner.scope :=
    (body.lays_emit f hinner).scope.leave_enter
  have hjump :
      Extends 1 inner
      ({ inner with scope := inner.scope.leave.leaveLoop }.jump
      .jump e.here.1) := by
    have hback :=
      extends_jump { inner with scope := inner.scope.leave.leaveLoop } e.here.1
    exact ⟨hback.keeps, hback.size⟩
  have hall := (hstart.trans hextends).trans hjump
  have hnew' : e.out.draft.labels.size ≤ (e.here.2.test c).1 :=
    Nat.le_trans hhere.keeps.draft.labels hnew
  have hstill :
      ((({ inner with scope := inner.scope.leave.leaveLoop } : Emitter).jump
      .jump e.here.1).out.draft.label (e.here.2.test c).1).addr = none :=
    (Draft.addr_jump _ _ _ _).trans
      ((hextends.keeps.draft.addr _ hlt).trans hfree)
  obtain ⟨last, hlast, hlastExtends, hscope, -⟩ :=
    hall.exists_bind h.sound h.size hnew' hstill
  rw [hinside] at hinner
  refine ⟨false, last, bind_ok hc (bind_ok hinner (bind_ok hlast rfl)),
    hlastExtends, ?_⟩
  rw [hscope]
  show inner.scope.leave.leaveLoop.context = _
  rw [hleave, hinside]
  rfl

mutual

/-- Whatever follows the rules is turned into code. -/
theorem Stmt.emittable_of_valid {functions : Name → Option Function}
    (f : FuncDef) :
    (s : Stmt) → {loop : Bool} → {Γ Γ' : Context} →
      StmtValid functions f.ret loop Γ s Γ' → s.Emittable functions f loop Γ Γ'
  | .block body, loop, Γ, Γ', h, e, hΓ, hready => by
    cases h with
    | block hbody =>
      subst hΓ
      simp only [Stmt.nodes] at hready
      have hinside :
          Ready functions loop (stmtsNodes body)
          { e with scope := e.scope.enter } :=
        ⟨hready.declares, hready.sound, hready.loops,
          (hready.mono (Nat.le_succ _)).size⟩
      obtain ⟨ends, inner, hinner, hextends, -⟩ :=
        exists_emitStmts f body hbody false { e with scope := e.scope.enter }
          rfl hinside
      have hleave : inner.scope.leave = e.scope.resume inner.scope :=
        (lays_emitStmts f false body hinner).scope.leave_enter
      refine ⟨ends, { inner with scope := inner.scope.leave },
        bind_ok hinner rfl, ?_, ?_⟩
      · exact Extends.mono ⟨hextends.keeps, hextends.size⟩ (Nat.le_succ _)
      · show inner.scope.leave.context = _
        rw [hleave]
        rfl
  | .func .., _, _, _, h, _, _, _ => by cases h
  | .decl ty name, loop, Γ, Γ', h, e, hΓ, hready => by
    cases h with
    | decl hty hnew =>
      rw [Scope.context_eq e.scope] at hΓ
      obtain ⟨rfl, rfl⟩ := List.cons.inj hΓ
      obtain ⟨v, e', hdeclare, hout⟩ := exists_declare (e := e) hty hnew
      obtain ⟨-, hadd, -⟩ := of_declare hdeclare
      refine ⟨false, e', bind_ok hdeclare rfl, ?_,
        (Scope.context_addLocal hadd).2.2⟩
      exact ((extends_refl e).of_out hout).mono (Nat.zero_le _)
  | .init ty name value, loop, Γ, Γ', h, e, hΓ, hready => by
    cases h with
    | init hty hnew harray hvalue =>
      rw [Scope.context_eq e.scope] at hΓ
      obtain ⟨rfl, rfl⟩ := List.cons.inj hΓ
      obtain ⟨e', hinit, hextends, hcontext⟩ :=
        exists_declareInit hready.declares hty hnew harray hvalue
      exact ⟨false, e', bind_ok hinit rfl, hextends, hcontext⟩
  | .assign x value, loop, Γ, Γ', h, e, hΓ, hready => by
    obtain ⟨e', hassign, hextends, hcontext⟩ :=
      exists_assign hready.declares hΓ h
    exact ⟨false, e', bind_ok hassign rfl, hextends, hcontext⟩
  | .ret value, loop, Γ, Γ', h, e, hΓ, hready => by
    obtain ⟨e', hret, hextends, hcontext⟩ :=
      exists_giveBack hready.declares hΓ h
    exact ⟨true, e', bind_ok hret rfl, hextends, hcontext⟩
  | .expr x, loop, Γ, Γ', h, e, hΓ, hready => by
    cases h with
    | expr hx =>
      subst hΓ
      obtain ⟨a, ha, -⟩ := check_of_hasType hready.declares x hx
      obtain ⟨hresolves, hcalls⟩ := resolves_of_check x ha
      refine ⟨false, (e.emitTerm a).emit { op := .pop },
        bind_ok ha rfl, ?_, rfl⟩
      exact (extends_emitTerm hresolves hcalls).trans (extends_emit _ _)
  | .ifThen cond body, loop, Γ, Γ', h, e, hΓ, hready => by
    cases h with
    | ifThen hcond hbody =>
      exact Stmt.emits_ifThen hready hΓ hcond (body.emittable_of_valid f hbody)
  | .ifElse cond body orElse, loop, Γ, Γ', h, e, hΓ, hready => by
    cases h with
    | ifElse hcond hbody helse =>
      exact Stmt.emits_ifElse hready hΓ hcond (body.emittable_of_valid f hbody)
        (orElse.emittable_of_valid f helse)
  | .whileDo cond body, loop, Γ, Γ', h, e, hΓ, hready => by
    cases h with
    | whileDo hcond hbody =>
      exact Stmt.emits_whileDo hready hΓ hcond (body.emittable_of_valid f hbody)
  | .breakLoop, loop, Γ, Γ', h, e, hΓ, hready => by
    cases h with
    | breakLoop =>
      obtain ⟨l, rest, hloops⟩ := List.exists_cons_of_ne_nil (hready.loops rfl)
      have htarget : e.scope.breakTarget = .ok l.breakTo := by
        rw [Scope.breakTarget, hloops]
      exact ⟨true, e.jump .jump l.breakTo, bind_ok htarget rfl,
        extends_jump e l.breakTo, hΓ⟩
  | .continueLoop, loop, Γ, Γ', h, e, hΓ, hready => by
    cases h with
    | continueLoop =>
      obtain ⟨l, rest, hloops⟩ := List.exists_cons_of_ne_nil (hready.loops rfl)
      have htarget : e.scope.continueTarget = .ok l.continueTo := by
        rw [Scope.continueTarget, hloops]
      exact ⟨true, e.jump .jump l.continueTo, bind_ok htarget rfl,
        extends_jump e l.continueTo, hΓ⟩
  | .printf format args, loop, Γ, Γ', h, e, hΓ, hready => by
    cases h with
    | printf hformat hty hverbs hargs =>
      subst hΓ
      obtain ⟨e', hprintf, hscope, hextends⟩ :=
        exists_printf hready.declares hformat hty hverbs hargs
      exact ⟨false, e', bind_ok hprintf rfl, hextends, by rw [hscope]⟩
  | .hole, _, _, _, h, _, _, _ => by cases h

theorem exists_emitStmts {functions : Name → Option Function} (f : FuncDef) :
    (ss : List Stmt) → {loop : Bool} → {Γ Γ' : Context} →
      StmtsValid functions f.ret loop Γ ss Γ' → (before : Bool) →
      (e : Emitter) → e.scope.context = Γ →
      Ready functions loop (stmtsNodes ss) e →
      ∃ ends e', emitStmts f before ss e = .ok (ends, e') ∧
        Extends (stmtsNodes ss) e e' ∧ e'.scope.context = Γ'
  | [], loop, Γ, Γ', h, before, e, hΓ, _ => by
    cases h
    exact ⟨before, e, rfl, extends_refl e, hΓ⟩
  | s :: ss, loop, Γ, Γ', h, before, e, hΓ, hready => by
    cases h with
    | cons hfirst hrest =>
      obtain ⟨ends, mid, hmid, hextends, hcontext⟩ :=
        s.emittable_of_valid f hfirst e hΓ (hready.mono (Nat.le_add_right _ _))
      have hlays := s.lays_emit f hmid
      have hnext : Ready functions loop (stmtsNodes ss) mid :=
        hready.next hextends hlays.defs fun hloop => by
          rw [hlays.loops]; exact hready.loops hloop
      obtain ⟨last, e', hlast, hlastExtends, hlastContext⟩ :=
        exists_emitStmts f ss hrest ends mid hcontext hnext
      exact ⟨last, e', bind_ok hmid hlast, hextends.trans hlastExtends,
        hlastContext⟩

end

end

end StackC
