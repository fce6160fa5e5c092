import StackC.Proofs.Locals

/-!
The rules of well-formed programs, stated without the checker and without code.
A place of a program has a context: the names that are visible there, by scope.
The rules say which expressions have which types in a context and how a
statement changes the context. Main statements: checking an expression succeeds
exactly if it has a type, and whatever is turned into code follows the rules.
-/

namespace StackC

/-- The variables that are visible at a place, with their types: the scopes
around the place from the innermost outwards, and in each scope the latest
declaration first. -/
abbrev Context := List (List (Name × Ty))

/-- The type of the variable that a name means. A declaration hides those of the
scopes around it. -/
def Context.type? (Γ : Context) (name : Name) : Option Ty :=
  (Γ.flatten.find? (·.1 == name)).map (·.2)

/-- Types of variables: arrays have a positive length, and there is no storage
for `void`. -/
def Ty.Storable : Ty → Prop
  | .base b _ => b ≠ .void
  | .pointer _ => True
  | .array elem len => 0 < len.toInt ∧ elem.Storable

/-! ### Rules -/

mutual

/-- `HasType functions Γ x ty`: where the variables of `Γ` are visible and
`functions` gives the declared functions, the expression `x` has type `ty`. -/
inductive HasType (functions : Name → Option Function) (Γ : Context) :
    Expr → Ty → Prop
  | int (v : Cell) (ty : Option Ty) :
    HasType functions Γ (.int v ty) (ty.getD .int)
  | str (s : Bytes) : HasType functions Γ (.str s) (.pointer .char)
  | var {name : Name} {ty : Ty} (hvisible : Γ.type? name = some ty) :
    HasType functions Γ (.var name) ty
  | binary {op : Operator} {left right : Expr} {l r ty : Ty}
    (hleft : HasType functions Γ left l) (hright : HasType functions Γ right r)
    (hop : Ty.binary op l.decay r.decay = .ok ty) :
    HasType functions Γ (.binary op left right) ty
  | compareZero {op : Operator} {left right : Expr} {l r : Ty}
    (hop : op.isComparison = true) (hleft : HasType functions Γ left l)
    (hpointer : l.decay.isPointer = true) (hright : HasType functions Γ right r)
    (hzero : right.isZero = true) :
    HasType functions Γ (.binary op left right) .int
  | zeroCompare {op : Operator} {left right : Expr} {l r : Ty}
    (hop : op.isComparison = true) (hleft : HasType functions Γ left l)
    (hzero : left.isZero = true) (hright : HasType functions Γ right r)
    (hpointer : r.decay.isPointer = true) :
    HasType functions Γ (.binary op left right) .int
  | call {name : Name} {args : List Expr} {f : Function}
    (hdeclared : functions name = some f)
    (hargs : ArgsFit functions Γ f.params args) :
    HasType functions Γ (.call name args) f.ret
  | addrVar {name : Name} {ty : Ty} (hvisible : Γ.type? name = some ty) :
    HasType functions Γ (.addr (.var name)) (.pointer ty)
  | addrDeref {x : Expr} {p ty : Ty} (hx : HasType functions Γ x p)
    (hderef : p.deref = .ok ty) :
    HasType functions Γ (.addr (.deref x)) (.pointer ty)
  | deref {x : Expr} {p ty : Ty} (hx : HasType functions Γ x p)
    (hderef : p.deref = .ok ty) : HasType functions Γ (.deref x) ty

/-- As many arguments as parameters, and each may be stored into its
parameter. -/
inductive ArgsFit (functions : Name → Option Function) (Γ : Context) :
    List Param → List Expr → Prop
  | nil : ArgsFit functions Γ [] []
  | cons {p : Param} {ps : List Param} {x : Expr} {xs : List Expr} {ty : Ty}
    (hx : HasType functions Γ x ty)
    (hassign : Ty.checkAssign p.ty ty x.isZero = .ok ())
    (hxs : ArgsFit functions Γ ps xs) : ArgsFit functions Γ (p :: ps) (x :: xs)

end

/-- An expression that can be tested for truth or printed. -/
def HasScalarType (functions : Name → Option Function) (Γ : Context)
    (x : Expr) : Prop :=
  ∃ ty, HasType functions Γ x ty ∧ ty.decay.isScalar = true

/-- An expression whose value may be stored where values of type `target`
are. -/
def FitsInto (functions : Name → Option Function) (Γ : Context) (target : Ty)
    (x : Expr) : Prop :=
  ∃ ty, HasType functions Γ x ty ∧ Ty.checkAssign target ty x.isZero = .ok ()

mutual

/-- `StmtValid functions ret loop Γ s Γ'`: in a function that returns `ret` the
statement `s` may stand in the context `Γ`, inside a loop if `loop` tells so,
and `Γ'` is the context after it. -/
inductive StmtValid (functions : Name → Option Function) (ret : Ty) :
    (loop : Bool) → Context → Stmt → Context → Prop
  | block {loop : Bool} {Γ Γ' : Context} {body : List Stmt}
    (hbody : StmtsValid functions ret loop ([] :: Γ) body Γ') :
    StmtValid functions ret loop Γ (.block body) Γ
  | decl {loop : Bool} {scope : List (Name × Ty)} {Γ : Context} {ty : Ty}
    {name : Name} (hty : ty.Storable) (hnew : name ∉ scope.map (·.1)) :
    StmtValid functions ret loop (scope :: Γ) (.decl ty name)
      (((name, ty) :: scope) :: Γ)
  | init {loop : Bool} {scope : List (Name × Ty)} {Γ : Context} {ty : Ty}
    {name : Name} {value : Expr} (hty : ty.Storable)
    (hnew : name ∉ scope.map (·.1)) (harray : ty.isArray = false)
    (hvalue : FitsInto functions (((name, ty) :: scope) :: Γ) ty value) :
    StmtValid functions ret loop (scope :: Γ) (.init ty name value)
      (((name, ty) :: scope) :: Γ)
  | assignVar {loop : Bool} {Γ : Context} {name : Name} {value : Expr} {ty : Ty}
    (hvisible : Γ.type? name = some ty)
    (hvalue : FitsInto functions Γ ty value) :
    StmtValid functions ret loop Γ (.assign (.var name) value) Γ
  | assignDeref {loop : Bool} {Γ : Context} {x value : Expr} {p ty : Ty}
    (hx : HasType functions Γ x p) (hderef : p.deref = .ok ty)
    (hvalue : FitsInto functions Γ ty value) :
    StmtValid functions ret loop Γ (.assign (.deref x) value) Γ
  | retNone {loop : Bool} {Γ : Context} (hvoid : ret.isVoid = true) :
    StmtValid functions ret loop Γ (.ret none) Γ
  | retSome {loop : Bool} {Γ : Context} {value : Expr}
    (hvoid : ret.isVoid = false) (hvalue : FitsInto functions Γ ret value) :
    StmtValid functions ret loop Γ (.ret (some value)) Γ
  | expr {loop : Bool} {Γ : Context} {x : Expr} {ty : Ty}
    (hx : HasType functions Γ x ty) : StmtValid functions ret loop Γ (.expr x) Γ
  | ifThen {loop : Bool} {Γ Γ' : Context} {cond : Expr} {body : Stmt}
    (hcond : HasScalarType functions Γ cond)
    (hbody : StmtValid functions ret loop ([] :: Γ) body Γ') :
    StmtValid functions ret loop Γ (.ifThen cond body) Γ
  | ifElse {loop : Bool} {Γ Γ' Γ'' : Context} {cond : Expr} {body orElse : Stmt}
    (hcond : HasScalarType functions Γ cond)
    (hbody : StmtValid functions ret loop ([] :: Γ) body Γ')
    (helse : StmtValid functions ret loop ([] :: Γ) orElse Γ'') :
    StmtValid functions ret loop Γ (.ifElse cond body orElse) Γ
  | whileDo {loop : Bool} {Γ Γ' : Context} {cond : Expr} {body : Stmt}
    (hcond : HasScalarType functions Γ cond)
    (hbody : StmtValid functions ret true ([] :: Γ) body Γ') :
    StmtValid functions ret loop Γ (.whileDo cond body) Γ
  | breakLoop {Γ : Context} : StmtValid functions ret true Γ .breakLoop Γ
  | continueLoop {Γ : Context} : StmtValid functions ret true Γ .continueLoop Γ
  | printf {loop : Bool} {Γ : Context} {format : Expr} {args : List Expr}
    {ty : Ty} (hformat : HasType functions Γ format ty)
    (hty : ty.decay.isFormat = true)
    (hverbs : ∀ s, format = .str s → countVerbs s = .ok args.length)
    (hargs : ∀ x ∈ args, HasScalarType functions Γ x) :
    StmtValid functions ret loop Γ (.printf format args) Γ

/-- The same for statements in turn; a declaration is visible in those after
it. -/
inductive StmtsValid (functions : Name → Option Function) (ret : Ty) :
    (loop : Bool) → Context → List Stmt → Context → Prop
  | nil {loop : Bool} {Γ : Context} : StmtsValid functions ret loop Γ [] Γ
  | cons {loop : Bool} {Γ Γ' Γ'' : Context} {s : Stmt} {ss : List Stmt}
    (hfirst : StmtValid functions ret loop Γ s Γ')
    (hrest : StmtsValid functions ret loop Γ' ss Γ'') :
    StmtsValid functions ret loop Γ (s :: ss) Γ''

end

def Function.paramScope (f : Function) : List (Name × Ty) :=
  (f.params.map fun p => (p.name, p.ty)).reverse

structure FunctionValid (functions : Name → Option Function) (f : Function) :
    Prop where
  ret : f.ret.isVoid = true ∨ f.ret.isScalar = true
  params : ∀ p ∈ f.params, p.ty.isScalar = true
  names : (f.params.map (·.name)).Nodup
  body : ∃ Γ, StmtValid functions f.ret false [f.paramScope] (.block f.body) Γ

def declared (fs : List Function) (name : Name) : Option Function :=
  fs.find? (·.name == name)

structure WellFormed (fs : List Function) : Prop where
  names : (fs.map (·.name)).Nodup
  main : ∃ f ∈ fs, f.name = mainName ∧ f.params = []
  functions : ∀ f ∈ fs, FunctionValid (declared fs) f

/-! ### Scopes and tables of functions -/

variable {name : Name} {op : Operator} {x : Expr}

theorem Ty.storable_iff {ty : Ty} :
    checkStorable name ty = .ok () ↔ ty.Storable := by
  induction ty with
  | base b unsigned => cases b <;> simp [checkStorable, Storable]
  | pointer elem => simp [checkStorable, Storable]
  | array elem len ih =>
    by_cases hlen : len.toInt ≤ 0
    · simp [checkStorable, Storable, hlen]
    · simp [checkStorable, Storable, hlen, ih, Int.not_le.mp hlen]

def Scope.context (s : Scope) : Context :=
  (s.blocks ++ [s.params]).map fun b => b.map fun v => (v.name, v.ty)

namespace Scope

variable {s s' : Scope}

theorem type?_context (s : Scope) (name : Name) :
    s.context.type? name = (s.find? name).map (·.ty) := by
  have hflat : s.context.flatten = s.visible.map fun v => (v.name, v.ty) := by
    simp [context, visible, List.map_flatten]
  rw [find?_eq_visible, Context.type?, hflat, List.find?_map, Option.map_map]
  rfl

@[simp] theorem context_enter (s : Scope) : s.enter.context = [] :: s.context :=
  rfl

@[simp] theorem context_enterLoop (s : Scope) (l : Loop) :
    (s.enterLoop l).context = s.context := rfl

@[simp] theorem context_resume (s inner : Scope) :
    (s.resume inner).context = s.context := rfl

theorem context_eq (s : Scope) :
    s.context = (s.innermost.map fun v => (v.name, v.ty)) ::
      s.context.tail := by
  cases hblocks : s.blocks <;> simp [context, innermost, hblocks]

theorem context_put (s : Scope) (v : LocalVar) :
    (s.put v).context = ((v.name, v.ty) :: s.innermost.map fun v =>
      (v.name, v.ty)) :: s.context.tail := by
  cases hblocks : s.blocks <;> simp [context, innermost, put, hblocks]

variable {name : Name}

theorem find?_innermost_iff : (Block.find? s.innermost name).isSome = true ↔
    name ∈ (s.innermost.map fun v => (v.name, v.ty)).map (·.1) := by
  simp [Block.find?]

theorem context_addLocal {ty : Ty} {v : LocalVar}
    (h : s.addLocal ty name = .ok (v, s')) :
    name ∉ (s.innermost.map fun v => (v.name, v.ty)).map (·.1) ∧ v.ty = ty ∧
      s'.context = ((name, ty) :: s.innermost.map fun v => (v.name, v.ty)) ::
        s.context.tail := by
  simp only [addLocal] at h
  obtain ⟨hnew, h⟩ := ok_of_else h
  cases h
  exact ⟨fun hold => hnew (find?_innermost_iff.mpr hold), rfl, context_put s _⟩

theorem addLocal_of_new {ty : Ty}
    (hnew : name ∉ (s.innermost.map fun v => (v.name, v.ty)).map (·.1)) :
    ∃ v s', s.addLocal ty name = .ok (v, s') := by
  have hnone : ¬ (Block.find? s.innermost name).isSome = true :=
    fun hold => hnew (find?_innermost_iff.mp hold)
  exact ⟨_, _, by rw [addLocal, if_neg hnone]⟩

end Scope

/-- A table of functions has exactly the given functions. -/
def Functions.Declares (t : Functions) (functions : Name → Option Function) :
    Prop :=
  ∀ name, (t.find? name).map FuncDef.erase =
    (functions name).map Function.signature

theorem Functions.Declares.of_defs {t t' : Functions}
    {functions : Name → Option Function} (h : t.Declares functions)
    (hdefs : t'.defs = t.defs) : t'.Declares functions := by
  intro name
  rw [find?, hdefs]
  exact h name

/-- A function of the table is declared. -/
theorem Functions.Declares.of_find? {t : Functions}
    {functions : Name → Option Function} (h : t.Declares functions)
    {f : FuncDef} (hf : t.find? name = some f) :
    ∃ g, functions name = some g ∧ g.ret = f.ret ∧ g.params = f.params := by
  have hname := h name
  rw [hf, Option.map_some] at hname
  obtain ⟨g, hg, hsame⟩ := Option.map_eq_some_iff.mp hname.symm
  have hret : g.signature.ret = f.erase.ret := by rw [hsame]
  have hparams : g.signature.params = f.erase.params := by rw [hsame]
  exact ⟨g, hg, hret, hparams⟩

/-- A declared function is in the table. -/
theorem Functions.Declares.exists_find? {t : Functions}
    {functions : Name → Option Function} (h : t.Declares functions)
    {g : Function} (hg : functions name = some g) :
    ∃ f, t.find? name = some f ∧ f.ret = g.ret ∧ f.params = g.params := by
  have hname := h name
  rw [hg, Option.map_some] at hname
  obtain ⟨f, hf, hsame⟩ := Option.map_eq_some_iff.mp hname
  have hret : f.erase.ret = g.signature.ret := by rw [hsame]
  have hparams : f.erase.params = g.signature.params := by rw [hsame]
  exact ⟨f, hf, hret, hparams⟩

/-! ### Expressions -/

theorem Ty.binary_comparison {l r ty : Ty} (hop : op.isComparison = true)
    (h : binary op l r = .ok ty) : ty = .int := by
  unfold binary at h
  rw [if_pos hop] at h
  obtain ⟨-, h⟩ := ok_of_else h
  split at h
  next =>
    cases h
    rfl
  next =>
    obtain ⟨-, h⟩ := ok_of_then h
    cases h
    rfl
  next => cases h

theorem Ty.binary_pointer_self {p : Ty} (hop : op.isComparison = true)
    (hp : p.isPointer = true) : binary op p p = .ok .int := by
  unfold binary
  cases p with
  | pointer elem => simp [hop, isVoid, sameTarget]
  | base | array => cases hp

/-- The operand types of an operator: the rule for all operators, and those for
a comparison of a pointer with a literal 0. -/
theorem binary_operandTypes_iff {left right : Expr} {l r ty : Ty} :
    Ty.binary op (operandTypes op left right l r).1
      (operandTypes op left right l r).2 = .ok ty ↔
    Ty.binary op l.decay r.decay = .ok ty ∨
      (op.isComparison = true ∧ ty = .int ∧
        (l.decay.isPointer = true ∧ right.isZero = true ∨
          left.isZero = true ∧ r.decay.isPointer = true)) := by
  simp only [operandTypes]
  split
  next hop =>
    -- where the rule for all operators applies as well, it gives the same type
    have hcase {p : Ty} (hp : p.isPointer = true)
        (hzero : l.decay.isPointer = true ∧ right.isZero = true ∨
        left.isZero = true ∧ r.decay.isPointer = true) :
        Ty.binary op p p = .ok ty ↔ Ty.binary op l.decay r.decay = .ok ty ∨
        (op.isComparison = true ∧ ty = .int ∧
        (l.decay.isPointer = true ∧ right.isZero = true ∨ left.isZero = true ∧
        r.decay.isPointer = true)) := by
      rw [Ty.binary_pointer_self hop hp, Except.ok.injEq]
      constructor
      · exact fun heq => Or.inr ⟨hop, heq.symm, hzero⟩
      · rintro (hplain | ⟨-, rfl, -⟩)
        · exact (Ty.binary_comparison hop hplain).symm
        · rfl
    split
    next hright =>
      obtain ⟨hpointer, hzero⟩ := Bool.and_eq_true_iff.mp hright
      exact hcase hpointer (Or.inl ⟨hpointer, hzero⟩)
    next hright =>
      split
      next hleft =>
        obtain ⟨hpointer, hzero⟩ := Bool.and_eq_true_iff.mp hleft
        exact hcase hpointer (Or.inr ⟨hzero, hpointer⟩)
      next hleft =>
        constructor
        · exact Or.inl
        · rintro (hplain | ⟨-, -, ⟨hpointer, hzero⟩ | ⟨hzero, hpointer⟩⟩)
          · exact hplain
          · exact absurd (Bool.and_eq_true_iff.mpr ⟨hpointer, hzero⟩) hright
          · exact absurd (Bool.and_eq_true_iff.mpr ⟨hpointer, hzero⟩) hleft
  next hop => simp [hop]

theorem Resolves.hasType {functions : Name → Option Function} {s : Scope}
    {t : Functions} {phrase : Phrase}
    (h : Resolves s.find? t.signatures phrase) (ht : t.Declares functions) :
    match phrase with
    | .one x a => HasType functions s.context x a.ty
    | .args ps xs _ => ArgsFit functions s.context ps xs := by
  induction h with
  | int v ty => exact .int v ty
  | str v => exact .str v
  | var hv => exact .var (by rw [Scope.type?_context, hv, Option.map_some]; rfl)
  | addrVar hv =>
    exact .addrVar (by rw [Scope.type?_context, hv, Option.map_some])
  | binary _ _ hty hl hr =>
    rcases binary_operandTypes_iff.mp hty with
        hplain | ⟨hop, rfl, ⟨hpointer, hzero⟩ | ⟨hzero, hpointer⟩⟩
    · exact .binary hl hr hplain
    · exact .compareZero hop hl hpointer hr hzero
    · exact .zeroCompare hop hl hzero hr hpointer
  | @call name args f as _ hf _ hargs =>
    rw [Functions.find?_signatures] at hf
    obtain ⟨g, hg, hsame⟩ := Option.map_eq_some_iff.mp hf
    obtain ⟨d, hd, hret, hparams⟩ := ht.of_find? hg
    have hgret : g.ret = f.ret := (congrArg FuncDef.ret hsame :)
    have hgparams : g.params = f.params := (congrArg FuncDef.params hsame :)
    have hfit : ArgsFit functions s.context d.params args := by
      rw [hparams, hgparams]
      exact hargs
    have hcall := HasType.call hd hfit
    rwa [hret, hgret] at hcall
  | addrDeref _ hty hp => exact .addrDeref hp hty
  | deref _ hty hp => exact .deref hp hty
  | nil => exact .nil
  | cons _ hassign _ ha has => exact .cons ha hassign has

theorem typed_ok {r : Except TypeError α} {a : α} (h : r = .ok a) :
    typed r = .ok a := by
  rw [h]
  rfl

theorem located_ok {place : Place} {r : Except ProgramError α} {a : α}
    (h : r = .ok a) : located place r = .ok a := by
  rw [h]
  rfl

theorem Scope.resolve_of_type? {s : Scope} {ty : Ty}
    (h : s.context.type? name = some ty) :
    ∃ v, s.resolve name = .ok v ∧ v.ty = ty := by
  rw [type?_context] at h
  obtain ⟨v, hv, hty⟩ := Option.map_eq_some_iff.mp h
  exact ⟨v, by rw [resolve, hv], hty⟩

theorem ArgsFit.length_eq {functions : Name → Option Function} {Γ : Context}
    {ps : List Param} {xs : List Expr} (h : ArgsFit functions Γ ps xs) :
    ps.length = xs.length := by
  induction xs generalizing ps with
  | nil =>
    cases h
    rfl
  | cons x xs ih =>
    cases h with
    | cons _ _ hxs => rw [List.length_cons, List.length_cons, ih hxs]

section

variable {functions : Name → Option Function} {s : Scope} {t : Functions}

/-- Checking a binary operation, once its operands are checked. -/
theorem check_binary {left right : Expr} {l r : Term} {ty : Ty}
    (hl : check s t left = .ok l) (hr : check s t right = .ok r)
    (hty : Ty.binary op (operandTypes op left right l.ty r.ty).1
      (operandTypes op left right l.ty r.ty).2 = .ok ty) :
    check s t (.binary op left right) = .ok (.binary op l r ty) :=
  bind_ok hl (bind_ok hr (bind_ok (typed_ok hty) rfl))

mutual

theorem check_of_hasType (ht : t.Declares functions) : (x : Expr) → {ty : Ty} →
    HasType functions s.context x ty → ∃ a, check s t x = .ok a ∧ a.ty = ty
  | .int v ty, _, h => by
    cases h
    exact ⟨_, rfl, rfl⟩
  | .str v, _, h => by
    cases h
    exact ⟨_, rfl, rfl⟩
  | .var name, _, h => by
    cases h with
    | var hvisible =>
      obtain ⟨v, hv, hty⟩ := Scope.resolve_of_type? hvisible
      exact ⟨.var v, bind_ok hv rfl, hty⟩
  | .binary op left right, _, h => by
    cases h with
    | binary hleft hright hop =>
      obtain ⟨l, hl, rfl⟩ := check_of_hasType ht left hleft
      obtain ⟨r, hr, rfl⟩ := check_of_hasType ht right hright
      exact ⟨_,
        check_binary hl hr (binary_operandTypes_iff.mpr (Or.inl hop)), rfl⟩
    | compareZero hop hleft hpointer hright hzero =>
      obtain ⟨l, hl, rfl⟩ := check_of_hasType ht left hleft
      obtain ⟨r, hr, rfl⟩ := check_of_hasType ht right hright
      refine ⟨.binary op l r .int,
        check_binary hl hr (binary_operandTypes_iff.mpr ?_), rfl⟩
      exact Or.inr ⟨hop, rfl, Or.inl ⟨hpointer, hzero⟩⟩
    | zeroCompare hop hleft hzero hright hpointer =>
      obtain ⟨l, hl, rfl⟩ := check_of_hasType ht left hleft
      obtain ⟨r, hr, rfl⟩ := check_of_hasType ht right hright
      refine ⟨.binary op l r .int,
        check_binary hl hr (binary_operandTypes_iff.mpr ?_), rfl⟩
      exact Or.inr ⟨hop, rfl, Or.inr ⟨hzero, hpointer⟩⟩
  | .call name args, _, h => by
    cases h with
    | call hdeclared hargs =>
      obtain ⟨f, hf, hret, hparams⟩ := ht.exists_find? hdeclared
      obtain ⟨as, has⟩ :=
        checkArgs_of_argsFit ht name 1 f.params args (by rwa [hparams])
      have hlength : f.params.length = args.length := by
        rw [hparams, hargs.length_eq]
      have hlookup : t.lookup name args.length = .ok f := by
        simp only [Functions.lookup, hf, hlength, if_true]
      exact ⟨.call f as, bind_ok hlookup (bind_ok has rfl), hret⟩
  | .addr (.var name), _, h => by
    cases h with
    | addrVar hvisible =>
      obtain ⟨v, hv, rfl⟩ := Scope.resolve_of_type? hvisible
      exact ⟨.addrVar v, bind_ok hv rfl, rfl⟩
  | .addr (.deref x), _, h => by
    cases h with
    | addrDeref hx hderef =>
      obtain ⟨p, hp, rfl⟩ := check_of_hasType ht x hx
      exact ⟨.addrDeref p _, bind_ok hp (bind_ok (typed_ok hderef) rfl), rfl⟩
  | .addr (.int ..), _, h | .addr (.str _), _, h | .addr (.binary ..), _, h
  | .addr (.call ..), _, h
  | .addr (.addr _), _, h | .addr .hole, _, h => by cases h
  | .deref x, _, h => by
    cases h with
    | deref hx hderef =>
      obtain ⟨p, hp, rfl⟩ := check_of_hasType ht x hx
      exact ⟨.deref p _, bind_ok hp (bind_ok (typed_ok hderef) rfl), rfl⟩
  | .hole, _, h => by cases h

theorem checkArgs_of_argsFit (ht : t.Declares functions) (f : Name)
    (index : Nat) :
    (ps : List Param) → (xs : List Expr) → ArgsFit functions s.context ps xs →
      ∃ as, checkArgs s t f index ps xs = .ok as
  | [], [], _ => ⟨[], rfl⟩
  | p :: ps, x :: xs, h => by
    cases h with
    | cons hx hassign hxs =>
      obtain ⟨a, ha, rfl⟩ := check_of_hasType ht x hx
      obtain ⟨as, has⟩ := checkArgs_of_argsFit ht f (index + 1) ps xs hxs
      exact ⟨a :: as,
        bind_ok ha (bind_ok (located_ok (typed_ok hassign)) (bind_ok has rfl))⟩

end

/-- Checking an expression succeeds exactly if it has a type, and finds this
type. -/
theorem check_iff_hasType (ht : t.Declares functions) {ty : Ty} :
    (∃ a, check s t x = .ok a ∧ a.ty = ty) ↔
      HasType functions s.context x ty := by
  constructor
  · rintro ⟨a, ha, rfl⟩
    exact (resolves_of_check x ha).1.hasType ht
  · exact check_of_hasType ht x

theorem checkScalar_iff (ht : t.Declares functions) {what : Bytes} :
    (∃ a, checkScalar s t what x = .ok a) ↔
      HasScalarType functions s.context x := by
  constructor
  · rintro ⟨a, ha⟩
    obtain ⟨hx, -, hscalar⟩ := resolves_of_checkScalar ha
    exact ⟨a.ty, hx.hasType ht, hscalar⟩
  · rintro ⟨ty, hx, hscalar⟩
    obtain ⟨a, ha, rfl⟩ := check_of_hasType ht x hx
    exact ⟨a, bind_ok ha (if_pos hscalar)⟩

theorem checkPrinted_iff (ht : t.Declares functions) {index : Nat}
    {xs : List Expr} :
    (∃ as, checkPrinted s t index xs = .ok as) ↔
      ∀ x ∈ xs, HasScalarType functions s.context x := by
  induction xs generalizing index with
  | nil => simp [checkPrinted]
  | cons x xs ih =>
    rw [List.forall_mem_cons]
    constructor
    · rintro ⟨as, has⟩
      obtain ⟨a, ha, has⟩ := ok_of_bind has
      obtain ⟨rest, hrest, -⟩ := ok_of_bind has
      exact ⟨(checkScalar_iff ht).mp ⟨a, ha⟩, ih.mp ⟨rest, hrest⟩⟩
    · rintro ⟨hx, hxs⟩
      obtain ⟨a, ha⟩ :
          ∃ a, checkScalar s t
          (text "printf argument " ++ Numeral.decimalNat index) x = .ok a :=
        (checkScalar_iff ht).mpr hx
      obtain ⟨rest, hrest⟩ : ∃ as, checkPrinted s t (index + 1) xs = .ok as :=
        ih.mpr hxs
      exact ⟨a :: rest, bind_ok ha (bind_ok hrest rfl)⟩

theorem checkFormat_iff {count : Nat} {format : Expr} :
    checkFormat count format = .ok () ↔
      ∀ s, format = .str s → countVerbs s = .ok count := by
  cases format with
  | str s =>
    simp only [checkFormat, Expr.str.injEq, forall_eq']
    constructor
    · intro h
      obtain ⟨verbs, hverbs, h⟩ := ok_of_bind h
      obtain ⟨heq, h⟩ := ok_of_then h
      exact heq ▸ ok_of_typed hverbs
    · intro h
      exact bind_ok (typed_ok h) (if_pos rfl)
  | int | binary | var | call | addr | deref | hole => simp [checkFormat]

end

/-! ### Statements -/

theorem Emitter.scope_bind {e e' : Emitter} {l : LabelId}
    (h : e.bind l = .ok e') :
    e'.scope = e.scope ∧ e'.out.funcs = e.out.funcs := by
  simp only [bind] at h
  split at h
  next => cases h
  next =>
    cases h
    exact ⟨rfl, rfl⟩

def Scope.inLoop (s : Scope) : Bool :=
  !s.loops.isEmpty

section

variable {functions : Name → Option Function} {e e' : Emitter} {f : FuncDef}

theorem StmtValid.of_declare {ty : Ty} {name : Name} {v : LocalVar}
    {loop : Bool} (h : e.declare ty name = .ok (v, e')) :
    StmtValid functions f.ret loop e.scope.context (.decl ty name)
      e'.scope.context := by
  obtain ⟨hty, hadd, -⟩ := Emitter.of_declare h
  obtain ⟨hnew, -, hcontext⟩ := Scope.context_addLocal hadd
  rw [hcontext, Scope.context_eq e.scope]
  exact .decl (Ty.storable_iff.mp hty) hnew

variable {loop : Bool}

theorem StmtValid.of_declareInit {ty : Ty} {value : Expr}
    (ht : e.out.funcs.Declares functions)
    (h : e.declareInit ty name value = .ok e') :
    StmtValid functions f.ret loop e.scope.context (.init ty name value)
      e'.scope.context := by
  obtain ⟨⟨v, mid⟩, hdeclare, h⟩ := ok_of_bind h
  obtain ⟨hty, hadd, hout⟩ := Emitter.of_declare hdeclare
  obtain ⟨hnew, hvty, hcontext⟩ := Scope.context_addLocal hadd
  dsimp only at h
  obtain ⟨harray, h⟩ := ok_of_else h
  obtain ⟨a, ha, h⟩ := ok_of_bind h
  obtain ⟨⟨⟩, hassign, h⟩ := ok_of_bind h
  cases h
  have hvalue : HasType functions mid.scope.context value a.ty :=
    (resolves_of_check value ha).1.hasType (by rw [hout]; exact ht)
  show StmtValid functions f.ret loop e.scope.context _ mid.scope.context
  rw [hvty] at harray hassign
  rw [hcontext] at hvalue ⊢
  rw [Scope.context_eq e.scope]
  exact .init (Ty.storable_iff.mp hty) hnew (by simpa using harray)
    ⟨_, hvalue, ok_of_typed (ok_of_located hassign)⟩

theorem StmtValid.of_assign {value : Expr} (ht : e.out.funcs.Declares functions)
    (h : e.assign x value = .ok e') :
    StmtValid functions f.ret loop e.scope.context (.assign x value)
      e.scope.context ∧
    e'.scope = e.scope := by
  obtain ⟨y, hy, h⟩ := ok_of_bind h
  obtain ⟨a, ha, h⟩ := ok_of_bind h
  obtain ⟨⟨⟩, hassign, h⟩ := ok_of_bind h
  have hvalue := (resolves_of_check value ha).1.hasType ht
  rcases resolves_of_checkTarget hy with
      ⟨name, v, rfl, rfl, hv⟩ | ⟨z, p, ty, rfl, rfl, hz, -, hty⟩
  · cases h
    have hvisible : e.scope.context.type? name = some v.ty := by
      rw [Scope.type?_context, hv, Option.map_some]
    exact ⟨.assignVar hvisible ⟨_, hvalue, ok_of_typed hassign⟩, rfl⟩
  · cases h
    exact ⟨.assignDeref (hz.hasType ht) hty ⟨_, hvalue, ok_of_typed hassign⟩,
      rfl⟩

theorem StmtValid.of_giveBack {value : Option Expr}
    (ht : e.out.funcs.Declares functions) (h : e.giveBack f value = .ok e') :
    StmtValid functions f.ret loop e.scope.context (.ret value)
      e.scope.context ∧
    e'.scope = e.scope := by
  cases value with
  | none =>
    simp only [Emitter.giveBack] at h
    obtain ⟨hvoid, h⟩ := ok_of_then h
    cases h
    exact ⟨.retNone hvoid, rfl⟩
  | some value =>
    simp only [Emitter.giveBack] at h
    obtain ⟨hvoid, h⟩ := ok_of_else h
    obtain ⟨a, ha, h⟩ := ok_of_bind h
    obtain ⟨⟨⟩, hassign, h⟩ := ok_of_bind h
    cases h
    have hvalue := (resolves_of_check value ha).1.hasType ht
    exact ⟨.retSome (by simpa using hvoid)
      ⟨_, hvalue, ok_of_typed (ok_of_located hassign)⟩, rfl⟩

theorem StmtValid.of_printf {format : Expr} {args : List Expr}
    (ht : e.out.funcs.Declares functions) (h : e.printf format args = .ok e') :
    StmtValid functions f.ret loop e.scope.context (.printf format args)
      e.scope.context ∧
    e'.scope = e.scope := by
  obtain ⟨a, ha, h⟩ := ok_of_bind h
  obtain ⟨hty, h⟩ := ok_of_then h
  obtain ⟨⟨⟩, hverbs, h⟩ := ok_of_bind h
  obtain ⟨as, has, h⟩ := ok_of_bind h
  cases h
  have hformat := (resolves_of_check format ha).1.hasType ht
  exact ⟨.printf hformat hty (checkFormat_iff.mp hverbs)
    ((checkPrinted_iff ht).mp ⟨as, has⟩), rfl⟩

end

mutual

/-- Whatever is turned into code follows the rules. -/
theorem Stmt.valid_of_emit {functions : Name → Option Function} (f : FuncDef) :
    (s : Stmt) → {e e' : Emitter} → {ends : Bool} →
      s.emit f e = .ok (ends, e') → e.out.funcs.Declares functions →
      StmtValid functions f.ret e.scope.inLoop e.scope.context s
        e'.scope.context
  | .block body, e, e', ends, h, ht => by
    obtain ⟨⟨_, inner⟩, hbody, h⟩ := ok_of_bind h
    cases h
    have hleave : inner.scope.leave = e.scope.resume inner.scope :=
      (lays_emitStmts f false body hbody).scope.leave_enter
    have hvalid := stmtsValid_of_emitStmts f false body hbody ht
    rw [hleave]
    exact .block hvalid
  | .func .., _, _, _, h, _ => by cases h
  | .decl ty name, e, e', ends, h, ht => by
    obtain ⟨⟨v, _⟩, hdeclare, h⟩ := ok_of_bind h
    cases h
    exact .of_declare hdeclare
  | .init ty name value, e, e', ends, h, ht => by
    obtain ⟨_, hinit, h⟩ := ok_of_bind h
    cases h
    exact .of_declareInit ht hinit
  | .assign x value, e, e', ends, h, ht => by
    obtain ⟨_, hassign, h⟩ := ok_of_bind h
    cases h
    obtain ⟨hvalid, hscope⟩ := StmtValid.of_assign (f := f) ht hassign
    rw [hscope]
    exact hvalid
  | .ret value, e, e', ends, h, ht => by
    obtain ⟨_, hret, h⟩ := ok_of_bind h
    cases h
    obtain ⟨hvalid, hscope⟩ := StmtValid.of_giveBack ht hret
    rw [hscope]
    exact hvalid
  | .expr x, e, e', ends, h, ht => by
    obtain ⟨a, ha, h⟩ := ok_of_bind h
    cases h
    exact .expr ((resolves_of_check x ha).1.hasType ht)
  | .ifThen cond body, e, e', ends, h, ht => by
    obtain ⟨c, hcond, h⟩ := ok_of_bind h
    obtain ⟨⟨_, inner⟩, hbody, h⟩ := ok_of_bind h
    obtain ⟨_, hbind, h⟩ := ok_of_bind h
    cases h
    obtain ⟨-, hcalls, -⟩ := resolves_of_checkScalar hcond
    obtain ⟨-, hdefs, -⟩ := Emitter.test_spec hcalls
    have hleave : inner.scope.leave = e.scope.resume inner.scope :=
      (body.lays_emit f hbody).scope.leave_enter
    have hvalid := body.valid_of_emit f hbody (ht.of_defs hdefs)
    rw [(Emitter.scope_bind hbind).1, hleave]
    exact .ifThen ((checkScalar_iff ht).mp ⟨c, hcond⟩) hvalid
  | .ifElse cond body orElse, e, e', ends, h, ht => by
    obtain ⟨c, hcond, h⟩ := ok_of_bind h
    obtain ⟨⟨bodyEnds, inner⟩, hbody, h⟩ := ok_of_bind h
    obtain ⟨mid, hmid, h⟩ := ok_of_bind h
    obtain ⟨⟨_, last⟩, helse, h⟩ := ok_of_bind h
    obtain ⟨_, hbind, h⟩ := ok_of_bind h
    cases h
    obtain ⟨-, hcalls, -⟩ := resolves_of_checkScalar hcond
    obtain ⟨-, hdefs, -⟩ := Emitter.test_spec hcalls
    have hbodyLays := body.lays_emit f hbody
    have hleave : inner.scope.leave = e.scope.resume inner.scope :=
      hbodyLays.scope.leave_enter
    have hvalid := body.valid_of_emit f hbody (ht.of_defs hdefs)
    obtain ⟨hmidScope, hmidFuncs⟩ := Emitter.scope_bind hmid
    have hmidIs : mid.scope = e.scope.resume inner.scope := by
      rw [hmidScope, ← hleave]
      split <;> rfl
    have hmidDefs : mid.out.funcs.defs = e.out.funcs.defs := by
      have hinner : inner.out.funcs.defs = e.out.funcs.defs :=
        hbodyLays.defs.trans hdefs
      rw [hmidFuncs, ← hinner]
      split <;> rfl
    have helseLeave : last.scope.leave = mid.scope.resume last.scope :=
      (orElse.lays_emit f helse).scope.leave_enter
    have helseValid := orElse.valid_of_emit f helse (ht.of_defs hmidDefs)
    dsimp only [Scope.context_enter] at helseValid
    rw [hmidIs] at helseValid
    rw [(Emitter.scope_bind hbind).1, helseLeave, hmidIs]
    exact .ifElse ((checkScalar_iff ht).mp ⟨c, hcond⟩) hvalid helseValid
  | .whileDo cond body, e, e', ends, h, ht => by
    obtain ⟨c, hcond, h⟩ := ok_of_bind h
    obtain ⟨⟨_, inner⟩, hbody, h⟩ := ok_of_bind h
    obtain ⟨_, hbind, h⟩ := ok_of_bind h
    cases h
    obtain ⟨-, hcalls, -⟩ := resolves_of_checkScalar hcond
    obtain ⟨-, hdefs, -⟩ := Emitter.test_spec hcalls
    have hleave := (body.lays_emit f hbody).scope.leave_enter
    have hvalid := body.valid_of_emit f hbody (ht.of_defs hdefs)
    rw [(Emitter.scope_bind hbind).1]
    show StmtValid functions f.ret _ _ _ inner.scope.leave.leaveLoop.context
    rw [hleave]
    exact .whileDo ((checkScalar_iff ht).mp ⟨c, hcond⟩) hvalid
  | .breakLoop, e, e', ends, h, ht => by
    obtain ⟨l, hl, h⟩ := ok_of_bind h
    cases h
    obtain ⟨loop, rest, hrest, -⟩ := Scope.loop_of_breakTarget hl
    have hloop : e.scope.inLoop = true := by simp [Scope.inLoop, hrest]
    rw [hloop]
    exact .breakLoop
  | .continueLoop, e, e', ends, h, ht => by
    obtain ⟨l, hl, h⟩ := ok_of_bind h
    cases h
    obtain ⟨loop, rest, hrest, -⟩ := Scope.loop_of_continueTarget hl
    have hloop : e.scope.inLoop = true := by simp [Scope.inLoop, hrest]
    rw [hloop]
    exact .continueLoop
  | .printf format args, e, e', ends, h, ht => by
    obtain ⟨_, hprintf, h⟩ := ok_of_bind h
    cases h
    obtain ⟨hvalid, hscope⟩ := StmtValid.of_printf (f := f) ht hprintf
    rw [hscope]
    exact hvalid
  | .hole, _, _, _, h, _ => by cases h

theorem stmtsValid_of_emitStmts {functions : Name → Option Function}
    (f : FuncDef) :
    (before : Bool) → (ss : List Stmt) → {e e' : Emitter} → {ends : Bool} →
      emitStmts f before ss e = .ok (ends, e') →
      e.out.funcs.Declares functions →
      StmtsValid functions f.ret e.scope.inLoop e.scope.context ss
        e'.scope.context
  | before, [], e, e', ends, h, ht => by
    cases h
    exact .nil
  | before, s :: ss, e, e', ends, h, ht => by
    obtain ⟨⟨first, mid⟩, hfirst, h⟩ := ok_of_bind h
    have hlays := s.lays_emit f hfirst
    have hrest := stmtsValid_of_emitStmts f first ss h (ht.of_defs hlays.defs)
    rw [Scope.inLoop, hlays.loops] at hrest
    exact .cons (s.valid_of_emit f hfirst ht) hrest

end

end StackC
