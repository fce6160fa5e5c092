import StackC.Emit.Stmt
import StackC.Proofs.CallSites
import StackC.Proofs.WellFormed

/-!
Checking and emitting as two passes over an expression. The first pass notes the
type of every part at its place and changes nothing else, whether it succeeds or
not. The second pass looks names up once more, reads the types where they were
noted, and adds code. After a first pass that succeeds the second one does not
fail, and it adds the code of the term that checking gives.
-/

namespace StackC

/-! ### Parts of an expression -/

/-- A place in an expression: the numbers of the parts on the way to it. -/
abbrev TreePath := List Nat

/-- An operand or argument by its number. -/
def Expr.child? : Expr → Nat → Option Expr
  | .binary _ left _, 0 => some left
  | .binary _ _ right, 1 => some right
  | .call _ args, i => args[i]?
  | .addr x, 0 | .deref x, 0 => some x
  | _, _ => none

def Expr.part? : Expr → TreePath → Option Expr
  | x, [] => some x
  | x, i :: q => (x.child? i).bind (·.part? q)

variable {i : Nat}

theorem Expr.of_child?_binary {op : Operator} {left right y : Expr}
    (h : (Expr.binary op left right).child? i = some y) :
    i = 0 ∧ y = left ∨ i = 1 ∧ y = right := by
  rcases i with _ | _ | i <;> cases h
  · exact Or.inl ⟨rfl, rfl⟩
  · exact Or.inr ⟨rfl, rfl⟩

theorem Expr.of_child?_deref {x y : Expr}
    (h : (Expr.deref x).child? i = some y) : i = 0 ∧ y = x := by
  cases i <;> cases h
  exact ⟨rfl, rfl⟩

theorem Expr.of_child?_addr {x y : Expr} (h : (Expr.addr x).child? i = some y) :
    i = 0 ∧ y = x := by
  cases i <;> cases h
  exact ⟨rfl, rfl⟩

/-- Whether an expression has an address. -/
def Expr.isPlace : Expr → Bool
  | .var _ | .deref _ => true
  | _ => false

/-! ### Passes -/

/-- An emitter, and the types that have been noted for places, latest first. -/
structure Notebook where
  emitter : Emitter := {}
  types : List (TreePath × Ty) := []
  deriving DecidableEq, Repr

def Notebook.withOut (s : Notebook) (o : Output) : Notebook :=
  { s with emitter := { s.emitter with out := o } }

/-- Why the second pass fails: an error that checking should have found, or a
type that was not noted. -/
inductive Trouble where
  | refused (e : ProgramError)
  | untyped (path : TreePath)
  deriving DecidableEq, Repr

/-- A pass over an expression. What it has changed when it fails stays
changed. -/
abbrev Pass (ε : Type) := EStateM ε Notebook

namespace Pass

def fromExcept (r : Except ε α) : Pass ε α := fun s =>
  match r with
  | .ok a => .ok a s
  | .error e => .error e s

def note (p : TreePath) (ty : Ty) : Pass ε Ty := fun s =>
  .ok ty { s with types := (p, ty) :: s.types }

def noted (p : TreePath) : Pass Trouble Ty := fun s =>
  match s.types.lookup p with
  | some ty => .ok ty s
  | none => .error (.untyped p) s

def add (f : Output → Output) : Pass ε Unit := fun s =>
  .ok () (s.withOut (f s.emitter.out))

def resolve (name : Name) : Pass ProgramError LocalVar := fun s =>
  fromExcept (s.emitter.scope.resolve name) s

def lookup (name : Name) (count : Nat) : Pass ProgramError FuncDef := fun s =>
  fromExcept (s.emitter.out.funcs.lookup name count) s

/-- A part of the first pass as a part of the second. -/
def again (x : Pass ProgramError α) : Pass Trouble α := fun s =>
  match x s with
  | .ok a s => .ok a s
  | .error e s => .error (.refused e) s

end Pass

open Pass

mutual

/-- The first pass: the type of an expression at the place `p`. -/
def Expr.checkAt : Expr → TreePath → Pass ProgramError Ty
  | .int _ ty, p => note p (ty.getD .int)
  | .str _, p => note p (.pointer .char)
  | .var name, p => do
    let v ← resolve name
    note p v.ty
  | .binary op left right, p => do
    let l ← left.checkAt (p ++ [0])
    let r ← right.checkAt (p ++ [1])
    let (lt, rt) := operandTypes op left right l r
    let ty ← fromExcept (typed (Ty.binary op lt rt))
    note p ty
  | .call name args, p => do
    let f ← lookup name args.length
    checkArgsAt name f.params args p 0
    note p f.ret
  | .addr x, p =>
    if x.isPlace then do
      let ty ← x.checkAt (p ++ [0])
      note p (.pointer ty)
    else throw (.typing (.notAddressable x.render))
  | .deref x, p => do
    let t ← x.checkAt (p ++ [0])
    let ty ← fromExcept (typed t.deref)
    note p ty
  | .hole, _ => throw .emptyExpr

def checkArgsAt (f : Name) :
    List Param → List Expr → TreePath → Nat → Pass ProgramError Unit
  | q :: ps, x :: xs, p, k => do
    let t ← x.checkAt (p ++ [k])
    fromExcept
      (located (.argument (k + 1) f) (typed (Ty.checkAssign q.ty t x.isZero)))
    checkArgsAt f ps xs p (k + 1)
  | _, _, _, _ => pure ()

end

mutual

/-- The second pass: adds the code of an expression at the place `p`. -/
def Expr.emitAt : Expr → TreePath → Pass Trouble Unit
  | .int v _, _ => add (·.emit { op := .push, operand := v })
  | .str s, _ => add (·.emitString s)
  | .var name, _ => do
    let v ← again (resolve name)
    add (·.emit
      { op := if v.ty.isArray then .addrLocal else .loadLocal,
        operand := v.operand })
  | .binary op left right, p => do
    let l ← noted (p ++ [0])
    let r ← noted (p ++ [1])
    let lt := l.decay
    let rt := r.decay
    if lt.isInteger && rt.isInteger then
      let c := Ty.common lt rt
      left.emitAt (p ++ [0])
      add (·.emitAll (convertCode c lt))
      right.emitAt (p ++ [1])
      add (·.emitAll (convertCode c rt))
      add (·.emitAll (integerCode op c))
    else
      left.emitAt (p ++ [0])
      add (·.emitAll (scaleLeftCode op lt rt))
      right.emitAt (p ++ [1])
      add (·.emitAll (scaleRightCode op lt rt))
      add (·.emitAll (pointerCode op lt rt))
  | .call name args, p => do
    let f ← again (lookup name args.length)
    emitArgsAt f.params args p 0
    add (·.emit { op := .frame, operand := Int64.ofNat f.params.length })
    add (·.emitCall f)
  | .addr (.var name), _ => do
    let v ← again (resolve name)
    add (·.emit { op := .addrLocal, operand := v.operand })
  | .addr (.deref x), p => x.emitAt (p ++ [0] ++ [0])
  | .addr x, _ => throw (.refused (.typing (.notAddressable x.render)))
  | .deref x, p => do
    x.emitAt (p ++ [0])
    let t ← noted p
    if t.isArray then pure () else add (·.emit { op := .load })
  | .hole, _ => throw (.refused .emptyExpr)

def emitArgsAt : List Param → List Expr → TreePath → Nat → Pass Trouble Unit
  | q :: ps, x :: xs, p, k => do
    x.emitAt (p ++ [k])
    let t ← noted (p ++ [k])
    add (·.emitAll (convertCode q.ty t))
    emitArgsAt ps xs p (k + 1)
  | _, _, _, _ => pure ()

end

/-! ### Types that are noted -/

/-- Every part of an expression at the place `p` has the type noted that
checking gives it. -/
def Notes (types : List (TreePath × Ty)) (s : Scope) (t : Functions)
    (p : TreePath) (x : Expr) : Prop :=
  ∀ q y, x.part? q = some y →
    ∃ a, check s t y = .ok a ∧ types.lookup (p ++ q) = some a.ty

/-- Only the types of places in `p` may differ. -/
def SameOutside (p : TreePath) (types types' : List (TreePath × Ty)) : Prop :=
  ∀ q, ¬ p <+: q → types'.lookup q = types.lookup q

section

variable {types types' types'' : List (TreePath × Ty)} {s : Scope}
  {t : Functions} {p : TreePath} {x y : Expr} {a : Term}

theorem Notes.self (h : Notes types s t p x) (hx : check s t x = .ok a) :
    types.lookup p = some a.ty := by
  obtain ⟨b, hb, htype⟩ := h [] x rfl
  cases hx.symm.trans hb
  rwa [List.append_nil] at htype

variable {i : Nat} {ty : Ty}

theorem Notes.child (h : Notes types s t p x) (hy : x.child? i = some y) :
    Notes types s t (p ++ [i]) y := by
  intro q z hz
  rw [List.append_assoc]
  exact h (i :: q) z (Option.bind_eq_some_iff.mpr ⟨y, hy, hz⟩)

theorem Notes.of_children (hx : check s t x = .ok a)
    (htype : types.lookup p = some a.ty)
    (hchildren : ∀ i y, x.child? i = some y → Notes types s t (p ++ [i]) y) :
    Notes types s t p x := by
  intro q y hy
  cases q with
  | nil =>
    cases hy
    exact ⟨a, hx, by rwa [List.append_nil]⟩
  | cons i q =>
    obtain ⟨z, hz, hy⟩ := Option.bind_eq_some_iff.mp hy
    have hpart := hchildren i z hz q y hy
    rwa [List.append_assoc] at hpart

theorem Notes.congr (h : Notes types s t p x)
    (hsame : ∀ q, types'.lookup (p ++ q) = types.lookup (p ++ q)) :
    Notes types' s t p x := by
  intro q y hy
  rw [hsame]
  exact h q y hy

theorem SameOutside.refl (p : TreePath) (types : List (TreePath × Ty)) :
    SameOutside p types types :=
  fun _ _ => rfl

theorem SameOutside.trans (h : SameOutside p types types')
    (h' : SameOutside p types' types'') : SameOutside p types types'' :=
  fun q hq => (h' q hq).trans (h q hq)

/-- A place inside `p`. -/
theorem SameOutside.of_child (h : SameOutside (p ++ [i]) types types') :
    SameOutside p types types' :=
  fun q hq => h q fun hin => hq ((List.prefix_append p [i]).trans hin)

/-- Parts with different numbers lie apart. -/
theorem not_prefix_sibling {j : Nat} (hne : i ≠ j) (q : TreePath) :
    ¬ p ++ [j] <+: p ++ [i] ++ q := by
  intro hin
  rw [List.append_assoc, List.prefix_append_right_inj, List.singleton_append,
    List.cons_prefix_cons] at hin
  exact hne hin.1.symm

theorem lookup_note_self : ((p, ty) :: types).lookup p = some ty := by
  rw [List.lookup_cons_self]

theorem lookup_note_of_ne {q : TreePath} (hne : q ≠ p) :
    ((p, ty) :: types).lookup q = types.lookup q := by
  rw [List.lookup_cons, beq_eq_false_iff_ne.mpr hne]

/-- A type that is noted for a place is noted outside its parts. -/
theorem lookup_note_child (q : TreePath) :
    ((p, ty) :: types).lookup (p ++ [i] ++ q) = types.lookup (p ++ [i] ++ q) :=
  lookup_note_of_ne fun heq => by simpa using congrArg List.length heq

theorem sameOutside_note : SameOutside p types ((p, ty) :: types) :=
  fun _ hq => lookup_note_of_ne fun heq => hq (heq ▸ List.prefix_refl p)

end

/-! ### The first pass -/

/-- A pass comes to the same as `r`, and does not change the emitter. -/
def Follows (m : Pass ε α) (s : Notebook) (r : Except ε β)
    (post : β → α → Notebook → Prop) : Prop :=
  match m s with
  | .ok a s' => s'.emitter = s.emitter ∧ ∃ b, r = .ok b ∧ post b a s'
  | .error e s' => s'.emitter = s.emitter ∧ r = .error e

section

variable {m : Pass ε α} {s s' : Notebook} {r : Except ε β}
  {post : β → α → Notebook → Prop}

theorem Pass.bind_of_ok {f : α → Pass ε γ} {a : α} (h : m s = .ok a s') :
    (m >>= f) s = f a s' := by
  show EStateM.bind m f s = f a s'
  rw [EStateM.bind, h]

theorem Pass.bind_of_error {f : α → Pass ε γ} {e : ε} (h : m s = .error e s') :
    (m >>= f) s = .error e s' := by
  show EStateM.bind m f s = .error e s'
  rw [EStateM.bind, h]

theorem Follows.bind {f : α → Pass ε γ} {g : β → Except ε δ}
    {post' : δ → γ → Notebook → Prop} (h : Follows m s r post)
    (hf : ∀ b a s', r = .ok b → s'.emitter = s.emitter → post b a s' →
      Follows (f a) s' (g b) post') : Follows (m >>= f) s (r >>= g) post' := by
  rw [Follows] at h
  split at h
  next a s' hm =>
    obtain ⟨hs', b, rfl, hpost⟩ := h
    have hrest := hf b a s' rfl hs' hpost
    rw [Follows, hs'] at hrest
    rw [Follows, bind_of_ok hm]
    exact hrest
  next e s' hm =>
    obtain ⟨hs', rfl⟩ := h
    rw [Follows, bind_of_error hm]
    exact ⟨hs', rfl⟩

theorem Follows.map {g : β → δ} {post' : δ → α → Notebook → Prop}
    (h : Follows m s r post)
    (hpost : ∀ b a s', post b a s' → post' (g b) a s') :
    Follows m s (r >>= fun b => .ok (g b)) post' := by
  rw [Follows] at h ⊢
  split at h
  next a s' hm =>
    obtain ⟨hs', b, rfl, hb⟩ := h
    exact ⟨hs', g b, rfl, hpost b a s' hb⟩
  next e s' hm =>
    obtain ⟨hs', rfl⟩ := h
    exact ⟨hs', rfl⟩

theorem follows_fromExcept (r : Except ε α) (s : Notebook) :
    Follows (fromExcept r) s r fun b a s' => a = b ∧ s' = s := by
  cases r with
  | ok a => exact ⟨rfl, a, rfl, rfl, rfl⟩
  | error e => exact ⟨rfl, rfl⟩

/-- Noting the type of an expression after the types of its parts. -/
theorem follows_note {scope : Scope} {t : Functions}
    {types : List (TreePath × Ty)} {p : TreePath} {x : Expr} {a : Term}
    (hx : check scope t x = .ok a)
    (hchildren : ∀ i y, x.child? i = some y →
      Notes s.types scope t (p ++ [i]) y)
    (hsame : SameOutside p types s.types) :
    Follows (note p a.ty : Pass ε Ty) s (.ok a) fun b ty s' => ty = b.ty ∧
      Notes s'.types scope t p x ∧ SameOutside p types s'.types := by
  refine ⟨rfl, a, rfl, rfl, .of_children hx lookup_note_self fun i y hy => ?_,
    hsame.trans sameOutside_note⟩
  exact (hchildren i y hy).congr lookup_note_child

end

def Term.address : Term → Term
  | .var v => .addrVar v
  | .deref p ty => .addrDeref p ty
  | a => a

theorem check_addr {s : Scope} {t : Functions} {x : Expr}
    (hx : x.isPlace = true) :
    check s t (.addr x) = check s t x >>= fun a => .ok a.address := by
  cases x with
  | var name =>
    simp only [check]
    cases s.resolve name <;> rfl
  | deref x =>
    simp only [check]
    cases check s t x with
    | error e => rfl
    | ok p =>
      cases hty : typed p.ty.deref
        <;> simp [hty, bind, Except.bind, pure, Except.pure, Term.address]
  | int | str | binary | call | addr | hole => cases hx

theorem Term.ty_address {s : Scope} {t : Functions} {x : Expr} {a : Term}
    (hx : x.isPlace = true) (ha : check s t x = .ok a) :
    a.address.ty = .pointer a.ty := by
  cases x with
  | var name =>
    obtain ⟨v, -, ha⟩ := ok_of_bind ha
    cases ha
    rfl
  | deref x =>
    obtain ⟨p, -, ha⟩ := ok_of_bind ha
    obtain ⟨ty, -, ha⟩ := ok_of_bind ha
    cases ha
    rfl
  | int | str | binary | call | addr | hole => cases hx

theorem check_addr_of_not_isPlace {s : Scope} {t : Functions} {x : Expr}
    (hx : x.isPlace = false) :
    check s t (.addr x) = .error (.typing (.notAddressable x.render)) := by
  cases x with
  | var | deref => cases hx
  | int | str | binary | call | addr | hole => rfl

mutual

/-- The first pass finds the type that checking gives, or fails as checking
does. It notes the types of all parts and changes no others. -/
theorem Expr.follows_checkAt {scope : Scope} {t : Functions} :
    (x : Expr) → (p : TreePath) → (s : Notebook) → s.emitter.scope = scope →
      s.emitter.out.funcs = t →
      Follows (x.checkAt p) s (check scope t x) fun a ty s' => ty = a.ty ∧
        Notes s'.types scope t p x ∧ SameOutside p s.types s'.types
  | .int v ty, p, s, _, _ =>
    follows_note rfl (fun i y hy => by cases hy) (.refl p _)
  | .str v, p, s, _, _ =>
    follows_note rfl (fun i y hy => by cases hy) (.refl p _)
  | .var name, p, s, hscope, _ => by
    have hresolve : Follows (resolve name) s (scope.resolve name) fun b a s' =>
        a = b ∧ s' = s := hscope ▸ follows_fromExcept _ s
    refine hresolve.bind fun v w s' hv _ hpost => ?_
    obtain ⟨rfl, rfl⟩ := hpost
    have hcheck : check scope t (.var name) = .ok (.var w) := bind_ok hv rfl
    exact follows_note hcheck (fun i y hy => by cases hy) (.refl p _)
  | .binary op left right, p, s, hscope, hfuncs => by
    refine (left.follows_checkAt (p ++ [0]) s hscope hfuncs).bind
      fun l lt s₁ hl hs₁ hleft => ?_
    obtain ⟨rfl, hleftNotes, hleftSame⟩ := hleft
    have hright :=
      right.follows_checkAt (p ++ [1]) s₁ (by rw [hs₁, hscope])
        (by rw [hs₁, hfuncs])
    refine hright.bind fun r rt s₂ hr hs₂ hright => ?_
    obtain ⟨rfl, hrightNotes, hrightSame⟩ := hright
    refine (follows_fromExcept _ s₂).bind fun ty ty' s₃ hty _ hpost => ?_
    obtain ⟨rfl, rfl⟩ := hpost
    refine follows_note (check_binary hl hr (ok_of_typed hty))
      (fun i y hy => ?_) (hleftSame.of_child.trans hrightSame.of_child)
    rcases Expr.of_child?_binary hy with ⟨rfl, rfl⟩ | ⟨rfl, rfl⟩
    · -- Checking the right operand has noted types for its own places only.
      exact hleftNotes.congr fun q =>
        hrightSame _ (not_prefix_sibling (by decide) q)
    · exact hrightNotes
  | .call name args, p, s, hscope, hfuncs => by
    have hlookup :
        Follows (lookup name args.length) s (t.lookup name args.length)
        fun b a s' => a = b ∧ s' = s := hfuncs ▸ follows_fromExcept _ s
    refine hlookup.bind fun f g s' hf hs' hpost => ?_
    obtain ⟨rfl, rfl⟩ := hpost
    have hlength := (Functions.of_lookup hf).2
    refine (follows_checkArgsAt name g.params args hlength p 0 s' hscope
      hfuncs).bind fun as _ s₁ has hs₁ hargs => ?_
    obtain ⟨hnotes, hsame⟩ := hargs
    have hcheck : check scope t (.call name args) = .ok (.call g as) :=
      bind_ok hf (bind_ok has rfl)
    refine follows_note hcheck (fun i y hy => ?_) fun q hq => ?_
    · have harg := hnotes i y hy
      rwa [Nat.zero_add] at harg
    · exact hsame q fun j _ hin => hq ((List.prefix_append p [j]).trans hin)
  | .addr x, p, s, hscope, hfuncs => by
    rw [Expr.checkAt]
    split
    next hplace =>
      rw [check_addr hplace]
      refine (x.follows_checkAt (p ++ [0]) s hscope hfuncs).bind
        fun a ty s₁ ha hs₁ hx => ?_
      obtain ⟨rfl, hnotes, hsame⟩ := hx
      have hcheck : check scope t (.addr x) = .ok a.address := by
        rw [check_addr hplace, ha]; rfl
      rw [← Term.ty_address hplace ha]
      refine follows_note hcheck (fun i y hy => ?_) hsame.of_child
      obtain ⟨rfl, rfl⟩ := Expr.of_child?_addr hy
      exact hnotes
    next hplace =>
      rw [check_addr_of_not_isPlace (by simpa using hplace)]
      exact ⟨rfl, rfl⟩
  | .deref x, p, s, hscope, hfuncs => by
    refine (x.follows_checkAt (p ++ [0]) s hscope hfuncs).bind
      fun a t' s₁ ha hs₁ hx => ?_
    obtain ⟨rfl, hnotes, hsame⟩ := hx
    refine (follows_fromExcept _ s₁).bind fun ty ty' s₂ hty _ hpost => ?_
    obtain ⟨rfl, rfl⟩ := hpost
    have hcheck : check scope t (.deref x) = .ok (.deref a ty') :=
      bind_ok ha (bind_ok hty rfl)
    refine follows_note hcheck (fun i y hy => ?_) hsame.of_child
    obtain ⟨rfl, rfl⟩ := Expr.of_child?_deref hy
    exact hnotes
  | .hole, p, s, _, _ => ⟨rfl, rfl⟩

theorem follows_checkArgsAt {scope : Scope} {t : Functions} (f : Name) :
    (ps : List Param) → (xs : List Expr) → ps.length = xs.length →
      (p : TreePath) → (k : Nat) → (s : Notebook) → s.emitter.scope = scope →
      s.emitter.out.funcs = t →
      Follows (checkArgsAt f ps xs p k) s (checkArgs scope t f (k + 1) ps xs)
        fun _ _ s' =>
        (∀ i x, xs[i]? = some x → Notes s'.types scope t (p ++ [k + i]) x) ∧
        ∀ q, (∀ j, k ≤ j → ¬ p ++ [j] <+: q) →
        s'.types.lookup q = s.types.lookup q
  | [], [], _, p, k, s, _, _ => ⟨rfl, [], rfl, by simp, fun _ _ => rfl⟩
  | q :: ps, x :: xs, hlength, p, k, s, hscope, hfuncs => by
    refine (x.follows_checkAt (p ++ [k]) s hscope hfuncs).bind
      fun a ty s₁ ha hs₁ hx => ?_
    obtain ⟨rfl, hnotes, hsame⟩ := hx
    refine (follows_fromExcept _ s₁).bind fun u u' s₂ hassign _ hpost => ?_
    obtain ⟨rfl, rfl⟩ := hpost
    have hrest :=
      follows_checkArgsAt f ps xs (by simpa using hlength) p (k + 1) s₂
        (by rw [hs₁, hscope]) (by rw [hs₁, hfuncs])
    refine hrest.map fun as _ s' hpost => ?_
    obtain ⟨hrestNotes, hrestSame⟩ := hpost
    refine ⟨fun i y hy => ?_, fun q hq => ?_⟩
    · cases i with
      | zero =>
        cases hy
        exact hnotes.congr fun q => hrestSame _ fun j hj =>
          not_prefix_sibling (by omega) q
      | succ i =>
        have hy := hrestNotes i y hy
        rwa [Nat.add_assoc, Nat.add_comm 1 i] at hy
    · rw [hrestSame q fun j hj => hq j (by omega)]
      exact hsame q (hq k (Nat.le_refl k))

end

/-! ### The second pass -/

/-- Whatever has been put out so far, a pass adds `f` to it, and no function
becomes known by that or gets another address. -/
def Emits (defs : List FuncDef) (s : Notebook) (m : Pass Trouble Unit)
    (f : Output → Output) : Prop :=
  ∀ o, o.funcs.defs = defs →
    m (s.withOut o) = .ok () (s.withOut (f o)) ∧ (f o).funcs.defs = defs

section

variable {defs : List FuncDef} {s : Notebook} {m m' : Pass Trouble Unit}
  {f g : Output → Output}

theorem Emits.seq (h : Emits defs s m f) (h' : Emits defs s m' g) :
    Emits defs s (m >>= fun _ => m') fun o => g (f o) := by
  intro o ho
  obtain ⟨hm, hf⟩ := h o ho
  rw [bind_of_ok hm]
  exact h' (f o) hf

theorem emits_add (hf : ∀ o, (f o).funcs.defs = o.funcs.defs) :
    Emits defs s (add f) f :=
  fun o ho => ⟨rfl, (hf o).trans ho⟩

theorem emits_pure : Emits defs s (pure ()) fun o => o :=
  fun _ ho => ⟨rfl, ho⟩

theorem emits_addOne (i : Instr) :
    Emits defs s (add (·.emit i)) fun o => o.emit i :=
  emits_add fun _ => rfl

theorem emits_addAll (is : List Instr) :
    Emits defs s (add (·.emitAll is)) fun o => o.emitAll is :=
  emits_add fun o => by rw [Output.funcs_emitAll]

theorem emits_noted {p : TreePath} {ty : Ty} {k : Ty → Pass Trouble Unit}
    (hty : s.types.lookup p = some ty) (h : Emits defs s (k ty) f) :
    Emits defs s (noted p >>= k) f := by
  intro o ho
  have hnoted : noted p (s.withOut o) = .ok ty (s.withOut o) := by
    simp only [noted, Notebook.withOut, hty]
  rw [bind_of_ok hnoted]
  exact h o ho

theorem emits_resolve {name : Name} {v : LocalVar}
    {k : LocalVar → Pass Trouble Unit}
    (hv : s.emitter.scope.resolve name = .ok v) (h : Emits defs s (k v) f) :
    Emits defs s (again (resolve name) >>= k) f := by
  intro o ho
  have hresolve : again (resolve name) (s.withOut o) = .ok v (s.withOut o) := by
    simp only [again, resolve, Notebook.withOut, hv, fromExcept]
  rw [bind_of_ok hresolve]
  exact h o ho

theorem emits_lookup {t : Functions} {name : Name} {count : Nat} {fn : FuncDef}
    {k : FuncDef → Pass Trouble Unit} (hfn : t.lookup name count = .ok fn)
    (h : Emits t.defs s (k fn) f) :
    Emits t.defs s (again (lookup name count) >>= k) f := by
  intro o ho
  have hsame : o.funcs.lookup name count = .ok fn := by
    rw [← hfn]
    simp only [Functions.lookup, Functions.find?, ho]
  have hlookup :
      again (lookup name count) (s.withOut o) = .ok fn (s.withOut o) := by
    simp only [again, lookup, Notebook.withOut, hsame, fromExcept]
  rw [bind_of_ok hlookup]
  exact h o ho

end

mutual

/-- After a first pass that has succeeded, the second pass adds the code of the
term. -/
theorem Expr.emits_emitAt {t : Functions} {s : Notebook} :
    (x : Expr) → {a : Term} → (p : TreePath) →
      check s.emitter.scope t x = .ok a → Notes s.types s.emitter.scope t p x →
      Emits t.defs s (x.emitAt p) a.emit
  | .int v ty, a, p, h, _ => by
    cases h
    exact emits_add fun _ => rfl
  | .str v, a, p, h, _ => by
    cases h
    exact emits_add fun _ => rfl
  | .var name, a, p, h, _ => by
    obtain ⟨v, hv, h⟩ := ok_of_bind h
    cases h
    exact emits_resolve hv (emits_add fun _ => rfl)
  | .binary op left right, a, p, h, hnotes => by
    obtain ⟨l, hl, h⟩ := ok_of_bind h
    obtain ⟨r, hr, h⟩ := ok_of_bind h
    obtain ⟨ty, hty, h⟩ := ok_of_bind h
    cases h
    have hleftNotes : Notes s.types s.emitter.scope t (p ++ [0]) left :=
      hnotes.child rfl
    have hrightNotes : Notes s.types s.emitter.scope t (p ++ [1]) right :=
      hnotes.child rfl
    have hleft := left.emits_emitAt (p ++ [0]) hl hleftNotes
    have hright := right.emits_emitAt (p ++ [1]) hr hrightNotes
    -- Both passes read the types of the operands, so they choose the same code.
    refine emits_noted (hleftNotes.self hl)
      (emits_noted (hrightNotes.self hr) ?_)
    by_cases hint : (l.ty.decay.isInteger && r.ty.decay.isInteger) = true
    · have hcode :=
        hleft.seq
          ((emits_addAll
            (convertCode (Ty.common l.ty.decay r.ty.decay) l.ty.decay)).seq
            (hright.seq
              ((emits_addAll
                (convertCode (Ty.common l.ty.decay r.ty.decay) r.ty.decay)).seq
                (emits_addAll
                  (integerCode op (Ty.common l.ty.decay r.ty.decay))))))
      intro o ho
      simp only [hint, if_true, Term.emit]
      exact hcode o ho
    · have hcode :=
        hleft.seq
          ((emits_addAll (scaleLeftCode op l.ty.decay r.ty.decay)).seq
            (hright.seq
              ((emits_addAll (scaleRightCode op l.ty.decay r.ty.decay)).seq
                (emits_addAll (pointerCode op l.ty.decay r.ty.decay)))))
      intro o ho
      simp only [hint, Term.emit]
      exact hcode o ho
  | .call name args, a, p, h, hnotes => by
    obtain ⟨f, hf, h⟩ := ok_of_bind h
    obtain ⟨as, has, h⟩ := ok_of_bind h
    cases h
    have hargs : ∀ i x, args[i]? = some x →
        Notes s.types s.emitter.scope t (p ++ [0 + i]) x := by
      intro i x hx
      rw [Nat.zero_add]
      exact hnotes.child hx
    have hcode :=
      (emits_emitArgsAt name f.params args p 0 has hargs).seq
        ((emits_addOne
          { op := .frame, operand := Int64.ofNat f.params.length }).seq
          (emits_add fun o => Output.defs_emitCall o f))
    exact emits_lookup hf hcode
  | .addr (.var name), a, p, h, _ => by
    obtain ⟨v, hv, h⟩ := ok_of_bind h
    cases h
    exact emits_resolve hv (emits_add fun _ => rfl)
  | .addr (.deref x), a, p, h, hnotes => by
    obtain ⟨b, hb, h⟩ := ok_of_bind h
    obtain ⟨ty, hty, h⟩ := ok_of_bind h
    cases h
    have hderef : Notes s.types s.emitter.scope t (p ++ [0]) (.deref x) :=
      hnotes.child rfl
    have hcode := x.emits_emitAt (p ++ [0] ++ [0]) hb (hderef.child rfl)
    intro o ho
    rw [Term.emit]
    exact hcode o ho
  | .addr (.int ..), a, p, h, _ | .addr (.str _), a, p, h,
    _ | .addr (.binary ..), a, p, h, _
  | .addr (.call ..), a, p, h, _ | .addr (.addr _), a, p, h, _
  | .addr .hole, a, p, h, _ => by cases h
  | .deref x, a, p, h, hnotes => by
    have hself := hnotes.self h
    obtain ⟨b, hb, h⟩ := ok_of_bind h
    obtain ⟨ty, hty, h⟩ := ok_of_bind h
    cases h
    have hx := x.emits_emitAt (p ++ [0]) hb (hnotes.child rfl)
    have hload :
        Emits t.defs s (noted p >>= fun ty => if ty.isArray then pure ()
        else add (·.emit { op := .load })) fun o => if ty.isArray then o
        else o.emit { op := .load } := by
      refine emits_noted hself ?_
      show Emits t.defs s (if ty.isArray then pure ()
        else add (·.emit { op := .load })) _
      cases ty.isArray with
      | true => exact emits_pure
      | false => exact emits_addOne { op := .load }
    intro o ho
    rw [Term.emit]
    exact (hx.seq hload) o ho
  | .hole, a, p, h, _ => by cases h

theorem emits_emitArgsAt {t : Functions} {s : Notebook} (name : Name) :
    (ps : List Param) → (xs : List Expr) → {as : List Term} → (p : TreePath) →
      (k : Nat) → checkArgs s.emitter.scope t name (k + 1) ps xs = .ok as →
      (∀ i x, xs[i]? = some x →
        Notes s.types s.emitter.scope t (p ++ [k + i]) x) →
      Emits t.defs s (emitArgsAt ps xs p k) (emitArgs ps as)
  | [], [], as, p, k, h, _ | [], _ :: _, as, p, k, h, _
  | _ :: _, [], as, p, k, h, _ => by
    cases h
    exact emits_pure
  | q :: ps, x :: xs, as, p, k, h, hnotes => by
    obtain ⟨a, ha, h⟩ := ok_of_bind h
    obtain ⟨⟨⟩, hassign, h⟩ := ok_of_bind h
    obtain ⟨rest, hrest, h⟩ := ok_of_bind h
    cases h
    have hfirst : Notes s.types s.emitter.scope t (p ++ [k]) x := hnotes 0 x rfl
    have hothers : ∀ i y, xs[i]? = some y →
        Notes s.types s.emitter.scope t (p ++ [k + 1 + i]) y := by
      intro i y hy
      rw [Nat.add_assoc, Nat.add_comm 1 i]
      exact hnotes (i + 1) y hy
    have hconvert :
        Emits t.defs s (noted (p ++ [k]) >>= fun ty =>
        add (·.emitAll (convertCode q.ty ty)) >>= fun _ =>
        emitArgsAt ps xs p (k + 1)) fun o =>
        emitArgs ps rest (o.emitAll (convertCode q.ty a.ty)) :=
      emits_noted (hfirst.self ha)
        ((emits_addAll _).seq
          (emits_emitArgsAt name ps xs p (k + 1) hrest hothers))
    exact (x.emits_emitAt (p ++ [k]) ha hfirst).seq hconvert

end

/-- In every notebook and for every expression: if checking fails, the first
pass fails with the same error and the emitter is as it was. If checking gives a
term, the first pass gives its type, leaves the emitter as it was and notes the
types of all parts; and the second pass succeeds then and adds the code of the
term. That changes no instruction, no signature and no address that is there,
nor the variables, and of the calls that are added exactly those of functions
without an address wait for one. -/
theorem Notebook.check_and_emit_agree (s : Notebook) (x : Expr) (p : TreePath) :
    (∀ e, s.emitter.check x = .error e →
      ∃ s', x.checkAt p s = .error e s' ∧ s'.emitter = s.emitter) ∧
    ∀ a, s.emitter.check x = .ok a →
      ∃ s', x.checkAt p s = .ok a.ty s' ∧ s'.emitter = s.emitter ∧
        Notes s'.types s.emitter.scope s.emitter.out.funcs p x ∧
        x.emitAt p s' = .ok () { s' with emitter := s.emitter.emitTerm a } ∧
        (s.emitter.emitTerm a).scope = s.emitter.scope ∧
        ∃ cs : List CallSite, cs.map (·.function.name) = x.calls ∧
          (∀ c ∈ cs, s.emitter.out.funcs.find? c.function.name =
            some c.function) ∧
          s.emitter.out.Appends (s.emitter.emitTerm a).out cs := by
  have hfirst := x.follows_checkAt p s rfl rfl
  rw [Follows] at hfirst
  constructor
  · intro e he
    split at hfirst
    next ty s' hpass =>
      obtain ⟨-, a, ha, -⟩ := hfirst
      cases he.symm.trans ha
    next e' s' hpass =>
      cases he.symm.trans hfirst.2
      exact ⟨s', hpass, hfirst.1⟩
  · intro a ha
    split at hfirst
    next ty s' hpass =>
      obtain ⟨hs', b, hb, rfl, hnotes, -⟩ := hfirst
      cases ha.symm.trans hb
      refine ⟨s', hpass, hs', hnotes, ?_, rfl, ?_⟩
      · obtain ⟨emitter, types⟩ := s'
        obtain rfl : emitter = s.emitter := hs'
        exact (Expr.emits_emitAt (s := ⟨s.emitter, types⟩) x p ha hnotes
          s.emitter.out rfl).1
      · obtain ⟨hresolves, hcallsIn⟩ := resolves_of_check x ha
        obtain ⟨cs, hcs, happends⟩ := a.appends_emit s.emitter.out
        refine ⟨cs, ?_, fun c hc => ?_, happends⟩
        · rw [← hresolves.calls, ← hcs, List.map_map]
          rfl
        · exact a.find?_of_mem_calls hcallsIn c.function
            (hcs ▸ List.mem_map_of_mem hc)
    next e s' hpass => cases ha.symm.trans hfirst.2

/-- An array `a`, a function `f` with an address and a function `g` without one;
a call already waits for `g`. -/
def halfDefined : Notebook where
  emitter :=
    { out :=
        { draft := { lines := #[{ instr := { op := .call, operand := -1 },
                                  isOpen := true }] }
          funcs :=
            { defs :=
                [{ ret := .int, name := text "f",
                   params := [⟨.pointer .char, text "s"⟩, ⟨.int, text "n"⟩]
                   entry := 0 },
                  { ret := .char, name := text "g",
                    params := [⟨.int, text "n"⟩] }]
              waiting := [(text "g", 0)] } }
      scope :=
        { params := [{ ty := .array .int 4, name := text "a", isParam := false,
                       slot := 1 }], cellCount := 4 } }

/-- In `f("s", a[g(g(1))])` both calls of `g` wait, and that of `f` does not. In
`g(1) + b` the second operand is refused after the first was checked. -/
theorem Notebook.check_and_emit_agree_halfDefined :
    let g (x : Expr) : Expr := .call (text "g") [x]
    let one : Expr := .int 1 none
    let x : Expr :=
      .call (text "f") [.str (text "s"),
        .deref (.binary .add (.var (text "a")) (g (g one)))]
    let y : Expr := .binary .add (g one) (.var (text "b"))
    (∃ s', x.checkAt [] halfDefined = .ok .int s' ∧
      s'.emitter = halfDefined.emitter ∧
      s'.types.lookup [1, 0, 1, 0] = some .char ∧ ∃ s'',
      x.emitAt [] s' = .ok () s'' ∧
      s''.emitter.scope = halfDefined.emitter.scope ∧
      s''.emitter.out.funcs.waiting =
      [(text "g", 7), (text "g", 5), (text "g", 0)] ∧
      s''.emitter.out.funcs.defs = halfDefined.emitter.out.funcs.defs ∧
      ∃ cs : List CallSite,
      cs.map (·.function.name) = [text "g", text "g", text "f"] ∧
      halfDefined.emitter.out.Appends s''.emitter.out cs) ∧
    ∃ s', y.checkAt [] halfDefined = .error (.unresolvedName (text "b")) s' ∧
      s'.emitter = halfDefined.emitter := by
  intro g one x y
  obtain ⟨-, haccepts⟩ := check_and_emit_agree halfDefined x []
  obtain ⟨hrefuses, -⟩ := check_and_emit_agree halfDefined y []
  have hx : ∃ a, halfDefined.emitter.check x = .ok a ∧ a.ty = .int ∧
      (a.emit halfDefined.emitter.out).funcs.waiting =
      [(text "g", 7), (text "g", 5), (text "g", 0)] := by
    refine ⟨_, rfl, ?_, ?_⟩
    · decide +kernel
    · decide +kernel
  obtain ⟨a, ha, hty, hwaiting⟩ := hx
  obtain ⟨s', hfirst, hsame, hnotes, hsecond, hscope, cs, hcs, -, happends⟩ :=
    haccepts a ha
  rw [hty] at hfirst
  refine ⟨⟨s', hfirst, hsame, ?_, _, hsecond, hscope, hwaiting, happends.defs,
    cs, hcs, happends⟩, hrefuses _ rfl⟩
  obtain ⟨b, hb, hnoted⟩ := hnotes [1, 0, 1, 0] (g one) rfl
  cases hb
  exact hnoted

end StackC
