import StackC.Emit.Expr
import StackC.Proofs.Growth
import StackC.Proofs.Resolve
import StackC.Proofs.Tree

/-!
Linking. The code of a term, when all addresses are known, is a list of
instructions that is put together from the codes of its parts. What is emitted
before the addresses are known grows into exactly that list: open calls are
filled when their function is defined, and string constants keep their
addresses.
-/

namespace StackC

/-- What the parts of a finished program refer to: its instructions, the
addresses of its functions and of its string constants, and the signatures of
its functions (with no address known). -/
structure Link where
  code : Array Instr
  entry : Name → Cell
  string : Bytes → Cell
  signatures : List FuncDef

/-- The instructions from `addr` on are the given ones. -/
def Link.Holds (L : Link) (addr : Nat) (is : List Instr) : Prop :=
  ∀ k i, is[k]? = some i → L.code[addr + k]? = some i

namespace Link

variable {L : Link} {addr : Nat}

@[simp] theorem holds_nil : L.Holds addr [] := by
  intro k i h
  simp at h

variable {is : List Instr}

@[simp] theorem holds_cons {i : Instr} :
    L.Holds addr (i :: is) ↔
      L.code[addr]? = some i ∧ L.Holds (addr + 1) is := by
  constructor
  · intro h
    refine ⟨h 0 i rfl, fun k j hj => ?_⟩
    have := h (k + 1) j (by simpa using hj)
    rwa [Nat.add_comm k 1, ← Nat.add_assoc] at this
  · rintro ⟨hhead, htail⟩ k j hj
    cases k with
    | zero =>
      cases hj
      exact hhead
    | succ k =>
      have := htail k j (by simpa using hj)
      rwa [Nat.add_assoc, Nat.add_comm 1 k] at this

@[simp] theorem holds_append {js : List Instr} :
    L.Holds addr (is ++ js) ↔
      L.Holds addr is ∧ L.Holds (addr + is.length) js := by
  induction is generalizing addr with
  | nil => simp
  | cons i is ih =>
    rw [List.cons_append, holds_cons, holds_cons, ih, List.length_cons,
      and_assoc, show addr + 1 + is.length = addr + (is.length + 1) by omega]

theorem Holds.length_le (h : L.Holds addr is) (hpos : 0 < is.length) :
    addr + is.length ≤ L.code.size := by
  have hlast := h (is.length - 1) _ (List.getElem?_eq_getElem (by omega))
  have := (Array.getElem?_eq_some_iff.mp hlast).1
  omega

end Link

mutual

def Term.code (L : Link) : Term → List Instr
  | .int v _ => [{ op := .push, operand := v }]
  | .str s => [{ op := .push, operand := L.string s }]
  | .var v =>
    [{ op := if v.ty.isArray then .addrLocal else .loadLocal,
       operand := v.operand }]
  | .binary op l r _ =>
    let lt := l.ty.decay
    let rt := r.ty.decay
    if lt.isInteger && rt.isInteger then
      let c := Ty.common lt rt
      l.code L ++ convertCode c lt ++
        (r.code L ++ convertCode c rt ++ integerCode op c)
    else
      l.code L ++ scaleLeftCode op lt rt ++
        (r.code L ++ scaleRightCode op lt rt ++ pointerCode op lt rt)
  | .call f args =>
    argsCode L f.params args ++
      [{ op := .frame, operand := Int64.ofNat f.params.length },
        { op := .call, operand := L.entry f.name }]
  | .addrVar v => [{ op := .addrLocal, operand := v.operand }]
  | .addrDeref p _ => p.code L
  | .deref p t => if t.isArray then p.code L else p.code L ++ [{ op := .load }]

def argsCode (L : Link) : List Param → List Term → List Instr
  | p :: ps, a :: as => a.code L ++ convertCode p.ty a.ty ++ argsCode L ps as
  | _, _ => []

end

def termsCode (L : Link) (ts : List Term) : List Instr :=
  ts.flatMap (Term.code L)

mutual

/-- The string constants in the code of a term, in its order. -/
def Term.strings : Term → List Bytes
  | .str s => [s]
  | .binary _ l r _ => l.strings ++ r.strings
  | .call f args => argsStrings f.params args
  | .addrDeref p _ | .deref p _ => p.strings
  | .int .. | .var _ | .addrVar _ => []

def argsStrings : List Param → List Term → List Bytes
  | _ :: ps, a :: as => a.strings ++ argsStrings ps as
  | _, _ => []

end

/-- A term has the string constants of the expression that stands for it. -/
theorem Resolves.strings {vars : Name → Option LocalVar}
    {signatures : List FuncDef} {phrase : Phrase}
    (h : Resolves vars signatures phrase) :
    match phrase with
    | .one x a => a.strings = x.strings
    | .args ps xs as => argsStrings ps as = exprsStrings xs := by
  induction h with
  | int | str | var | addrVar | nil => rfl
  | binary _ _ _ hl hr => simp [Term.strings, Expr.strings, hl, hr]
  | call _ _ _ hargs => simpa [Term.strings, Expr.strings] using hargs
  | addrDeref _ _ hp | deref _ _ hp =>
    simpa [Term.strings, Expr.strings] using hp
  | cons _ _ _ ha has => simp [argsStrings, exprsStrings, ha, has]

theorem Printed.strings {vars : Name → Option LocalVar}
    {signatures : List FuncDef} {xs : List Expr} {as : List Term}
    (h : Printed vars signatures xs as) :
    as.flatMap Term.strings = exprsStrings xs := by
  induction h with
  | nil => rfl
  | cons ha _ _ ih => rw [List.flatMap_cons, ih, ha.strings, exprsStrings]

/-- Giving a function its address changes what is found under its name only. -/
theorem Functions.find?_setEntry (t : Functions) (name other : Name)
    (entry : Cell) :
    (t.setEntry name entry).find? other = (t.find? other).map fun f =>
      if other = name then { f with entry } else f := by
  have hsame :
      (fun f : FuncDef => f.name == other) ∘
        (fun f => if f.name == name then { f with entry } else f) =
        fun f => f.name == other := by
    funext f
    simp only [Function.comp]
    split <;> rfl
  simp only [find?, setEntry, List.find?_map, hsame]
  refine Option.map_congr fun f hf => ?_
  have hname : f.name = other := name_of_find? (t := t) hf
  simp [hname]

theorem Functions.signatures_setEntry (t : Functions) (name : Name)
    (entry : Cell) : (t.setEntry name entry).signatures = t.signatures := by
  simp only [signatures, setEntry, List.map_map]
  refine List.map_congr_left fun f _ => ?_
  simp only [Function.comp, FuncDef.erase]
  split <;> rfl

theorem Pool.address?_intern (p : Pool) (s : Bytes) :
    (p.intern s).2.address? s = some (p.intern s).1 := by
  simp only [intern, address?]
  split
  next e h => simp [h]
  next => simp

theorem Pool.address?_intern_of_some {p : Pool} {s r : Bytes} {c : Cell}
    (h : p.address? r = some c) : (p.intern s).2.address? r = some c := by
  simp only [intern]
  split
  next => exact h
  next hnone =>
    by_cases heq : s = r
    · subst heq
      simp [address?, hnone] at h
    · simpa [address?, heq] using h

namespace Output

/-- What an output may become: the draft grows, addresses of functions and
strings stay once they are known, and a call that waits is filled when its
function gets an address. -/
structure Grows (o o' : Output) : Prop where
  draft : o.draft.Grows o'.draft
  signatures : o'.funcs.signatures = o.funcs.signatures
  entry : ∀ name f, o.funcs.find? name = some f → f.isDefined = true →
    o'.funcs.find? name = some f
  calls : ∀ name addr, (name, addr) ∈ o.funcs.waiting →
    (name, addr) ∈ o'.funcs.waiting ∨ ∃ f, o'.funcs.find? name = some f ∧
    f.isDefined = true ∧ o'.draft.Filled addr f.entry
  pool : ∀ s c, o.pool.address? s = some c → o'.pool.address? s = some c

namespace Grows

variable {o o' o'' : Output}

theorem refl (o : Output) : o.Grows o where
  draft := Draft.Grows.refl _
  signatures := rfl
  entry _ _ h _ := h
  calls _ _ h := Or.inl h
  pool _ _ h := h

theorem trans (hfirst : o.Grows o') (hsecond : o'.Grows o'') : o.Grows o'' where
  draft := hfirst.draft.trans hsecond.draft
  signatures := hsecond.signatures.trans hfirst.signatures
  entry name f hf hdef :=
    hsecond.entry name f (hfirst.entry name f hf hdef) hdef
  calls name addr hwait := by
    rcases hfirst.calls name addr hwait with hwait' | ⟨f, hf, hdef, hfilled⟩
    · exact hsecond.calls name addr hwait'
    · exact Or.inr ⟨f, hsecond.entry name f hf hdef, hdef,
        hsecond.draft.filled hfilled⟩
  pool s c h := hsecond.pool s c (hfirst.pool s c h)

theorem of_draft {d : Draft} (h : o.draft.Grows d) :
    o.Grows { o with draft := d } where
  draft := h
  signatures := rfl
  entry _ _ h _ := h
  calls _ _ h := Or.inl h
  pool _ _ h := h

end Grows

/-- An output that is complete and has become the program of a link. -/
structure Finished (o : Output) (L : Link) : Prop where
  size : L.code.size = o.draft.size
  closed : ∀ addr i, o.draft.Closed addr i → L.code[addr]? = some i
  waiting : o.funcs.waiting = []
  signatures : o.funcs.signatures = L.signatures
  entry : ∀ name f, o.funcs.find? name = some f → L.entry name = f.entry
  string : ∀ s c, o.pool.address? s = some c → L.string s = c

/-- An output grows into the program of a link, and `target` gives the addresses
its labels get. -/
def LinksTo (o : Output) (L : Link) (target : LabelId → Option Nat) : Prop :=
  ∃ last : Output, o.Grows last ∧ last.Finished L ∧
    ∀ l, (last.draft.label l).addr = target l

/-- The address of the next instruction. -/
def size (o : Output) : Nat :=
  o.draft.size

variable {o o' : Output} {L : Link} {target : LabelId → Option Nat}

theorem LinksTo.of_grows (h : o'.LinksTo L target) (hgrow : o.Grows o') :
    o.LinksTo L target := by
  obtain ⟨last, hlast, hfinished, hlabels⟩ := h
  exact ⟨last, hgrow.trans hlast, hfinished, hlabels⟩

theorem LinksTo.closed (h : o.LinksTo L target) {addr : Nat} {i : Instr}
    (hclosed : o.draft.Closed addr i) : L.code[addr]? = some i := by
  obtain ⟨last, hlast, hfinished, -⟩ := h
  exact hfinished.closed addr i (hlast.draft.closed hclosed)

theorem LinksTo.signatures (h : o.LinksTo L target) :
    o.funcs.signatures = L.signatures := by
  obtain ⟨last, hlast, hfinished, -⟩ := h
  rw [← hfinished.signatures, hlast.signatures]

theorem LinksTo.entry (h : o.LinksTo L target) {name : Name} {f : FuncDef}
    (hf : o.funcs.find? name = some f) (hdef : f.isDefined = true) :
    L.entry name = f.entry := by
  obtain ⟨last, hlast, hfinished, -⟩ := h
  exact hfinished.entry name f (hlast.entry name f hf hdef)

theorem LinksTo.bound (h : o.LinksTo L target) {l : LabelId} {addr : Nat}
    (hbound : (o.draft.label l).addr = some addr) : target l = some addr := by
  obtain ⟨last, hlast, -, hlabels⟩ := h
  rw [← hlabels]
  exact hlast.draft.bound l addr hbound

theorem grows_emit (o : Output) (i : Instr) : o.Grows (o.emit i) :=
  Grows.of_draft (Draft.grows_emit o.draft i.op i.operand)

@[simp] theorem size_emit (o : Output) (i : Instr) :
    (o.emit i).size = o.size + 1 :=
  Draft.size_emit o.draft i.op i.operand

@[simp] theorem funcs_emit (o : Output) (i : Instr) :
    (o.emit i).funcs = o.funcs := rfl

theorem holds_emit {i : Instr} (h : (o.emit i).LinksTo L target) :
    L.Holds o.size [i] := by
  exact Link.holds_cons.mpr
    ⟨h.closed (Draft.closed_emit o.draft i.op i.operand), Link.holds_nil⟩

theorem grows_emitAll (o : Output) (is : List Instr) :
    o.Grows (o.emitAll is) := by
  induction is generalizing o with
  | nil => exact Grows.refl o
  | cons i is ih => exact (grows_emit o i).trans (ih (o.emit i))

@[simp] theorem size_emitAll (o : Output) (is : List Instr) :
    (o.emitAll is).size = o.size + is.length := by
  induction is generalizing o with
  | nil => rfl
  | cons i is ih =>
    have := ih (o.emit i)
    simp only [emitAll, List.foldl_cons, List.length_cons, size_emit] at this ⊢
    omega

@[simp] theorem funcs_emitAll (o : Output) (is : List Instr) :
    (o.emitAll is).funcs = o.funcs := by
  induction is generalizing o with
  | nil => rfl
  | cons i is ih => exact ih (o.emit i)

theorem pool_emitAll (o : Output) (is : List Instr) :
    (o.emitAll is).pool = o.pool := by
  induction is generalizing o with
  | nil => rfl
  | cons i is ih => exact ih (o.emit i)

theorem holds_emitAll {is : List Instr} (h : (o.emitAll is).LinksTo L target) :
    L.Holds o.size is := by
  induction is generalizing o with
  | nil => exact Link.holds_nil
  | cons i is ih =>
    have htail : L.Holds (o.size + 1) is := by
      have := ih (o := o.emit i) h
      rwa [size_emit] at this
    have hhead := holds_emit (h.of_grows (grows_emitAll (o.emit i) is))
    exact Link.holds_cons.mpr ⟨(Link.holds_cons.mp hhead).1, htail⟩

theorem grows_emitString (o : Output) (s : Bytes) :
    o.Grows (o.emitString s) where
  draft := Draft.grows_emit o.draft _ _
  signatures := rfl
  entry _ _ h _ := h
  calls _ _ h := Or.inl h
  pool _ _ h := Pool.address?_intern_of_some h

theorem holds_emitString {s : Bytes} (h : (o.emitString s).LinksTo L target) :
    L.Holds o.size [{ op := .push, operand := L.string s }] := by
  have hcode := h.closed (Draft.closed_emit o.draft .push (o.pool.intern s).1)
  obtain ⟨last, hlast, hfinished, -⟩ := h
  have haddr :=
    hfinished.string s _ (hlast.pool s _ (Pool.address?_intern o.pool s))
  rw [haddr]
  exact Link.holds_cons.mpr ⟨hcode, Link.holds_nil⟩

@[simp] theorem size_emitCall (o : Output) (f : FuncDef) :
    (o.emitCall f).size = o.size + 1 := by
  simp only [emitCall, Functions.emitCall, size]
  split <;> simp

theorem defs_emitCall (o : Output) (f : FuncDef) :
    (o.emitCall f).funcs.defs = o.funcs.defs := by
  simp only [emitCall, Functions.emitCall]
  split <;> rfl

theorem grows_emitCall (o : Output) (f : FuncDef) : o.Grows (o.emitCall f) := by
  simp only [emitCall, Functions.emitCall]
  split
  next => exact Grows.of_draft (Draft.grows_emit o.draft _ _)
  next =>
    exact { draft := Draft.grows_emitOpen o.draft _
            signatures := rfl
            entry := fun _ _ h _ => h
            calls := fun _ _ h => Or.inl (List.mem_cons_of_mem _ h)
            pool := fun _ _ h => h }

/-- A call carries the address of its function, whether it was known when the
call was emitted or not. -/
theorem holds_emitCall {f : FuncDef} (h : (o.emitCall f).LinksTo L target)
    (hf : o.funcs.find? f.name = some f) :
    L.Holds o.size [{ op := .call, operand := L.entry f.name }] := by
  obtain ⟨last, hlast, hfinished, -⟩ := h
  suffices hcode :
    last.draft.Closed o.size { op := .call, operand := L.entry f.name }
    from Link.holds_cons.mpr ⟨hfinished.closed _ _ hcode, Link.holds_nil⟩
  simp only [emitCall, Functions.emitCall] at hlast
  split at hlast
  next hdef =>
    rw [hfinished.entry _ _ (hlast.entry f.name f hf hdef)]
    exact hlast.draft.closed (Draft.closed_emit o.draft .call f.entry)
  next =>
    have hcalls := hlast.calls f.name o.draft.size List.mem_cons_self
    rw [hfinished.waiting] at hcalls
    rcases hcalls with hnone | ⟨g, hg, -, hfilled⟩
    · cases hnone
    · rw [hfinished.entry _ _ hg]
      exact Draft.closed_of_filled hlast.draft
        (Draft.line_emitOpen o.draft .call) hfilled

/-- Between two outputs exactly the given code and string constants were added,
and no function got an address. -/
structure Adds (o o' : Output) (code : Link → List Instr)
    (strings : List Bytes) : Prop where
  grows : o.Grows o'
  defs : o'.funcs.defs = o.funcs.defs
  pool : o'.pool = o.pool.addAll strings
  size : ∀ L, o'.size = o.size + (code L).length
  holds : ∀ L target, o'.LinksTo L target → L.Holds o.size (code L)

theorem Adds.append {o'' : Output} {code code' : Link → List Instr}
    {strings strings' : List Bytes} (hfirst : o.Adds o' code strings)
    (hsecond : o'.Adds o'' code' strings') :
    o.Adds o'' (fun L => code L ++ code' L) (strings ++ strings') where
  grows := hfirst.grows.trans hsecond.grows
  defs := hsecond.defs.trans hfirst.defs
  pool := by rw [hsecond.pool, hfirst.pool, Pool.addAll_append]
  size L := by
    rw [hsecond.size L, hfirst.size L, List.length_append]
    omega
  holds L target hlink := by
    have hcode := hsecond.holds L target hlink
    rw [hfirst.size L] at hcode
    exact Link.holds_append.mpr
      ⟨hfirst.holds L target (hlink.of_grows hsecond.grows), hcode⟩

/-- Code without string constants after some that may have them. -/
theorem Adds.append_plain {o'' : Output} {code code' : Link → List Instr}
    {strings : List Bytes} (hfirst : o.Adds o' code strings)
    (hsecond : o'.Adds o'' code' []) :
    o.Adds o'' (fun L => code L ++ code' L) strings := by
  have h := hfirst.append hsecond
  rwa [List.append_nil] at h

theorem adds_nil (o : Output) : o.Adds o (fun _ => []) [] where
  grows := Grows.refl o
  defs := rfl
  pool := rfl
  size _ := rfl
  holds _ _ _ := Link.holds_nil

theorem adds_emit (o : Output) (i : Instr) :
    o.Adds (o.emit i) (fun _ => [i]) [] where
  grows := grows_emit o i
  defs := rfl
  pool := rfl
  size _ := size_emit o i
  holds _ _ hlink := holds_emit hlink

theorem adds_emitAll (o : Output) (is : List Instr) :
    o.Adds (o.emitAll is) (fun _ => is) [] where
  grows := grows_emitAll o is
  defs := by rw [funcs_emitAll]
  pool := pool_emitAll o is
  size _ := size_emitAll o is
  holds _ _ hlink := holds_emitAll hlink

theorem adds_emitString (o : Output) (s : Bytes) :
    o.Adds (o.emitString s) (fun L => [{ op := .push, operand := L.string s }])
      [s] where
  grows := grows_emitString o s
  defs := rfl
  pool := rfl
  size _ := Draft.size_emit o.draft _ _
  holds _ _ hlink := holds_emitString hlink

theorem adds_emitCall {f : FuncDef} (hf : o.funcs.find? f.name = some f) :
    o.Adds (o.emitCall f)
      (fun L => [{ op := .call, operand := L.entry f.name }]) [] where
  grows := grows_emitCall o f
  defs := defs_emitCall o f
  pool := rfl
  size _ := size_emitCall o f
  holds _ _ hlink := holds_emitCall hlink hf

end Output

mutual

/-- Emitting a term adds its code. -/
theorem Term.adds_emit : (a : Term) → (o : Output) → a.CallsIn o.funcs.defs →
    o.Adds (a.emit o) a.code a.strings
  | .int v ty, o, _ => Output.adds_emit o { op := .push, operand := v }
  | .str s, o, _ => Output.adds_emitString o s
  | .var v, o, _ => Output.adds_emit o _
  | .binary op l r ty, o, ⟨hl, hr⟩ => by
    have hleft := l.adds_emit o hl
    simp only [Term.emit, Term.code, Term.strings]
    split
    next =>
      have hleft :=
        hleft.append_plain
          (Output.adds_emitAll _ (convertCode (Ty.common l.ty.decay r.ty.decay)
            l.ty.decay))
      exact hleft.append (((r.adds_emit _ (hleft.defs ▸ hr)).append_plain
        (Output.adds_emitAll _ _)).append_plain (Output.adds_emitAll _ _))
    next =>
      have hleft :=
        hleft.append_plain
          (Output.adds_emitAll _ (scaleLeftCode op l.ty.decay r.ty.decay))
      exact hleft.append (((r.adds_emit _ (hleft.defs ▸ hr)).append_plain
        (Output.adds_emitAll _ _)).append_plain (Output.adds_emitAll _ _))
  | .call f args, o, ⟨hf, hargs⟩ => by
    have hcode := adds_emitArgs f.params args o hargs
    refine hcode.append_plain
      ((Output.adds_emit _ _).append_plain (Output.adds_emitCall ?_))
    rw [Output.funcs_emit, Functions.find?, hcode.defs]
    exact hf
  | .addrVar v, o, _ => Output.adds_emit o _
  | .addrDeref p _, o, hp => p.adds_emit o hp
  | .deref p ty, o, hp => by
    simp only [Term.emit, Term.code, Term.strings]
    split
    next => exact p.adds_emit o hp
    next => exact (p.adds_emit o hp).append_plain (Output.adds_emit _ _)

theorem adds_emitArgs :
    (ps : List Param) → (as : List Term) → (o : Output) →
      ArgsCallIn o.funcs.defs as →
      o.Adds (emitArgs ps as o) (fun L => argsCode L ps as) (argsStrings ps as)
  | [], [], o, _ | [], _ :: _, o, _ | _ :: _, [], o, _ => Output.adds_nil o
  | p :: ps, a :: as, o, ⟨ha, has⟩ => by
    have hfirst :=
      (a.adds_emit o ha).append_plain
        (Output.adds_emitAll _ (convertCode p.ty a.ty))
    exact hfirst.append (adds_emitArgs ps as _ (hfirst.defs ▸ has))

end

/-- Emitting terms in turn adds their codes. -/
theorem adds_emitTerms (ts : List Term) {o : Output}
    (hcalls : ∀ a ∈ ts, a.CallsIn o.funcs.defs) :
    o.Adds (emitTerms ts o) (fun L => termsCode L ts)
      (ts.flatMap Term.strings) := by
  induction ts generalizing o with
  | nil => exact Output.adds_nil o
  | cons a as ih =>
    have hfirst := a.adds_emit o (hcalls a List.mem_cons_self)
    refine hfirst.append (ih fun b hb => ?_)
    rw [hfirst.defs]
    exact hcalls b (List.mem_cons_of_mem a hb)

end StackC
