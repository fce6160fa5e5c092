import StackC.Proofs.Link

/-!
Call sites. The code of an expression is put behind all that is there and
changes nothing of it. Of the instructions that are added only calls can be
open, and a call is open if its function has no address yet: exactly these calls
wait for one from then on.
-/

namespace StackC

/-- A call that has been emitted: its function, as it was known then, and the
address of the instruction. -/
structure CallSite where
  function : FuncDef
  addr : Nat
  deriving DecidableEq, Repr

def FuncDef.callLine (f : FuncDef) : Draft.Line :=
  if f.isDefined then { instr := { op := .call, operand := f.entry } }
  else { instr := { op := .call, operand := Draft.openOperand },
         isOpen := true }

/-- What the calls of functions without an address add to those that wait. -/
def pendingCalls (cs : List CallSite) : List (Name × Nat) :=
  ((cs.filter (!·.function.isDefined)).map fun c =>
    (c.function.name, c.addr)).reverse

mutual

def Term.calls : Term → List FuncDef
  | .binary _ l r _ => l.calls ++ r.calls
  | .call f args => argsCalls f.params args ++ [f]
  | .addrDeref p _ | .deref p _ => p.calls
  | .int .. | .str _ | .var _ | .addrVar _ => []

def argsCalls : List Param → List Term → List FuncDef
  | _ :: ps, a :: as => a.calls ++ argsCalls ps as
  | _, _ => []

end

mutual

def Expr.calls : Expr → List Name
  | .binary _ left right => left.calls ++ right.calls
  | .call name args => exprsCalls args ++ [name]
  | .addr x | .deref x => x.calls
  | .int .. | .str _ | .var _ | .hole => []

def exprsCalls : List Expr → List Name
  | [] => []
  | x :: xs => x.calls ++ exprsCalls xs

end

/-- A term calls the functions that the expression names. -/
theorem Resolves.calls {vars : Name → Option LocalVar}
    {signatures : List FuncDef} {phrase : Phrase}
    (h : Resolves vars signatures phrase) :
    match phrase with
    | .one x a => a.calls.map (·.name) = x.calls
    | .args ps xs as => (argsCalls ps as).map (·.name) = exprsCalls xs := by
  induction h with
  | int | str | var | addrVar | nil => rfl
  | binary _ _ _ hl hr => simp [Term.calls, Expr.calls, hl, hr]
  | call hname _ _ hargs => simpa [Term.calls, Expr.calls, hname] using hargs
  | addrDeref _ _ hp | deref _ _ hp => simpa [Term.calls, Expr.calls] using hp
  | cons _ _ _ ha has => simp [argsCalls, exprsCalls, ha, has]

mutual

/-- Every function that is called is the one that is known by its name. -/
theorem Term.find?_of_mem_calls {defs : List FuncDef} :
    (a : Term) → a.CallsIn defs →
      ∀ f ∈ a.calls, defs.find? (·.name == f.name) = some f
  | .int .., _, f, hf | .str _, _, f, hf | .var _, _, f, hf
  | .addrVar _, _, f, hf => by
    simp [Term.calls] at hf
  | .binary _ l r _, ⟨hl, hr⟩, f, hf => by
    rcases List.mem_append.mp hf with hf | hf
    · exact l.find?_of_mem_calls hl f hf
    · exact r.find?_of_mem_calls hr f hf
  | .call g args, ⟨hg, hargs⟩, f, hf => by
    rcases List.mem_append.mp hf with hf | hf
    · exact find?_of_mem_argsCalls g.params args hargs f hf
    · rw [List.mem_singleton.mp hf]
      exact hg
  | .addrDeref p _, hp, f, hf | .deref p _, hp, f, hf =>
    p.find?_of_mem_calls hp f hf

theorem find?_of_mem_argsCalls {defs : List FuncDef} :
    (ps : List Param) → (as : List Term) → ArgsCallIn defs as →
      ∀ f ∈ argsCalls ps as, defs.find? (·.name == f.name) = some f
  | [], [], _, f, hf | [], _ :: _, _, f, hf | _ :: _, [], _, f, hf =>
    by simp [argsCalls] at hf
  | _ :: ps, a :: as, ⟨ha, has⟩, f, hf => by
    rcases List.mem_append.mp hf with hf | hf
    · exact a.find?_of_mem_calls ha f hf
    · exact find?_of_mem_argsCalls ps as has f hf

end

namespace Output

/-- `o'` is `o` with instructions behind it. Its calls and open instructions
among them are the given calls, in order, and of these the ones of functions
without an address wait for one. -/
structure Appends (o o' : Output) (cs : List CallSite) : Prop where
  kept : ∀ (addr : Nat) (line : Draft.Line), o.draft.lines[addr]? = some line →
    o'.draft.lines[addr]? = some line
  labels : o'.draft.labels = o.draft.labels
  defs : o'.funcs.defs = o.funcs.defs
  waiting : o'.funcs.waiting = pendingCalls cs ++ o.funcs.waiting
  sites : ∀ c ∈ cs, o.size ≤ c.addr ∧
    o'.draft.lines[c.addr]? = some c.function.callLine
  others : ∀ (addr : Nat) (line : Draft.Line), o.size ≤ addr →
    o'.draft.lines[addr]? = some line → line.instr.op = .call ∨
    line.isOpen = true → ∃ c ∈ cs, c.addr = addr
  order : (cs.map (·.addr)).Pairwise (· < ·)

variable {o o' o'' : Output} {cs cs' : List CallSite}

theorem pendingCalls_append :
    pendingCalls (cs ++ cs') = pendingCalls cs' ++ pendingCalls cs := by
  simp [pendingCalls]

theorem Appends.size_le (h : o.Appends o' cs) : o.size ≤ o'.size := by
  refine Nat.le_of_not_lt fun hlt => ?_
  have hline := h.kept o'.size _ (Array.getElem?_eq_getElem hlt)
  simp [size, Draft.size] at hline

theorem lt_size_of_line {addr : Nat} {line : Draft.Line}
    (h : o.draft.lines[addr]? = some line) : addr < o.size :=
  (Array.getElem?_eq_some_iff.mp h).1

theorem Appends.append (h : o.Appends o' cs) (h' : o'.Appends o'' cs') :
    o.Appends o'' (cs ++ cs') where
  kept addr line hline := h'.kept addr line (h.kept addr line hline)
  labels := h'.labels.trans h.labels
  defs := h'.defs.trans h.defs
  waiting := by
    rw [h'.waiting, h.waiting, pendingCalls_append, List.append_assoc]
  sites := by
    intro c hc
    rcases List.mem_append.mp hc with hc | hc
    · obtain ⟨hle, hline⟩ := h.sites c hc
      exact ⟨hle, h'.kept _ _ hline⟩
    · obtain ⟨hle, hline⟩ := h'.sites c hc
      exact ⟨Nat.le_trans h.size_le hle, hline⟩
  others := by
    intro addr line hle hline hcall
    rcases Nat.lt_or_ge addr o'.size with hlt | hge
    · have hfirst := Array.getElem?_eq_getElem hlt
      have hsame := h'.kept addr _ hfirst
      rw [hline] at hsame
      cases hsame
      obtain ⟨c, hc, haddr⟩ := h.others addr _ hle hfirst hcall
      exact ⟨c, List.mem_append_left _ hc, haddr⟩
    · obtain ⟨c, hc, haddr⟩ := h'.others addr line hge hline hcall
      exact ⟨c, List.mem_append_right _ hc, haddr⟩
  order := by
    rw [List.map_append, List.pairwise_append]
    refine ⟨h.order, h'.order, fun i hi j hj => ?_⟩
    obtain ⟨c, hc, rfl⟩ := List.mem_map.mp hi
    obtain ⟨d, hd, rfl⟩ := List.mem_map.mp hj
    exact Nat.lt_of_lt_of_le (lt_size_of_line (h.sites c hc).2)
      (h'.sites d hd).1

theorem Appends.append_plain (h : o.Appends o' cs) (h' : o'.Appends o'' []) :
    o.Appends o'' cs := by
  have hboth := h.append h'
  rwa [List.append_nil] at hboth

theorem appends_nil (o : Output) : o.Appends o [] where
  kept _ _ h := h
  labels := rfl
  defs := rfl
  waiting := rfl
  sites := by simp
  others addr line hle hline :=
    absurd (lt_size_of_line hline) (Nat.not_lt.mpr hle)
  order := List.Pairwise.nil

/-- One more line. -/
theorem line_push {lines : Array Draft.Line} {new line : Draft.Line}
    {addr : Nat} (hle : lines.size ≤ addr)
    (h : (lines.push new)[addr]? = some line) :
    addr = lines.size ∧ line = new := by
  rw [Array.getElem?_push] at h
  split at h
  next heq =>
    cases h
    exact ⟨heq, rfl⟩
  next hne =>
    rw [Array.getElem?_eq_none hle] at h
    cases h

theorem appends_emit (o : Output) {i : Instr} (hi : i.op ≠ .call) :
    o.Appends (o.emit i) [] where
  kept _ _ h := Draft.getElem?_push_of_some h
  labels := rfl
  defs := rfl
  waiting := rfl
  sites := by simp
  others := by
    intro addr line hle hline hcall
    obtain ⟨-, rfl⟩ := line_push hle hline
    rcases hcall with hcall | hopen
    · exact absurd hcall hi
    · cases hopen
  order := List.Pairwise.nil

theorem appends_emitAll (o : Output) {is : List Instr}
    (h : ∀ i ∈ is, i.op ≠ .call) : o.Appends (o.emitAll is) [] := by
  induction is generalizing o with
  | nil => exact appends_nil o
  | cons i is ih =>
    exact (appends_emit o (h i List.mem_cons_self)).append
      (ih (o.emit i) fun j hj => h j (List.mem_cons_of_mem i hj))

theorem appends_emitString (o : Output) (s : Bytes) :
    o.Appends (o.emitString s) [] := by
  -- The pool is the only part that an instruction alone does not change.
  have h :=
    appends_emit { o with pool := (o.pool.intern s).2 }
      (show Instr.op { op := .push, operand := (o.pool.intern s).1 } ≠ .call
        from Opcode.noConfusion)
  exact ⟨h.kept, h.labels, h.defs, h.waiting, h.sites, h.others, h.order⟩

theorem appends_emitCall (o : Output) (f : FuncDef) :
    o.Appends (o.emitCall f) [⟨f, o.size⟩] := by
  have hlines : (o.emitCall f).draft.lines = o.draft.lines.push f.callLine := by
    simp only [emitCall, Functions.emitCall, FuncDef.callLine]
    split <;> rfl
  refine ⟨fun addr line h => ?_, ?_, defs_emitCall o f, ?_, fun c hc => ?_,
    fun addr line hle hline _ => ?_, ?_⟩
  · rw [hlines]
    exact Draft.getElem?_push_of_some h
  · simp only [emitCall, Functions.emitCall]
    split <;> rfl
  · simp only [emitCall, Functions.emitCall, pendingCalls]
    split
    next hdef => simp [hdef]
    next hdef => simp [hdef, size]
  · rw [List.mem_singleton.mp hc, hlines]
    exact ⟨Nat.le_refl _, Array.getElem?_push_size⟩
  · rw [hlines] at hline
    exact ⟨_, List.mem_singleton_self _, (line_push hle hline).1.symm⟩
  · exact List.pairwise_singleton _ _

end Output

def CallFree (is : List Instr) : Prop :=
  ∀ i ∈ is, i.op ≠ .call

theorem callFree_convertCode (target source : Ty) :
    CallFree (convertCode target source) := by
  simp only [CallFree, convertCode]
  split
  next => simp
  next => split <;> simp

theorem callFree_scaleCode (cells : Cell) : CallFree (scaleCode cells) := by
  simp only [CallFree, scaleCode]
  split <;> simp

theorem callFree_scaleLeftCode (op : Operator) (l r : Ty) :
    CallFree (scaleLeftCode op l r) := by
  simp only [scaleLeftCode]
  split
  iterate 2
    split
    next => exact callFree_scaleCode _
    next => simp [CallFree]
  simp [CallFree]

theorem callFree_scaleRightCode (op : Operator) (l r : Ty) :
    CallFree (scaleRightCode op l r) :=
  callFree_scaleLeftCode op r l

theorem Operator.opcode_ne_call (op : Operator) : op.opcode ≠ .call := by
  cases op <;> exact Opcode.noConfusion

theorem Operator.unsignedOpcode_ne_call (op : Operator) :
    op.unsignedOpcode ≠ .call := by
  cases op <;> exact Opcode.noConfusion

theorem callFree_integerCode (op : Operator) (c : Ty) :
    CallFree (integerCode op c) := by
  have happly :
      (if c.isUnsigned then op.unsignedOpcode else op.opcode) ≠ .call := by
    split
    next => exact op.unsignedOpcode_ne_call
    next => exact op.opcode_ne_call
  simp only [CallFree, integerCode]
  split
  iterate 3
    split <;> simpa using happly
  simpa using happly

theorem callFree_pointerCode (op : Operator) (l r : Ty) :
    CallFree (pointerCode op l r) := by
  have happly := op.opcode_ne_call
  simp only [CallFree, pointerCode]
  split
  next => split <;> simpa using happly
  next => simpa using happly

mutual

/-- The code of a term is put behind what is there, and its calls are those of
the term. -/
theorem Term.appends_emit : (a : Term) → (o : Output) →
    ∃ cs, cs.map (·.function) = a.calls ∧ o.Appends (a.emit o) cs
  | .int v _, o => ⟨[], rfl, Output.appends_emit o Opcode.noConfusion⟩
  | .str s, o => ⟨[], rfl, Output.appends_emitString o s⟩
  | .var v, o => by
    refine ⟨[], rfl, Output.appends_emit o ?_⟩
    show (if v.ty.isArray then Opcode.addrLocal else .loadLocal) ≠ .call
    split <;> exact Opcode.noConfusion
  | .binary op l r _, o => by
    have hoperands : ∀ is js ks, CallFree is → CallFree js → CallFree ks →
        ∃ cs, cs.map (·.function) = l.calls ++ r.calls ∧
        o.Appends
        (((r.emit ((l.emit o).emitAll is)).emitAll js).emitAll ks) cs := by
      intro is js ks his hjs hks
      obtain ⟨cs, hcs, hl⟩ := l.appends_emit o
      obtain ⟨cs', hcs', hr⟩ := r.appends_emit ((l.emit o).emitAll is)
      have hr :=
        (hr.append_plain (Output.appends_emitAll _ hjs)).append_plain
          (Output.appends_emitAll _ hks)
      exact ⟨cs ++ cs', by rw [List.map_append, hcs, hcs'],
        (hl.append_plain (Output.appends_emitAll _ his)).append hr⟩
    simp only [Term.emit, Term.calls]
    split
    next =>
      exact hoperands _ _ _ (callFree_convertCode _ _)
        (callFree_convertCode _ _) (callFree_integerCode _ _)
    next =>
      exact hoperands _ _ _ (callFree_scaleLeftCode _ _ _)
        (callFree_scaleRightCode _ _ _) (callFree_pointerCode _ _ _)
  | .call f args, o => by
    obtain ⟨cs, hcs, hargs⟩ := appends_emitArgs f.params args o
    have hop :
        Instr.op { op := .frame, operand := Int64.ofNat f.params.length } ≠
          .call := Opcode.noConfusion
    have hframe := hargs.append_plain (Output.appends_emit _ hop)
    exact ⟨cs ++ [_], by rw [List.map_append, hcs]; rfl,
      hframe.append (Output.appends_emitCall _ f)⟩
  | .addrVar v, o => ⟨[], rfl, Output.appends_emit o Opcode.noConfusion⟩
  | .addrDeref p _, o => p.appends_emit o
  | .deref p ty, o => by
    obtain ⟨cs, hcs, hp⟩ := p.appends_emit o
    refine ⟨cs, hcs, ?_⟩
    simp only [Term.emit]
    split
    next => exact hp
    next => exact hp.append_plain (Output.appends_emit _ Opcode.noConfusion)

theorem appends_emitArgs :
    (ps : List Param) → (as : List Term) → (o : Output) →
      ∃ cs, cs.map (·.function) = argsCalls ps as ∧
        o.Appends (emitArgs ps as o) cs
  | [], [], o | [], _ :: _, o | _ :: _, [], o => ⟨[], rfl, Output.appends_nil o⟩
  | p :: ps, a :: as, o => by
    obtain ⟨cs, hcs, ha⟩ := a.appends_emit o
    have ha :=
      ha.append_plain
        (Output.appends_emitAll _ (callFree_convertCode p.ty a.ty))
    obtain ⟨cs', hcs', has⟩ := appends_emitArgs ps as _
    exact ⟨cs ++ cs', by rw [List.map_append, hcs, hcs', argsCalls],
      ha.append has⟩

end

end StackC
