import StackC.Proofs.Revisions

/-!
Functions in use. Signatures are added, calls are emitted and addresses are
recorded in any order, and other things may happen to the code in between. A
call waits exactly as long as its function has no address, and from then on it
carries that address, whether it was emitted before or after the address was
recorded.
-/

namespace StackC

/-- What can be done with the functions of a program and the code that calls
them. -/
inductive FunctionOp where
  | register (ret : Ty) (name : Name) (params : List Param)
  | call (name : Name) (count : Int)
  | define (name : Name) (entry : Cell)
  | code (op : DraftOp)
  deriving DecidableEq, Repr

namespace FunctionOp

def signature? (name : Name) : FunctionOp → Option (Ty × List Param)
  | .register ret other params =>
    if other = name then some (ret, params) else none
  | _ => none

def entryAddr? (name : Name) : FunctionOp → Option Cell
  | .define other entry => if other = name then some entry else none
  | _ => none

def signatureOf (name : Name) (ops : List FunctionOp) :
    Option (Ty × List Param) :=
  ops.findSome? (signature? name)

/-- The address with which a name is first defined, once it is registered. -/
def entryOf (name : Name) (ops : List FunctionOp) : Option Cell :=
  (ops.dropWhile fun op => (op.signature? name).isNone).findSome?
    (entryAddr? name)

variable {name : Name} {op : FunctionOp} {ops : List FunctionOp}

theorem signatureOf_concat (name : Name) (ops : List FunctionOp)
    (op : FunctionOp) :
    signatureOf name (ops ++ [op]) =
      (signatureOf name ops).or (op.signature? name) := by
  rw [signatureOf, List.findSome?_append, List.findSome?_singleton]
  rfl

theorem signatureOf_concat_of_none (ops : List FunctionOp)
    (h : op.signature? name = none) :
    signatureOf name (ops ++ [op]) = signatureOf name ops := by
  rw [signatureOf_concat, h, Option.or_none]

theorem entryAddr?_of_signature? (h : (op.signature? name).isSome = true) :
    op.entryAddr? name = none := by
  cases op with
  | register => rfl
  | call | define | code => cases h

theorem dropWhile_eq_nil (h : signatureOf name ops = none) :
    (ops.dropWhile fun op => (op.signature? name).isNone) = [] := by
  rw [List.dropWhile_eq_nil_iff]
  intro op hop
  rw [Option.isNone_iff_eq_none]
  exact List.findSome?_eq_none_iff.mp h op hop

theorem entryOf_of_signatureOf (h : signatureOf name ops = none) :
    entryOf name ops = none := by
  rw [entryOf, dropWhile_eq_nil h, List.findSome?_nil]

/-- A definition counts if the name is registered, and only the first one
does. -/
theorem entryOf_concat (name : Name) (ops : List FunctionOp) (op : FunctionOp) :
    entryOf name (ops ++ [op]) = (entryOf name ops).or
      (if (signatureOf name ops).isSome then op.entryAddr? name else none) := by
  cases hknown : signatureOf name ops with
  | none =>
    rw [entryOf_of_signatureOf hknown, entryOf, List.dropWhile_append,
      dropWhile_eq_nil hknown]
    cases hsignature : op.signature? name with
    | none => simp [hsignature]
    | some signature => simp [hsignature, entryAddr?_of_signature?]
  | some signature =>
    have hne :
        (ops.dropWhile fun op => (op.signature? name).isNone).isEmpty =
        false := by
      rw [List.isEmpty_eq_false_iff, ne_eq, List.dropWhile_eq_nil_iff]
      intro hall
      obtain ⟨op, hop, hsome⟩ := List.exists_of_findSome?_eq_some hknown
      rw [Option.isNone_iff_eq_none.mp (hall op hop)] at hsome
      cases hsome
    rw [entryOf, List.dropWhile_append, hne, if_neg Bool.false_ne_true,
      List.findSome?_append, List.findSome?_singleton, Option.isSome_some,
      if_pos rfl]
    rfl

theorem entryOf_concat_of_none (ops : List FunctionOp)
    (h : op.entryAddr? name = none) :
    entryOf name (ops ++ [op]) = entryOf name ops := by
  rw [entryOf_concat, h, ite_self, Option.or_none]

end FunctionOp

/-- The functions of a program and the code so far. -/
structure Linkage where
  funcs : Functions := {}
  draft : Draft := {}
  deriving DecidableEq, Repr

namespace Functions

theorem lookup_eq_ok_iff {t : Functions} {name : Name} {count : Int}
    {f : FuncDef} :
    t.lookup name count = .ok f ↔
      t.find? name = some f ∧ (f.params.length : Int) = count := by
  rw [lookup]
  cases t.find? name with
  | none => simp
  | some g =>
    by_cases hcount : (g.params.length : Int) = count
    · simp only [hcount, if_true, Except.ok.injEq, Option.some.injEq]
      constructor
      · rintro rfl
        exact ⟨rfl, hcount⟩
      · exact And.left
    · simp only [hcount, if_false, Option.some.injEq]
      constructor
      · intro h
        cases h
      · rintro ⟨rfl, h⟩
        exact absurd h hcount

end Functions

namespace Linkage

/-- What there is after an operation, and why the operation was refused, if it
was. -/
def perform (s : Linkage) : FunctionOp → Linkage × Option ProgramError
  | .register ret name params =>
    match s.funcs.register ret name params with
    | .ok (_, funcs) => ({ s with funcs }, none)
    | .error e => (s, some e)
  | .call name count =>
    match s.funcs.lookup name count with
    | .ok f =>
      let (funcs, draft) := s.funcs.emitCall s.draft f
      ({ funcs, draft }, none)
    | .error e => (s, some e)
  | .define name entry =>
    let (funcs, draft, e) := s.funcs.define s.draft name entry
    ({ funcs, draft }, e)
  | .code op =>
    let (draft, e) := s.draft.perform op
    ({ s with draft }, e.map .draft)

def after (s : Linkage) (ops : List FunctionOp) : Linkage :=
  ops.foldl (fun s op => (s.perform op).1) s

/-- The function that an operation emits a call of, and the address of the
call. -/
def calls (s : Linkage) : FunctionOp → List (Name × Nat)
  | .call name count =>
    match s.funcs.lookup name count with
    | .ok _ => [(name, s.draft.size)]
    | .error _ => []
  | _ => []

/-- The functions that operations in turn emit calls of, and the addresses of
the calls. -/
def callsBy : Linkage → List FunctionOp → List (Name × Nat)
  | _, [] => []
  | s, op :: ops => s.calls op ++ (s.perform op).1.callsBy ops

/-- Whether an operation records no address outside the code, and fills no call
itself. -/
def allows (s : Linkage) : FunctionOp → Bool
  | .define _ entry => 0 ≤ entry.toInt && entry.toInt ≤ s.draft.size
  | .code op =>
    (s.draft.fills op).all fun addr =>
      (s.draft.instrs[addr]?).all (·.op != .call)
  | _ => true

/-- Whether operations in turn record no address outside the code, and fill no
calls themselves. -/
def allowsAll : Linkage → List FunctionOp → Bool
  | _, [] => true
  | s, op :: ops => s.allows op && (s.perform op).1.allowsAll ops

variable {s : Linkage} {ops : List FunctionOp} {op : FunctionOp}

theorem after_append (s : Linkage) (ops ops' : List FunctionOp) :
    s.after (ops ++ ops') = (s.after ops).after ops' :=
  List.foldl_append

theorem callsBy_append (s : Linkage) (ops ops' : List FunctionOp) :
    s.callsBy (ops ++ ops') = s.callsBy ops ++ (s.after ops).callsBy ops' := by
  induction ops generalizing s with
  | nil => rfl
  | cons op ops ih => simp [callsBy, after, ih]

theorem allowsAll_append {ops' : List FunctionOp} :
    s.allowsAll (ops ++ ops') = true ↔
      s.allowsAll ops = true ∧ (s.after ops).allowsAll ops' = true := by
  induction ops generalizing s with
  | nil => simp [allowsAll, after]
  | cons op ops ih => simp [allowsAll, after, ih, and_assoc]

open FunctionOp (signatureOf entryOf)

/-- The functions are what a history makes of them. Calls of functions that have
no address wait at given addresses, and calls of other functions carry the
address. -/
structure Traced (ops : List FunctionOp) (s : Linkage)
    (calls : List (Name × Nat)) : Prop where
  find : ∀ name,
    s.funcs.find? name = (signatureOf name ops).map fun signature =>
    { ret := signature.1, name, params := signature.2,
      entry := (entryOf name ops).getD (-1) }
  names : (s.funcs.defs.map (·.name)).Nodup
  entry : ∀ name entry, entryOf name ops = some entry → 0 ≤ entry.toInt
  opens : ∀ e ∈ s.funcs.waiting, s.draft.OpenAt e.2 .call
  nodup : (s.funcs.waiting.map (·.2)).Nodup
  waits : ∀ name addr, (name, addr) ∈ s.funcs.waiting ↔ (name, addr) ∈ calls ∧
    entryOf name ops = none
  carries : ∀ name addr entry, (name, addr) ∈ calls →
    entryOf name ops = some entry →
    s.draft.Closed addr { op := .call, operand := entry }

namespace Traced

variable {calls : List (Name × Nat)} {ops' : List FunctionOp} {name : Name}
  {f : FuncDef}

/-- Operations that say nothing new about functions. -/
theorem of_history (h : Traced ops s calls)
    (hsignature : ∀ name, signatureOf name ops' = signatureOf name ops)
    (hentry : ∀ name, entryOf name ops' = entryOf name ops) :
    Traced ops' s calls where
  find name := by rw [hsignature, hentry, h.find]
  names := h.names
  entry name := by
    rw [hentry]
    exact h.entry name
  opens := h.opens
  nodup := h.nodup
  waits name addr := by rw [hentry, h.waits]
  carries name addr := by
    rw [hentry]
    exact h.carries name addr

theorem entry_of_find? (h : Traced ops s calls)
    (hf : s.funcs.find? name = some f) :
    f.entry = (entryOf name ops).getD (-1) := by
  rw [h.find, Option.map_eq_some_iff] at hf
  obtain ⟨signature, -, rfl⟩ := hf
  rfl

theorem isDefined_iff (h : Traced ops s calls)
    (hf : s.funcs.find? name = some f) :
    f.isDefined = true ↔ ∃ entry, entryOf name ops = some entry := by
  rw [FuncDef.isDefined, h.entry_of_find? hf, decide_eq_true_iff]
  cases hentry : entryOf name ops with
  | none => simp
  | some entry => simpa using h.entry name entry hentry

theorem isSome_find? (h : Traced ops s calls) (name : Name) :
    (s.funcs.find? name).isSome = (signatureOf name ops).isSome := by
  rw [h.find, Option.isSome_map]

theorem call_ok_iff (h : Traced ops s calls) (name : Name) (count : Int) :
    (s.perform (.call name count)).2 = none ↔
      ∃ signature, signatureOf name ops = some signature ∧
        (signature.2.length : Int) = count := by
  have hok : (s.perform (.call name count)).2 = none ↔
      ∃ f, s.funcs.lookup name count = .ok f := by
    simp only [perform]
    cases s.funcs.lookup name count <;> simp
  rw [hok]
  simp only [Functions.lookup_eq_ok_iff, h.find, Option.map_eq_some_iff]
  constructor
  · rintro ⟨f, ⟨signature, hsignature, rfl⟩, hcount⟩
    exact ⟨signature, hsignature, hcount⟩
  · rintro ⟨signature, hsignature, hcount⟩
    exact ⟨_, ⟨signature, hsignature, rfl⟩, hcount⟩

theorem get?_entries (h : Traced ops s calls) (name : Name) :
    s.funcs.entries.get? name = entryOf name ops := by
  rw [Functions.get?_entries h.names]
  cases hf : s.funcs.find? name with
  | none =>
    have hnone : signatureOf name ops = none := by simpa [h.find] using hf
    rw [FunctionOp.entryOf_of_signatureOf hnone]
    rfl
  | some f =>
    have hdefined := h.isDefined_iff hf
    have hentry := h.entry_of_find? hf
    cases hcase : entryOf name ops with
    | none => simp [Option.filter_some, hdefined, hcase]
    | some entry => simp [Option.filter_some, hdefined, hcase, hentry]

theorem code (h : Traced ops s calls) {op : DraftOp}
    (hop : s.allows (.code op) = true) :
    Traced ops (s.perform (.code op)).1 calls := by
  have hevolves := Draft.evolves_perform s.draft op
  have hfills : ∀ addr ∈ s.draft.fills op, ¬ s.draft.OpenAt addr .call := by
    rintro addr haddr ⟨operand, hline⟩
    have hother := List.all_eq_true.mp hop addr haddr
    rw [Draft.getElem?_instrs, hline] at hother
    simp at hother
  refine ⟨h.find, h.names, h.entry, fun e he => ?_, h.nodup, h.waits,
    fun name addr entry hcall hentry => ?_⟩
  · exact hevolves.openAt (h.opens e he) fun hmem =>
      hfills e.2 hmem (h.opens e he)
  · exact hevolves.closed (h.carries name addr entry hcall hentry)

theorem register (h : Traced ops s calls) (ret : Ty) (name : Name)
    (params : List Param) :
    Traced (ops ++ [.register ret name params])
      (s.perform (.register ret name params)).1 calls := by
  have hentry : ∀ other, entryOf other (ops ++ [.register ret name params]) =
      entryOf other ops :=
    fun other => FunctionOp.entryOf_concat_of_none ops rfl
  have hsignature :
      ∀ other, signatureOf other (ops ++ [.register ret name params]) =
      (signatureOf other ops).or (if name = other then some (ret, params)
      else none) := fun other => FunctionOp.signatureOf_concat other ops _
  cases hfind : s.funcs.find? name with
  | some f =>
    simp only [perform, Functions.register, hfind, Option.isSome_some, if_true]
    refine h.of_history (fun other => ?_) hentry
    have hknown := h.isSome_find? name
    rw [hfind, Option.isSome_some, eq_comm, Option.isSome_iff_exists] at hknown
    obtain ⟨signature, hfirst⟩ := hknown
    rw [hsignature]
    by_cases heq : name = other
    · rw [← heq, hfirst, Option.some_or]
    · rw [if_neg heq, Option.or_none]
  | none =>
    simp only [perform, Functions.register, hfind, Option.isSome_none,
      Bool.false_eq_true, if_false]
    refine ⟨fun other => ?_, ?_, fun other => ?_, h.opens, h.nodup,
      fun other addr => ?_, fun other addr => ?_⟩
    · have hold := h.find other
      rw [Functions.find?] at hold ⊢
      rw [List.find?_append, hold, hsignature, hentry]
      by_cases heq : name = other
      · subst heq
        have hnone : signatureOf name ops = none := by
          simpa [h.find] using hfind
        simp [hnone, FunctionOp.entryOf_of_signatureOf hnone]
      · simp [heq]
    · rw [List.map_append, List.map_cons, List.map_nil]
      refine List.nodup_append.mpr ⟨h.names, by simp,
        fun first hfirst last hlast heq => ?_⟩
      obtain ⟨f, hf, rfl⟩ := List.mem_map.mp hfirst
      have hname : f.name = name := heq.trans (List.mem_singleton.mp hlast)
      exact List.find?_eq_none.mp hfind f hf (by simp [hname])
    · rw [hentry]
      exact h.entry other
    · rw [hentry]
      exact h.waits other addr
    · rw [hentry]
      exact h.carries other addr

/-- A call of a function that has an address carries it. -/
theorem call_defined {entry : Cell} (h : Traced ops s calls)
    (hentry : entryOf name ops = some entry) :
    Traced ops { s with draft := s.draft.emit .call entry }
      (calls ++ [(name, s.draft.size)]) := by
  have hevolves := Draft.evolves_emit s.draft .call entry
  refine ⟨h.find, h.names, h.entry,
    fun e he => hevolves.openAt (h.opens e he) (by simp), h.nodup, ?_, ?_⟩
  · intro other addr
    rw [List.mem_append, List.mem_singleton, h.waits]
    constructor
    · exact fun ⟨hcall, hnone⟩ => ⟨Or.inl hcall, hnone⟩
    · rintro ⟨hcall | hnew, hnone⟩
      · exact ⟨hcall, hnone⟩
      · cases hnew
        rw [hentry] at hnone
        cases hnone
  · intro other addr first hcall hfirst
    rcases List.mem_append.mp hcall with hcall | hnew
    · exact hevolves.closed (h.carries other addr first hcall hfirst)
    · cases List.mem_singleton.mp hnew
      rw [hentry] at hfirst
      cases hfirst
      exact Draft.closed_emit s.draft .call entry

/-- A call of a function that has no address waits. -/
theorem call_undefined (h : Traced ops s calls)
    (hnone : entryOf name ops = none) :
    Traced ops
      { funcs := { s.funcs with
                   waiting := (name, s.draft.size) :: s.funcs.waiting },
                     draft := s.draft.emitOpen .call }
                     (calls ++ [(name, s.draft.size)]) := by
  have hevolves := Draft.evolves_emitOpen s.draft .call
  refine ⟨h.find, h.names, h.entry, ?_, ?_, ?_, ?_⟩
  · intro e he
    rcases List.mem_cons.mp he with rfl | he
    · exact Draft.openAt_emitOpen s.draft .call
    · exact hevolves.openAt (h.opens e he) (by simp)
  · refine List.nodup_cons.mpr ⟨fun hmem => ?_, h.nodup⟩
    obtain ⟨e, he, heq⟩ := List.mem_map.mp hmem
    have hlt := (h.opens e he).lt_size
    rw [heq] at hlt
    exact Nat.lt_irrefl _ hlt
  · intro other addr
    rw [List.mem_cons, List.mem_append, List.mem_singleton, h.waits]
    constructor
    · rintro (hnew | ⟨hcall, hother⟩)
      · cases hnew
        exact ⟨Or.inr rfl, hnone⟩
      · exact ⟨Or.inl hcall, hother⟩
    · rintro ⟨hcall | hnew, hother⟩
      · exact Or.inr ⟨hcall, hother⟩
      · exact Or.inl hnew
  · intro other addr entry hcall hentry
    rcases List.mem_append.mp hcall with hcall | hnew
    · exact hevolves.closed (h.carries other addr entry hcall hentry)
    · cases List.mem_singleton.mp hnew
      rw [hnone] at hentry
      cases hentry

theorem call (h : Traced ops s calls) (name : Name) (count : Int) :
    Traced ops (s.perform (.call name count)).1
      (calls ++ s.calls (.call name count)) := by
  cases hlookup : s.funcs.lookup name count with
  | error e =>
    simp only [perform, Linkage.calls, hlookup, List.append_nil]
    exact h
  | ok f =>
    have hf : s.funcs.find? name = some f :=
      (Functions.lookup_eq_ok_iff.mp hlookup).1
    have hname : f.name = name := Functions.name_of_find? hf
    have hoperand : f.entry = (entryOf name ops).getD (-1) :=
      h.entry_of_find? hf
    have hdefined := h.isDefined_iff hf
    simp only [perform, Linkage.calls, hlookup, Functions.emitCall, hname]
    cases hentry : entryOf name ops with
    | some entry =>
      rw [hentry, Option.getD_some] at hoperand
      rw [if_pos (hdefined.mpr ⟨entry, hentry⟩), hoperand]
      exact h.call_defined hentry
    | none =>
      have hundefined : ¬ f.isDefined = true := by simp [hdefined, hentry]
      rw [if_neg hundefined]
      exact h.call_undefined hentry

/-- A definition that counts: the name is registered and not defined. -/
theorem define_new {entry : Cell} (h : Traced ops s calls)
    (hf : s.funcs.find? name = some f) (hnone : entryOf name ops = none)
    (hrange : 0 ≤ entry.toInt ∧ entry.toInt ≤ s.draft.size) :
    (s.perform (.define name entry)).2 = none ∧
      Traced (ops ++ [.define name entry])
        (s.perform (.define name entry)).1 calls := by
  have hundefined : f.isDefined = false := by
    simp [← Bool.not_eq_true, h.isDefined_iff hf, hnone]
  obtain ⟨draft, hdefine, -, hlines⟩ :=
    Functions.exists_define h.opens h.nodup hf hundefined hrange
  obtain ⟨hgrows, -, -, -, hfind, -, hfilled⟩ := Functions.define_spec hdefine
  have hknown : (signatureOf name ops).isSome = true := by
    rw [← h.isSome_find?, hf, Option.isSome_some]
  have hentry : ∀ other, entryOf other (ops ++ [.define name entry]) =
      if other = name then some entry else entryOf other ops := by
    intro other
    rw [FunctionOp.entryOf_concat]
    by_cases heq : other = name
    · simp [heq, hnone, hknown, FunctionOp.entryAddr?]
    · simp [heq, Ne.symm heq, FunctionOp.entryAddr?]
  have hsignature : ∀ other, signatureOf other (ops ++ [.define name entry]) =
      signatureOf other ops :=
    fun other => FunctionOp.signatureOf_concat_of_none ops rfl
  simp only [perform, hdefine]
  refine ⟨trivial, fun other => ?_, ?_, fun other first => ?_, fun e he => ?_,
    ?_, fun other addr => ?_, ?_⟩
  · rw [hfind, hsignature, hentry, h.find, Option.map_map]
    refine Option.map_congr fun signature _ => ?_
    by_cases heq : other = name <;> simp [heq]
  · have hsame : (s.funcs.setEntry name entry).defs.map (·.name) =
        s.funcs.defs.map (·.name) := by
      rw [Functions.setEntry, List.map_map]
      refine List.map_congr_left fun g _ => ?_
      simp only [Function.comp]
      split <;> rfl
    rw [hsame]
    exact h.names
  · rw [hentry]
    split
    next =>
      intro hfirst
      cases hfirst
      exact hrange.1
    next => exact h.entry other first
  · obtain ⟨hwait, hother⟩ := List.mem_filter.mp he
    refine Functions.openAt_of_define h.opens h.nodup hlines (h.opens e hwait)
      fun _ => ⟨e.1, ?_, hwait⟩
    simpa using hother
  · exact h.nodup.sublist (List.filter_sublist.map _)
  · rw [hentry, List.mem_filter, h.waits]
    by_cases heq : other = name <;> simp [heq]
  · intro other addr first hcall hfirst
    rw [hentry] at hfirst
    by_cases heq : other = name
    · subst heq
      rw [if_pos rfl] at hfirst
      cases hfirst
      have hwait : (other, addr) ∈ s.funcs.waiting :=
        (h.waits other addr).mpr ⟨hcall, hnone⟩
      obtain ⟨operand, hline⟩ := h.opens _ hwait
      exact Draft.closed_of_filled hgrows hline (hfilled addr hwait)
    · rw [if_neg heq] at hfirst
      exact hgrows.closed (h.carries other addr first hcall hfirst)

theorem define (h : Traced ops s calls) {name : Name} {entry : Cell}
    (hop : s.allows (.define name entry) = true) :
    ((s.perform (.define name entry)).2 = none ↔
      (signatureOf name ops).isSome = true ∧ entryOf name ops = none) ∧
    Traced (ops ++ [.define name entry])
      (s.perform (.define name entry)).1 calls := by
  have hrange : 0 ≤ entry.toInt ∧ entry.toInt ≤ s.draft.size := by
    simpa [allows] using hop
  have hsignature : ∀ other, signatureOf other (ops ++ [.define name entry]) =
      signatureOf other ops :=
    fun other => FunctionOp.signatureOf_concat_of_none ops rfl
  rw [← h.isSome_find?]
  -- a definition that is refused changes nothing, and it does not count in the
  -- history
  cases hf : s.funcs.find? name with
  | none =>
    have hnone : signatureOf name ops = none := by simpa [h.find] using hf
    simp only [perform, Functions.define, hf]
    refine ⟨by simp, h.of_history hsignature fun other => ?_⟩
    by_cases heq : name = other
    · rw [FunctionOp.entryOf_concat, ← heq, hnone]
      exact Option.or_none
    · exact FunctionOp.entryOf_concat_of_none ops (if_neg heq)
  | some f =>
    cases hdefined : f.isDefined with
    | true =>
      obtain ⟨first, hfirst⟩ := (h.isDefined_iff hf).mp hdefined
      simp only [perform, Functions.define, hf, hdefined, if_true]
      refine ⟨by simp [hfirst], h.of_history hsignature fun other => ?_⟩
      by_cases heq : name = other
      · rw [FunctionOp.entryOf_concat, ← heq, hfirst, Option.some_or]
      · exact FunctionOp.entryOf_concat_of_none ops (if_neg heq)
    | false =>
      have hnone : entryOf name ops = none := by
        refine Option.eq_none_iff_forall_ne_some.mpr fun first hfirst => ?_
        rw [(h.isDefined_iff hf).mpr ⟨first, hfirst⟩] at hdefined
        cases hdefined
      obtain ⟨hok, htraced⟩ := h.define_new hf hnone hrange
      exact ⟨by simp [hok, hnone], htraced⟩

theorem perform (h : Traced ops s calls) (hop : s.allows op = true) :
    Traced (ops ++ [op]) (s.perform op).1 (calls ++ s.calls op) := by
  cases op with
  | register ret name params =>
    simpa [Linkage.calls] using h.register ret name params
  | define name entry => simpa [Linkage.calls] using (h.define hop).2
  | call name count =>
    exact (h.call name count).of_history
      (fun other => FunctionOp.signatureOf_concat_of_none ops rfl) fun other =>
      FunctionOp.entryOf_concat_of_none ops rfl
  | code op =>
    have hcode :
        Traced ops (s.perform (.code op)).1 (calls ++ s.calls (.code op)) := by
      simpa [Linkage.calls] using h.code hop
    exact hcode.of_history
      (fun other => FunctionOp.signatureOf_concat_of_none ops rfl) fun other =>
      FunctionOp.entryOf_concat_of_none ops rfl

end Traced

theorem traced_after (hops : ({} : Linkage).allowsAll ops = true) :
    Traced ops (({} : Linkage).after ops) (({} : Linkage).callsBy ops) := by
  induction ops using List.reverseRecOn with
  | nil =>
    exact ⟨fun _ => rfl, .nil, by simp [entryOf], by simp [after],
      .nil, by simp [after, callsBy], by simp [callsBy]⟩
  | append_singleton ops op ih =>
    obtain ⟨hbefore, hlast⟩ := allowsAll_append.mp hops
    have hop : (({} : Linkage).after ops).allows op = true := by
      simpa [allowsAll] using hlast
    have hcalls : (({} : Linkage).after ops).callsBy [op] =
        (({} : Linkage).after ops).calls op := List.append_nil _
    rw [after_append, callsBy_append, hcalls]
    exact (ih hbefore).perform hop

/-- A history of functions and their calls, in which addresses are recorded
inside the code and calls are filled by nothing else. An address is recorded
exactly if the name is registered and has none yet. A call is emitted exactly if
the name is registered with as many parameters; it carries the address of its
function, before or after which it was emitted, and its operand is open exactly
as long as there is none. The functions still missing are those that have been
called and not defined, in order, and the table of addresses holds those that
have been defined. -/
theorem calls_reach_their_functions {ops : List FunctionOp}
    (hops : ({} : Linkage).allowsAll ops = true) :
    let start : Linkage := {}
    let s := start.after ops
    (∀ earlier name entry later, ops = earlier ++ .define name entry :: later →
      (((start.after earlier).perform (.define name entry)).2 = none ↔
      (signatureOf name earlier).isSome = true ∧ entryOf name earlier = none)) ∧
    (∀ earlier name count later, ops = earlier ++ .call name count :: later →
      (((start.after earlier).perform (.call name count)).2 = none ↔
      ∃ signature, signatureOf name earlier = some signature ∧
      (signature.2.length : Int) = count)) ∧
    (∀ name addr, (name, addr) ∈ start.callsBy ops →
      (∀ entry, entryOf name ops = some entry →
      s.draft.instrs[addr]? = some { op := .call, operand := entry }) ∧
      (addr ∈ s.draft.openAddrs ↔ entryOf name ops = none)) ∧
    (s.funcs.unresolved.Pairwise (fun a b => Bytes.before a b = true) ∧
      ∀ name, name ∈ s.funcs.unresolved ↔
        (∃ addr, (name, addr) ∈ start.callsBy ops) ∧ entryOf name ops = none) ∧
    ∀ name, s.funcs.entries.get? name = entryOf name ops := by
  intro start s
  have h : Traced ops s (start.callsBy ops) := traced_after hops
  have hsplit : ∀ {earlier op later}, ops = earlier ++ op :: later →
      Traced earlier (start.after earlier) (start.callsBy earlier) ∧
      (start.after earlier).allows op = true := by
    rintro earlier op later rfl
    obtain ⟨hbefore, hlast⟩ := allowsAll_append.mp hops
    exact ⟨traced_after hbefore, (Bool.and_eq_true_iff.mp hlast).1⟩
  refine ⟨fun earlier name entry later heq => ?_,
    fun earlier name count later heq => ?_, fun name addr hcall => ?_,
    ⟨?_, fun name => ?_⟩, fun name => ?_⟩
  · obtain ⟨hbefore, hop⟩ := hsplit heq
    exact (hbefore.define hop).1
  · exact (hsplit heq).1.call_ok_iff name count
  · refine ⟨fun entry hentry => ?_, fun hopen => ?_, fun hnone => ?_⟩
    · exact (h.carries name addr entry hcall hentry).getElem?_instrs
    · refine Option.eq_none_iff_forall_ne_some.mpr fun entry hentry => ?_
      exact (h.carries name addr entry hcall hentry).not_isOpen
        (Draft.mem_openAddrs.mp hopen)
    · exact (h.opens _ ((h.waits name addr).mpr ⟨hcall, hnone⟩)).mem_openAddrs
  · exact List.pairwise_map.mpr (Symbols.ordered _)
  · rw [Functions.mem_unresolved]
    simp only [h.waits]
    exact exists_and_right
  · exact h.get?_entries name

/-- One function is called before and after its address is recorded, another is
called and never defined; a call with the wrong number of arguments, a second
definition and one of an unknown name are refused. -/
def calledTwice : List FunctionOp :=
  [.register .int (text "f") [], .register .int (text "g") [⟨.int, text "x"⟩],
    .call (text "f") 0, .code (.emitOpen .entry), .call (text "g") 1,
    .call (text "g") 0, .define (text "f") 1, .code (.fill 1 0),
    .call (text "f") 0, .define (text "f") 2, .define (text "h") 0]

theorem calls_reach_their_functions_calledTwice :
    let s := ({} : Linkage).after calledTwice
    ({} : Linkage).allowsAll calledTwice = true ∧
    ({} : Linkage).callsBy calledTwice =
    [(text "f", 0), (text "g", 2), (text "f", 3)] ∧
    ((({} : Linkage).after (calledTwice.take 6)).perform
      (.define (text "f") 1)).2 = none ∧
      ((({} : Linkage).after (calledTwice.take 9)).perform
        (.define (text "f") 2)).2 ≠ none ∧
        s.draft.instrs[0]? = some { op := .call, operand := 1 } ∧
        s.draft.instrs[3]? = some { op := .call, operand := 1 } ∧
        2 ∈ s.draft.openAddrs ∧ text "g" ∈ s.funcs.unresolved ∧
        text "f" ∉ s.funcs.unresolved ∧
        s.funcs.entries.get? (text "f") = some 1 := by
  intro s
  have hops : ({} : Linkage).allowsAll calledTwice = true := by decide +kernel
  have hcalls : ({} : Linkage).callsBy calledTwice =
      [(text "f", 0), (text "g", 2), (text "f", 3)] := by
    decide +kernel
  have hf : entryOf (text "f") calledTwice = some 1 := by decide +kernel
  have hg : entryOf (text "g") calledTwice = none := by decide +kernel
  obtain ⟨hdefine, -, hcall, ⟨-, hunresolved⟩, hentries⟩ :=
    calls_reach_their_functions hops
  refine ⟨hops, hcalls, ?_, ?_, ?_, ?_, ?_, ?_, ?_, (hentries _).trans hf⟩
  · exact (hdefine (calledTwice.take 6) (text "f") 1 (calledTwice.drop 7)
      rfl).mpr (by decide +kernel)
  · rw [ne_eq,
      hdefine (calledTwice.take 9) (text "f") 2 (calledTwice.drop 10) rfl]
    decide +kernel
  · exact (hcall (text "f") 0 (by simp [hcalls])).1 1 hf
  · exact (hcall (text "f") 3 (by simp [hcalls])).1 1 hf
  · exact (hcall (text "g") 2 (by simp [hcalls])).2.mpr hg
  · exact (hunresolved _).mpr ⟨⟨2, by simp [hcalls]⟩, hg⟩
  · intro hmem
    rw [hunresolved, hf] at hmem
    cases hmem.2

end Linkage

end StackC
