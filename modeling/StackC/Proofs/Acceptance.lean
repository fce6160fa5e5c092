import StackC.Proofs.Emission

/-!
Which programs are accepted. The addresses of a program of fewer than `2 ^ 60`
nodes fit into cells, so all its functions are turned into code. Every one of
them gets an address, which fills the calls that wait for it, and a layout in
which some operand is still open is no layout of functions. Main statement:
exactly the well-formed programs are accepted.
-/

namespace StackC

variable {f : Function} {fs : List Function} {t : Functions}
  {functions : Name → Option Function} {o : Output}

theorem checkSignature_iff :
    checkSignature f = .ok () ↔
      (f.ret.isVoid = true ∨ f.ret.isScalar = true) ∧
        ∀ p ∈ f.params, p.ty.isScalar = true := by
  have hparams : f.params.find? (fun p => !p.ty.isScalar) = none ↔
      ∀ p ∈ f.params, p.ty.isScalar = true := by
    simp
  rw [← hparams]
  simp only [checkSignature]
  split
  next hret =>
    constructor
    · intro h
      cases h
    · rintro ⟨hvoid | hscalar, -⟩
      · simp [hvoid] at hret
      · simp [hscalar] at hret
  next hret =>
    have hret' : f.ret.isVoid = true ∨ f.ret.isScalar = true := by
      cases hvoid : f.ret.isVoid <;> simp_all
    split
    next p hp => simp [hp]
    next hnone => simp [hnone, hret']

theorem paramScope_iff {ps : List Param} {s : Scope} :
    (∃ s', paramScope s ps = .ok s') ↔
      (ps.map (·.name)).Nodup ∧ ∀ p ∈ ps, p.name ∉ s.params.map (·.name) := by
  induction ps generalizing s with
  | nil => simp [paramScope]
  | cons p ps ih =>
    have hfind : (Block.find? s.params p.name).isSome = true ↔
        p.name ∈ s.params.map (·.name) := by
      simp [Block.find?]
    constructor
    · rintro ⟨s', h⟩
      obtain ⟨⟨v, mid⟩, hadd, h⟩ := ok_of_bind h
      simp only [Scope.addParam] at hadd
      obtain ⟨hnew, hadd⟩ := ok_of_else hadd
      cases hadd
      obtain ⟨hnodup, hothers⟩ := ih.mp ⟨s', h⟩
      simp only [List.map_cons, List.mem_cons, not_or] at hothers
      refine ⟨List.nodup_cons.mpr ⟨fun hmem => ?_, hnodup⟩,
        List.forall_mem_cons.mpr ⟨?_, ?_⟩⟩
      · obtain ⟨q, hq, hname⟩ := List.mem_map.mp hmem
        exact (hothers q hq).1 hname
      · exact fun hmem => hnew (hfind.mpr hmem)
      · exact fun q hq => (hothers q hq).2
    · rintro ⟨hnodup, hothers⟩
      obtain ⟨hnew, hnodup⟩ := List.nodup_cons.mp hnodup
      obtain ⟨hp, hps⟩ := List.forall_mem_cons.mp hothers
      let v : LocalVar :=
        { ty := p.ty, name := p.name, isParam := true,
          slot := Int64.ofNat (s.paramCount + 1) }
      let more : Scope :=
        { s with params := v :: s.params, paramCount := s.paramCount + 1 }
      have hadd : s.addParam p.ty p.name = .ok (v, more) :=
        if_neg fun hold => hp (hfind.mp hold)
      obtain ⟨s', h⟩ := (ih (s := more)).mpr ⟨hnodup, fun q hq => by
        simp only [more, List.map_cons, List.mem_cons, not_or]
        exact ⟨fun heq => hnew (List.mem_map.mpr ⟨q, hq, heq⟩), hps q hq⟩⟩
      exact ⟨s', bind_ok hadd h⟩

theorem context_paramScope {s : Scope} (h : paramScope {} f.params = .ok s) :
    s.context = [f.paramScope] := by
  have hvars (first : Nat) (ps : List Param) :
      (paramVars first ps).map (fun v => (v.name, v.ty)) = ps.map fun p =>
      (p.name, p.ty) := by
    induction ps generalizing first with
    | nil => rfl
    | cons p ps ih => simp only [paramVars, List.map_cons, ih]
  rw [paramScope_eq h]
  simp [Scope.context, Function.paramScope, hvars]

theorem exists_registerAll
    (hnames : (t.defs.map (·.name) ++ fs.map (·.name)).Nodup)
    (hsignatures : ∀ f ∈ fs, checkSignature f = .ok ()) :
    ∃ t', registerAll t fs = .ok t' := by
  induction fs generalizing t with
  | nil => exact ⟨t, rfl⟩
  | cons f fs ih =>
    obtain ⟨hf, hfs⟩ := List.forall_mem_cons.mp hsignatures
    have hnew : ¬ (t.find? f.name).isSome = true := by
      intro hold
      obtain ⟨g, hg, hname⟩ := List.find?_isSome.mp hold
      have hg : f.name ∈ t.defs.map (·.name) :=
        List.mem_map.mpr ⟨g, hg, by simpa using hname⟩
      exact (List.nodup_append.mp hnames).2.2 _ hg _ List.mem_cons_self rfl
    have hregister :
        t.register f.ret f.name f.params =
        .ok (f.signature, { t with defs := t.defs ++ [f.signature] }) :=
      if_neg hnew
    obtain ⟨t', h⟩ := ih (t := { t with defs := t.defs ++ [f.signature] })
      (by simpa [Function.signature] using hnames) hfs
    exact ⟨t', bind_ok (typed_ok hf) (bind_ok hregister h)⟩

/-- After registration the functions are those of the program. -/
theorem Functions.declares_of_defs (h : t.defs = fs.map Function.signature) :
    t.Declares (declared fs) := by
  intro name
  rw [find?, h, List.find?_map, Option.map_map]
  rfl

theorem Functions.Declares.of_signatures {t' : Functions}
    (h : t.Declares functions) (hsignatures : t'.signatures = t.signatures) :
    t'.Declares functions := by
  intro name
  rw [← find?_signatures, hsignatures, find?_signatures]
  exact h name

/-- A function that is turned into code follows the rules. -/
theorem Function.valid_of_emit {functions : Name → Option Function}
    {f : Function} {o o' : Output} (h : f.emit o = .ok o')
    (ht : o.funcs.Declares functions) (hsignature : checkSignature f = .ok ()) :
    FunctionValid functions f ∧ o'.funcs.Declares functions := by
  obtain ⟨params, hparams, h⟩ := ok_of_bind h
  dsimp only at h
  split at h
  next => cases h
  next funcs draft hdefine =>
    obtain ⟨⟨ends, e⟩, hbody, h⟩ := ok_of_bind h
    obtain ⟨-, -, hsignatures, -⟩ := Functions.define_spec hdefine
    have hdeclares : funcs.Declares functions := ht.of_signatures hsignatures
    have hvalid := (Stmt.block f.body).valid_of_emit _ hbody hdeclares
    have hdefs := ((Stmt.block f.body).lays_emit _ hbody).defs
    obtain ⟨hret, hscalars⟩ := checkSignature_iff.mp hsignature
    constructor
    · refine ⟨hret, hscalars, (paramScope_iff.mp ⟨params, hparams⟩).1,
        e.scope.context, ?_⟩
      have hloops : params.inLoop = false := by
        rw [paramScope_eq hparams]
        rfl
      dsimp only at hvalid
      rwa [hloops, context_paramScope hparams] at hvalid
    · split at h
      next => cases h
      next filled hfill =>
        cases h
        refine hdeclares.of_defs (Eq.trans ?_ hdefs)
        cases ends <;> rfl

/-- A function that follows the rules is turned into code, and its address is
recorded. -/
theorem Function.exists_emit {g : FuncDef} (hvalid : FunctionValid functions f)
    (ht : o.funcs.Declares functions) (hsound : o.Sound)
    (hg : o.funcs.find? f.name = some g) (hundefined : g.isDefined = false)
    (hsize : o.size + 8 * f.nodes < 2 ^ 63) :
    ∃ o', f.emit o = .ok o' ∧ o'.Sound ∧ o'.size ≤ o.size + 8 * f.nodes ∧
      ∀ other, o'.funcs.find? other = (o.funcs.find? other).map fun d =>
        if other = f.name then { d with entry := Int64.ofNat o.size }
        else d := by
  obtain ⟨Γ, hbodyValid⟩ := hvalid.body
  obtain ⟨params, hparams⟩ : ∃ s, StackC.paramScope {} f.params = .ok s :=
    paramScope_iff.mpr ⟨hvalid.names, by simp⟩
  obtain ⟨funcs, draft, hdefine, hdefined, hopen⟩ :=
    Output.exists_define hsound hg hundefined
      (Nat.lt_of_le_of_lt (Nat.le_add_right _ _) hsize)
  obtain ⟨-, hdraftSize, hsignatures, -, hfind, -⟩ :=
    Functions.define_spec hdefine
  have hstart : draft.size = o.size + 1 := by
    rw [hdraftSize, Draft.size_emitOpen]; rfl
  let start : Emitter := { out := { o with funcs, draft }, scope := params }
  have hready :
      Emitter.Ready functions false (Stmt.block f.body).nodes start := by
    refine ⟨ht.of_signatures hsignatures, hdefined, by simp, ?_⟩
    show draft.size + _ < _
    simp only [Function.nodes] at hsize
    omega
  obtain ⟨ends, e, hbody, hextends, -⟩ :=
    (Stmt.block f.body).emittable_of_valid
      { ret := f.ret, name := f.name, params := f.params,
        entry := Int64.ofNat o.size } hbodyValid start
          (context_paramScope hparams) hready
  have hdefs : e.out.funcs.defs = funcs.defs :=
    ((Stmt.block f.body).lays_emit _ hbody).defs
  obtain ⟨last, hlast⟩ : ∃ last, last = if ends = true then e
      else e.emitAll Emitter.returnZero := ⟨_, rfl⟩
  have hreturn : e.out.Keeps 0 last.out ∧ last.out.size ≤ e.out.size + 2 ∧
      last.out.funcs = e.out.funcs := by
    rw [hlast]
    cases ends with
    | true => exact ⟨.refl 0 e.out, Nat.le_add_right _ _, rfl⟩
    | false =>
      refine ⟨Output.keeps_emitAll 0 e.out _, ?_, rfl⟩
      rw [if_neg Bool.false_ne_true, Emitter.size_emitAll]
      exact Nat.le_refl _
  obtain ⟨hkeeps, hlastSize, hlastFuncs⟩ := hreturn
  have hopenLast : last.out.draft.OpenAt o.size .entry :=
    hkeeps.draft.opens _ _ rfl (hextends.keeps.draft.opens _ _ rfl hopen)
  obtain ⟨filled, hfill, hfinal⟩ :=
    Output.exists_fill_entry last.scope.cellCount
      (hkeeps.sound (hextends.keeps.sound hdefined)) hopenLast
  have hok : f.emit o = .ok { last.out with draft := filled } := by
    refine bind_ok hparams ?_
    have hdefine' :
        o.funcs.define (o.draft.emitOpen .entry) f.name
        (Int64.ofNat o.draft.size) = (funcs, draft, none) := hdefine
    have hfill' : last.out.draft.fill o.draft.size last.scope.cellCount =
        .ok filled := hfill
    dsimp only
    rw [hdefine']
    refine bind_ok hbody ?_
    dsimp only
    rw [← hlast, hfill']
    rfl
  refine ⟨_, hok, hfinal, ?_, fun other => ?_⟩
  · have hfilled : filled.size = last.out.draft.size :=
      (Draft.fill_spec hfill).2.1
    have hbodySize : e.out.size ≤ draft.size + 8 * (Stmt.block f.body).nodes :=
      hextends.size
    show filled.size ≤ _
    rw [hfilled]
    simp only [Output.size] at hlastSize hbodySize ⊢
    simp only [Output.size] at hstart
    simp only [Function.nodes]
    omega
  · show last.out.funcs.find? other = _
    rw [hlastFuncs, Functions.find?, hdefs]
    exact hfind other

/-- Functions that are turned into code follow the rules. -/
theorem functionsValid_of_emitFunctions {o' : Output}
    (h : emitFunctions fs o = .ok o') (ht : o.funcs.Declares functions)
    (hsignatures : ∀ f ∈ fs, checkSignature f = .ok ()) :
    ∀ f ∈ fs, FunctionValid functions f := by
  induction fs generalizing o with
  | nil => simp
  | cons f fs ih =>
    obtain ⟨mid, hfirst, h⟩ := ok_of_bind h
    obtain ⟨hf, hfs⟩ := List.forall_mem_cons.mp hsignatures
    obtain ⟨hvalid, hmid⟩ := Function.valid_of_emit (ok_of_located hfirst) ht hf
    exact List.forall_mem_cons.mpr ⟨hvalid, ih h hmid hfs⟩

/-- An accepted program is well-formed. -/
theorem wellFormed_of_ofFunctions {p : Program}
    (h : Program.ofFunctions fs = .ok p) : WellFormed fs := by
  obtain ⟨funcs, g, o, hregister, hlookup, hemit, -⟩ := Program.of_ofFunctions h
  obtain ⟨hdefs, -, hnodup, hsignatures⟩ := registerAll_spec hregister (by simp)
  rw [List.nil_append] at hdefs
  constructor
  · rw [hdefs, List.map_map] at hnodup
    exact hnodup
  · exact Functions.exists_main hdefs hlookup
  · exact functionsValid_of_emitFunctions hemit
      (Functions.declares_of_defs hdefs) hsignatures

/-- Functions that follow the rules are turned into code, and all their
addresses are recorded. -/
theorem exists_emitFunctions (hvalid : ∀ f ∈ fs, FunctionValid functions f)
    (ht : o.funcs.Declares functions) (hsound : o.Sound)
    (hnames : (fs.map (·.name)).Nodup)
    (hundefined : ∀ f ∈ fs, ∃ g, o.funcs.find? f.name = some g ∧
      g.isDefined = false)
    (hsize : o.size + 8 * nodeCount fs < 2 ^ 63) :
    ∃ o', emitFunctions fs o = .ok o' ∧ o'.Sound ∧
      o'.size ≤ o.size + 8 * nodeCount fs ∧
      ∀ f ∈ fs, ∃ g, o'.funcs.find? f.name = some g ∧ g.isDefined = true := by
  induction fs generalizing o with
  | nil => exact ⟨o, rfl, hsound, Nat.le_add_right _ _, by simp⟩
  | cons f fs ih =>
    have hnodes : nodeCount (f :: fs) = f.nodes + nodeCount fs := by
      simp [nodeCount]
    rw [hnodes] at hsize ⊢
    obtain ⟨hf, hfs⟩ := List.forall_mem_cons.mp hvalid
    obtain ⟨⟨g, hg, hgUndefined⟩, hothers⟩ := List.forall_mem_cons.mp hundefined
    obtain ⟨hnew, hnames⟩ := List.nodup_cons.mp hnames
    obtain ⟨mid, hmid, hmidSound, hmidSize, hfind⟩ :=
      Function.exists_emit hf ht hsound hg hgUndefined
        (Nat.lt_of_le_of_lt (by omega) hsize)
    have hmidDeclares : mid.funcs.Declares functions :=
      (Function.valid_of_emit hmid ht
        (checkSignature_iff.mpr ⟨hf.ret, hf.params⟩)).2
    have hmidUndefined : ∀ f ∈ fs, ∃ g, mid.funcs.find? f.name = some g ∧
        g.isDefined = false := by
      intro f' hf'
      obtain ⟨g', hg', hg'Undefined⟩ := hothers f' hf'
      have hne : f'.name ≠ f.name :=
        fun heq => hnew (List.mem_map.mpr ⟨f', hf', heq⟩)
      exact ⟨g', by rw [hfind, hg', Option.map_some, if_neg hne], hg'Undefined⟩
    obtain ⟨last, hlast, hlastSound, hlastSize, hdefined⟩ :=
      ih hfs hmidDeclares hmidSound hnames hmidUndefined (by omega)
    refine ⟨last, bind_ok (located_ok hmid) hlast, hlastSound, by omega,
      List.forall_mem_cons.mpr ⟨?_, hdefined⟩⟩
    have hmidKnown :
        mid.funcs.find? f.name =
        some { g with entry := Int64.ofNat o.size } := by
      rw [hfind, hg, Option.map_some, if_pos rfl]
    have hmidDefined :
        ({ g with entry := Int64.ofNat o.size } : FuncDef).isDefined = true :=
      isDefined_of_lt rfl (Nat.lt_of_le_of_lt (Nat.le_add_right _ _) hsize)
    obtain ⟨hgrows, -⟩ := laidFunctions_of_emitFunctions hlast (by omega)
    exact ⟨_, hgrows.entry f.name _ hmidKnown hmidDefined, hmidDefined⟩

/-- The lines of a draft, with an undefined instruction wherever an operand is
open. -/
def Draft.masked (d : Draft) : Array Instr :=
  d.lines.map fun line => if line.isOpen then { op := .illegal 33 (by decide) }
    else line.instr

theorem Output.finished_masked (h : o.funcs.waiting = []) :
    o.Finished (o.link o.draft.masked) where
  size := by simp [link, Draft.masked, Draft.size]
  closed addr i hclosed := by
    have hline : o.draft.lines[addr]? = some { instr := i } := hclosed
    simp [link, Draft.masked, hline]
  waiting := h
  signatures := rfl
  entry name f hf := by simp [link, hf]
  string s c hs := by simp [link, hs]

/-- Every address of laid out functions is in one of them. -/
theorem LaidFunctions.exists_of_lt {L : Link} {start stop addr : Nat}
    (h : LaidFunctions L fs start stop) (hlow : start ≤ addr)
    (hhigh : addr < stop) :
    ∃ f ∈ fs, ∃ first last, LaidFunction L f first last ∧ first ≤ addr ∧
      addr < last := by
  induction h with
  | nil => omega
  | @cons f fs first mid stop hfirst _ ih =>
    by_cases hmid : addr < mid
    · exact ⟨f, List.mem_cons_self, first, mid, hfirst, hlow, hmid⟩
    · obtain ⟨g, hg, hrest⟩ := ih (Nat.le_of_not_lt hmid) hhigh
      exact ⟨g, List.mem_cons_of_mem f hg, hrest⟩

theorem toInt_ofNat_inside {n size : Nat} (hn : n < size)
    (hsize : size < 2 ^ 63) :
    0 ≤ (Int64.ofNat n).toInt ∧ (Int64.ofNat n).toInt < size := by
  rw [Int64.toInt_ofNat_of_lt (Nat.lt_trans hn hsize)]
  omega

/-- An instruction of laid out functions is a defined one, a jump stays inside
the code, and an operand that is not used is 0. -/
theorem LaidFunctions.instr {L : Link} {addr : Nat}
    (h : LaidFunctions L fs 0 L.code.size)
    (hsignatures : L.signatures = fs.map Function.signature)
    (hsize : L.code.size < 2 ^ 63) (haddr : addr < L.code.size) :
    ∃ i, L.code[addr]? = some i ∧ (∀ n hn, i.op ≠ .illegal n hn) ∧
      i.jumpsOutside L.code.size = false ∧
      (i.op.hasOperand = false → i.operand = 0) := by
  obtain ⟨f, -, first, last, hf, hlow, hhigh⟩ :=
    h.exists_of_lt (Nat.zero_le _) haddr
  have hshape := hf.shape
  by_cases heq : addr = first
  · subst heq
    exact ⟨_, hshape.reserve, by simp, rfl, fun hop => by cases hop⟩
  · obtain ⟨i, hi, hshaped⟩ := hshape.body addr (by omega) hhigh
    refine ⟨i, hi, fun n hn hop => ?_, ?_, hshaped.operand_eq_zero⟩
    · simp [Instr.Shaped, hop] at hshaped
    · have hinside : i.op.isJump = true → 0 ≤ i.operand.toInt ∧
          i.operand.toInt < L.code.size := by
        intro hjump
        cases hop : i.op with
        | jump | jumpZero =>
          rw [Instr.Shaped, hop] at hshaped
          obtain ⟨target, ⟨-, htarget⟩, hoperand⟩ := hshaped
          rw [hoperand]
          exact toInt_ofNat_inside (Nat.lt_of_lt_of_le htarget hshape.le) hsize
        | call =>
          rw [Instr.Shaped, hop] at hshaped
          obtain ⟨d, hd, hoperand, -⟩ := hshaped
          rw [hsignatures] at hd
          obtain ⟨g, hg, rfl⟩ := List.mem_map.mp hd
          obtain ⟨start, stop, hlaid⟩ := h.exists_start hg
          have hentry : L.entry g.signature.name = Int64.ofNat start :=
            hlaid.entry
          rw [hoperand, hentry]
          exact toInt_ofNat_inside hlaid.start_lt hsize
        | _ => simp [hop, Opcode.isJump] at hjump
      cases hjump : i.op.isJump with
      | false => simp [Instr.jumpsOutside, hjump]
      | true =>
        obtain ⟨hnonneg, hlt⟩ := hinside hjump
        simp [Instr.jumpsOutside, hjump, hnonneg, hlt]

/-- Code that is laid out has no open operand. -/
theorem Output.exists_finish
    (hlaid : LaidFunctions (o.link o.draft.masked) fs 0 o.size)
    (hsignatures : o.funcs.signatures = fs.map Function.signature)
    (hsize : o.size < 2 ^ 63) :
    ∃ code, o.draft.finish = .ok code ∧ code.size = o.size := by
  have hcodeSize : (o.link o.draft.masked).code.size = o.size := by
    simp [link, Draft.masked, Output.size, Draft.size]
  have hline : ∀ (addr : Nat) (line : Draft.Line),
      o.draft.lines[addr]? = some line → line.isOpen = false ∧
      line.instr.jumpsOutside o.size = false := by
    intro addr line hline
    have haddr : addr < o.size := (Array.getElem?_eq_some_iff.mp hline).1
    rw [← hcodeSize] at hlaid hsize haddr
    obtain ⟨i, hi, hdefined, hinside, -⟩ := hlaid.instr hsignatures hsize haddr
    rw [hcodeSize] at hinside
    have hmasked :
        (o.link o.draft.masked).code[addr]? =
        some (if line.isOpen then { op := .illegal 33 (by decide) }
        else line.instr) := by
      simp [link, Draft.masked, hline]
    rw [hmasked] at hi
    cases hopen : line.isOpen with
    | true =>
      rw [hopen, if_pos rfl] at hi
      cases hi
      exact absurd rfl (hdefined 33 (by decide))
    | false =>
      rw [hopen, if_neg Bool.false_ne_true] at hi
      cases hi
      exact ⟨rfl, hinside⟩
  have hopen : o.draft.openAddrs = [] := by
    refine List.filter_eq_nil_iff.mpr fun addr haddr => ?_
    have hlt : addr < o.draft.lines.size := List.mem_range.mp haddr
    simp only [Draft.isOpen, Array.getElem?_eq_getElem hlt]
    simp [(hline addr _ (Array.getElem?_eq_getElem hlt)).1]
  have hinside :
      Instr.firstOutside o.draft.size 0 o.draft.instrs.toList = none := by
    refine Instr.firstOutside_eq_none fun i hi => ?_
    obtain ⟨addr, haddr⟩ := List.mem_iff_getElem?.mp hi
    simp only [Draft.instrs, Array.toList_map, List.getElem?_map,
      Array.getElem?_toList, Option.map_eq_some_iff] at haddr
    obtain ⟨line, hat, rfl⟩ := haddr
    exact (hline addr line hat).2
  refine ⟨o.draft.instrs, ?_, by simp [Draft.instrs, Output.size, Draft.size]⟩
  simp only [Draft.finish, hopen, hinside]

/-- No call waits when all functions of a program have addresses. -/
theorem Output.Sound.waiting_eq_nil (h : o.Sound)
    (hsignatures : o.funcs.signatures = fs.map Function.signature)
    (hdefined : ∀ f ∈ fs, ∃ g, o.funcs.find? f.name = some g ∧
      g.isDefined = true) : o.funcs.waiting = [] := by
  refine List.eq_nil_iff_forall_not_mem.mpr fun e he => ?_
  obtain ⟨-, g, hg, hundefined⟩ := h.calls e he
  have hmem : g.erase ∈ fs.map Function.signature := by
    rw [← hsignatures]
    exact List.mem_map.mpr ⟨g, List.mem_of_find?_eq_some hg, rfl⟩
  obtain ⟨f, hf, hsame⟩ := List.mem_map.mp hmem
  have hname : f.name = e.1 := by
    have hfname : f.signature.name = g.erase.name := by rw [hsame]
    have hgname : g.name = e.1 := Functions.name_of_find? hg
    exact hfname.trans hgname
  obtain ⟨g', hg', hg'Defined⟩ := hdefined f hf
  rw [hname, hg] at hg'
  cases hg'
  rw [hundefined] at hg'Defined
  cases hg'Defined

def Output.program (o : Output) (code : Array Instr) : Program where
  code := code
  data := o.pool.data
  entry := ((o.funcs.find? mainName).map (·.entry)).getD (-1)
  funcs := o.funcs.entries

theorem Program.ofFunctions_of_emit {funcs : Functions} {main : FuncDef}
    {code : Array Instr} (hregister : registerAll {} fs = .ok funcs)
    (hmain : funcs.lookup mainName 0 = .ok main)
    (hemit : emitFunctions fs { funcs } = .ok o)
    (hunresolved : o.funcs.unresolved = [])
    (hfinish : o.draft.finish = .ok code) :
    ofFunctions fs = .ok (o.program code) := by
  refine bind_ok hregister (bind_ok (located_ok hmain) (bind_ok hemit ?_))
  simp only [hunresolved, hfinish]
  rfl

/-- A well-formed program is accepted, if its addresses fit into cells. -/
theorem WellFormed.exists_program (h : WellFormed fs)
    (hnodes : nodeCount fs < 2 ^ 60) :
    ∃ p, Program.ofFunctions fs = .ok p ∧ p.code.size < 2 ^ 63 := by
  have hsignatures : ∀ f ∈ fs, checkSignature f = .ok () := fun f hf =>
    checkSignature_iff.mpr ⟨(h.functions f hf).ret, (h.functions f hf).params⟩
  obtain ⟨funcs, hregister⟩ := exists_registerAll (t := {}) h.names hsignatures
  obtain ⟨hdefs, hwaiting, -, -⟩ := registerAll_spec hregister (by simp)
  rw [List.nil_append] at hdefs
  have hfind (name : Name) :
      funcs.find? name = (declared fs name).map Function.signature := by
    rw [Functions.find?, hdefs, List.find?_map]
    rfl
  have hdeclared {f : Function} (hf : f ∈ fs) : declared fs f.name = some f :=
    find?_of_mem _ h.names hf
  obtain ⟨main, hmain, hname, hparams⟩ := h.main
  have hlookup : funcs.lookup mainName 0 = .ok main.signature := by
    have hfound : funcs.find? mainName = some main.signature := by
      rw [hfind, ← hname, hdeclared hmain]
      rfl
    simp [Functions.lookup, hfound, Function.signature, hparams]
  have hstart : ({ funcs } : Output).Sound := by
    refine ⟨⟨fun l => ?_, fun l addr haddr => ?_, fun l k addr haddr => ?_⟩,
      ?_, ?_⟩
    · exact List.nodup_nil
    · cases haddr
    · cases haddr
    · show ∀ e ∈ funcs.waiting, _
      rw [hwaiting]
      simp
    · show (funcs.waiting.map _).Nodup
      rw [hwaiting]
      exact List.nodup_nil
  have hundefined : ∀ f ∈ fs, ∃ g, funcs.find? f.name = some g ∧
      g.isDefined = false := fun f hf =>
    ⟨f.signature, by rw [hfind, hdeclared hf]; rfl, rfl⟩
  have hroom : ({ funcs } : Output).size + 8 * nodeCount fs < 2 ^ 63 := by
    show 0 + 8 * nodeCount fs < 2 ^ 63
    omega
  obtain ⟨o, hemit, hsound, hsize, hdefined⟩ := exists_emitFunctions h.functions
    (Functions.declares_of_defs hdefs) hstart h.names hundefined hroom
  have hfits : o.size < 2 ^ 63 := Nat.lt_of_le_of_lt hsize hroom
  obtain ⟨hgrows, -, hlaid⟩ := laidFunctions_of_emitFunctions hemit hfits
  have hsame : o.funcs.signatures = fs.map Function.signature := by
    rw [hgrows.signatures, Functions.signatures, hdefs, List.map_map]
    rfl
  have hnone := hsound.waiting_eq_nil hsame hdefined
  have hplaced :=
    hlaid _ _ ⟨o, Output.Grows.refl o, Output.finished_masked hnone,
      fun _ => rfl⟩
  obtain ⟨code, hfinish, hcode⟩ := Output.exists_finish hplaced hsame hfits
  have hunresolved : o.funcs.unresolved = [] := by
    rw [Functions.unresolved, hnone]
    rfl
  exact ⟨_, Program.ofFunctions_of_emit hregister hlookup hemit hunresolved
    hfinish, hcode ▸ hfits⟩

/-- Exactly the well-formed programs are accepted. The bound on the number of
nodes says that the addresses of the code fit into cells. -/
theorem Program.accepts_exactly_wellFormed (fs : List Function)
    (hnodes : nodeCount fs < 2 ^ 60) :
    (∃ p, ofFunctions fs = .ok p) ↔ WellFormed fs := by
  constructor
  · rintro ⟨p, h⟩
    exact wellFormed_of_ofFunctions h
  · intro h
    obtain ⟨p, hp, -⟩ := h.exists_program hnodes
    exact ⟨p, hp⟩

/-- A variable is used behind the block it is declared in. -/
def escaped : List Function :=
  [{ ret := .int, name := mainName, params := []
     body := [.block [.init .int (text "n") (.int 2 none)],
       .ret (some (.var (text "n")))] }]

theorem Program.accepts_exactly_wellFormed_countdown :
    nodeCount countdown < 2 ^ 60 ∧ WellFormed countdown ∧
      nodeCount escaped < 2 ^ 60 ∧ ¬ WellFormed escaped := by
  refine ⟨by decide, ?_, by decide, ?_⟩
  · exact (accepts_exactly_wellFormed countdown (by decide)).mp
      ⟨countdownProgram, ofFunctions_countdown⟩
  · intro h
    obtain ⟨p, hp⟩ := (accepts_exactly_wellFormed escaped (by decide)).mpr h
    have hrefused : (ofFunctions escaped).toOption = none := by decide +kernel
    rw [hp] at hrefused
    cases hrefused

end StackC
