import Mathlib
import StackC.Emit.Program
import StackC.Proofs.Layout

/-!
Where the functions of a program are. The code of an accepted list of functions
is the codes of its functions in their order, each laid out as its tree says,
with all calls linked to the addresses that the program gives for the functions.
-/

namespace StackC

namespace Symbols

theorem find?_insertEntry (name other : Name) (addr : Cell)
    (es : List (Name × Cell)) :
    (insertEntry name addr es).find? (·.1 == other) =
      if other = name then some (name, addr)
      else es.find? (·.1 == other) := by
  induction es with
  | nil =>
    by_cases h : other = name
    · simp [insertEntry, h]
    · simp [insertEntry, h, Ne.symm h]
  | cons e es ih =>
    simp only [insertEntry]
    by_cases h : other = name
    · subst h
      split
      next => simp
      next =>
        split
        next => simp
        next hne => simpa [Ne.symm hne] using ih
    · have hne : (name == other) = false := by simpa using Ne.symm h
      split
      next => simp [hne]
      next =>
        split
        next heq => simp [← heq, hne]
        next => simp only [List.find?_cons, ih, if_neg h]

theorem get?_insert (t : Symbols) (name other : Name) (addr : Cell) :
    (t.insert name addr).get? other = if other = name then some addr
      else t.get? other := by
  simp only [get?, insert, find?_insertEntry]
  split <;> rfl

theorem mem_names_iff {t : Symbols} {name : Name} :
    name ∈ t.entries.map (·.1) ↔ (t.get? name).isSome = true := by
  simp [get?, List.find?_isSome]

end Symbols

namespace Functions

variable {t : Functions}

theorem mem_unresolved {name : Name} :
    name ∈ t.unresolved ↔ ∃ addr, (name, addr) ∈ t.waiting := by
  have hfold (es : List (Name × Nat)) : ∀ s : Symbols,
      ((es.foldl (fun s e => s.insert e.1 0) s).get? name).isSome = true ↔
        (∃ addr, (name, addr) ∈ es) ∨ (s.get? name).isSome = true := by
    induction es with
    | nil => simp
    | cons e es ih =>
      intro s
      rw [List.foldl_cons, ih, Symbols.get?_insert]
      by_cases h : name = e.1
      · have hmem : (name, e.2) ∈ e :: es := by rw [h]; exact List.mem_cons_self
        rw [if_pos h]
        exact iff_of_true (Or.inr rfl) (Or.inl ⟨e.2, hmem⟩)
      · have hmem : (∃ addr, (name, addr) ∈ e :: es) ↔
            ∃ addr, (name, addr) ∈ es := by
          refine exists_congr fun addr => ?_
          rw [List.mem_cons, or_iff_right fun heq => h (congrArg Prod.fst heq)]
        rw [if_neg h, hmem]
  rw [unresolved, Symbols.mem_names_iff, hfold]
  simp [Symbols.get?]

/-- No call waits once no function is missing. -/
theorem waiting_of_unresolved (h : t.unresolved = []) : t.waiting = [] := by
  refine List.eq_nil_iff_forall_not_mem.mpr fun e he => ?_
  have hmem : e.1 ∈ t.unresolved := mem_unresolved.mpr ⟨e.2, he⟩
  rw [h] at hmem
  cases hmem

/-- The table of addresses holds the functions that have one. -/
theorem get?_entries (hnames : (t.defs.map (·.name)).Nodup) (name : Name) :
    t.entries.get? name = ((t.find? name).filter (·.isDefined)).map
      (·.entry) := by
  suffices hfold : ∀ (fs : List FuncDef) (s : Symbols),
    (fs.map (·.name)).Nodup →
    (fs.foldl (fun s f => if f.isDefined then s.insert f.name f.entry else s)
      s).get? name =
      (((fs.find? (·.name == name)).filter (·.isDefined)).map (·.entry)).or
      (s.get? name) by
    have h := hfold t.defs {} hnames
    rwa [show ({} : Symbols).get? name = none from rfl, Option.or_none] at h
  intro fs
  induction fs with
  | nil => simp
  | cons f fs ih =>
    intro s hnodup
    obtain ⟨hnew, hrest⟩ := List.nodup_cons.mp hnodup
    rw [List.foldl_cons, ih _ hrest]
    by_cases h : f.name = name
    · have hnone : fs.find? (·.name == name) = none := by
        rw [List.find?_eq_none]
        intro g hg hname
        have hsame : g.name = f.name := h ▸ by simpa using hname
        exact hnew (List.mem_map.mpr ⟨g, hg, hsame⟩)
      cases hdefined : f.isDefined
        <;> simp [h, hnone, hdefined, Option.filter_some, Symbols.get?_insert]
    · cases hdefined : f.isDefined <;> simp [h, Ne.symm h, Symbols.get?_insert]

/-- Recording an address fills the calls that wait for the function and changes
no other function. -/
theorem define_spec {t' : Functions} {d d' : Draft} {name : Name} {entry : Cell}
    (h : t.define d name entry = (t', d', none)) :
    d.Grows d' ∧ d'.size = d.size ∧ t'.signatures = t.signatures ∧
      t'.waiting = t.waiting.filter (·.1 != name) ∧
      (∀ other, t'.find? other = (t.find? other).map fun f =>
        if other = name then { f with entry } else f) ∧
      (∃ f, t.find? name = some f ∧ f.isDefined = false) ∧
      ∀ addr, (name, addr) ∈ t.waiting → d'.Filled addr entry := by
  simp only [define] at h
  split at h
  next => cases h
  next f hf =>
    split at h
    next => cases h
    next hdef =>
      split at h
      next => cases h
      next draft hfill =>
        cases h
        obtain ⟨hgrow, hsize, -, hfilled⟩ := Draft.fillAll_spec hfill
        refine ⟨hgrow, hsize, signatures_setEntry t name entry, rfl,
          fun other => find?_setEntry t name other entry,
          ⟨f, hf, by simpa using hdef⟩, fun addr hwait => hfilled addr ?_⟩
        simp only [waitingFor, setEntry, List.mem_reverse, List.mem_map,
          List.mem_filter]
        exact ⟨(name, addr), ⟨hwait, by simp⟩, rfl⟩

end Functions

/-- What a call of a function has to know. -/
def Function.signature (f : Function) : FuncDef :=
  { ret := f.ret, name := f.name, params := f.params }

variable {t : Functions} {o : Output} {f : Function} {L : Link}
  {start stop : Nat}

theorem registerAll_spec {fs : List Function} {t' : Functions}
    (h : registerAll t fs = .ok t') (hnames : (t.defs.map (·.name)).Nodup) :
    t'.defs = t.defs ++ fs.map Function.signature ∧ t'.waiting = t.waiting ∧
      (t'.defs.map (·.name)).Nodup ∧ ∀ f ∈ fs, checkSignature f = .ok () := by
  induction fs generalizing t with
  | nil =>
    cases h
    exact ⟨by simp, rfl, hnames, by simp⟩
  | cons f fs ih =>
    obtain ⟨⟨⟩, hcheck, h⟩ := ok_of_bind h
    obtain ⟨⟨g, mid⟩, hregister, h⟩ := ok_of_bind h
    simp only [Functions.register] at hregister
    obtain ⟨hnew, hregister⟩ := ok_of_else hregister
    cases hregister
    have hfresh : f.name ∉ t.defs.map (·.name) := by
      intro hmem
      obtain ⟨g, hg, hname⟩ := List.mem_map.mp hmem
      exact hnew (List.find?_isSome.mpr ⟨g, hg, by simpa using hname⟩)
    have hmid : ((t.defs ++ [f.signature]).map (·.name)).Nodup := by
      simp only [List.map_append, List.map_cons, List.map_nil]
      refine List.nodup_append.mpr ⟨hnames, by simp, fun a ha b hb heq => ?_⟩
      have hb : b = f.name := List.mem_singleton.mp hb
      exact hfresh (hb ▸ heq ▸ ha)
    obtain ⟨hdefs, hwaiting, hnodup, hsignatures⟩ := ih h hmid
    refine ⟨by simpa [Function.signature] using hdefs, hwaiting, hnodup,
      fun g hg => ?_⟩
    rcases List.mem_cons.mp hg with rfl | hg
    · exact ok_of_typed hcheck
    · exact hsignatures g hg

theorem Functions.exists_main {fs : List Function} {g : FuncDef}
    (hdefs : t.defs = fs.map Function.signature)
    (hlookup : t.lookup mainName 0 = .ok g) :
    ∃ f ∈ fs, f.name = mainName ∧ f.params = [] := by
  obtain ⟨hfind, hparams⟩ := of_lookup hlookup
  have hg : g ∈ t.defs := List.mem_of_find?_eq_some hfind
  rw [hdefs] at hg
  obtain ⟨f, hf, rfl⟩ := List.mem_map.mp hg
  exact ⟨f, hf, name_of_find? hfind, List.eq_nil_of_length_eq_zero hparams⟩

/-- The code of a function lies from `start` up to `stop`: the instruction that
reserves the local cells, the code of the body, and a return unless control
cannot reach the end of the body. -/
inductive LaidFunction (L : Link) (f : Function) (start : Nat) : Nat → Prop
  | intro {params last : Scope} {mid stop : Nat} {ends : Bool}
    (hparams : paramScope {} f.params = .ok params)
    (hentry : L.entry f.name = Int64.ofNat start)
    (hreserve : L.code[start]? =
      some { op := .entry, operand := last.cellCount })
    (hbody : Laid L f.ret (.one (.block f.body)) params (start + 1)
      last mid ends)
    (hreturn : ends = false → L.Holds mid Emitter.returnZero)
    (hstop : stop = if ends then mid else mid + 2) : LaidFunction L f start stop

/-- The codes of functions lie one after another from `start` up to `stop`. -/
inductive LaidFunctions (L : Link) : List Function → Nat → Nat → Prop
  | nil {start : Nat} : LaidFunctions L [] start start
  | cons {f : Function} {fs : List Function} {start mid stop : Nat}
    (hfirst : LaidFunction L f start mid)
    (hrest : LaidFunctions L fs mid stop) : LaidFunctions L (f :: fs) start stop

def paramVars (first : Nat) : List Param → List LocalVar
  | [] => []
  | p :: ps =>
    { ty := p.ty, name := p.name, isParam := true,
      slot := Int64.ofNat first } :: paramVars (first + 1) ps

theorem paramScope_eq {ps : List Param} {s s' : Scope}
    (h : paramScope s ps = .ok s') :
    s' = { s with
      params := (paramVars (s.paramCount + 1) ps).reverse ++ s.params
      paramCount := s.paramCount + ps.length } := by
  induction ps generalizing s with
  | nil =>
    cases h
    rfl
  | cons p ps ih =>
    obtain ⟨⟨v, mid⟩, hadd, h⟩ := ok_of_bind h
    have hrest : paramScope mid ps = .ok s' := h
    simp only [Scope.addParam] at hadd
    obtain ⟨-, hadd⟩ := ok_of_else hadd
    cases hadd
    rw [ih hrest]
    simp [paramVars]
    omega

theorem Scope.linked_of_loops {s : Scope} (h : s.loops = [])
    (target : LabelId → Option Nat) : s.linked target = s := by
  cases s
  simp_all [linked]

theorem isDefined_of_lt {f : FuncDef} {n : Nat} (h : f.entry = Int64.ofNat n)
    (hn : n < 2 ^ 63) : f.isDefined = true := by
  simp [FuncDef.isDefined, h, Int64.toInt_ofNat_of_lt hn]

/-- The start of a function: its address is recorded before its body is emitted,
so that the body may call the function itself. -/
theorem Output.grows_define {name : Name} {funcs : Functions} {draft : Draft}
    (h : o.funcs.define (o.draft.emitOpen .entry) name (Int64.ofNat o.size) =
      (funcs, draft, none))
    (hsize : o.size < 2 ^ 63) : o.Grows { o with funcs, draft } := by
  obtain ⟨hgrow, -, hsignatures, hwaiting, hfind, ⟨f, hf, hundefined⟩,
      hfilled⟩ := Functions.define_spec h
  refine ⟨(Draft.grows_emitOpen o.draft .entry).trans hgrow, hsignatures,
    fun other g hg hdef => ?_, fun other addr hwait => ?_, fun _ _ hs => hs⟩
  · have hne : other ≠ name := by
      rintro rfl
      rw [hf] at hg
      cases hg
      rw [hundefined] at hdef
      cases hdef
    simp [hfind, hg, hne]
  · by_cases heq : other = name
    · subst heq
      refine Or.inr ⟨{ f with entry := Int64.ofNat o.size }, ?_,
        isDefined_of_lt rfl hsize, hfilled addr hwait⟩
      simp [hfind, hf]
    · exact Or.inl (by simp [hwaiting, hwait, heq])

/-- What emitting a function does. Addresses are below `2 ^ 63`, as cells hold
them. -/
structure Output.Places (f : Function) (o o' : Output) : Prop where
  size : o.size < o'.size
  pool : o'.pool = o.pool.addAll (stmtsStrings f.body)
  grows : o.size < 2 ^ 63 → o.Grows o'
  laid : ∀ L target, o.size < 2 ^ 63 → o'.LinksTo L target →
    LaidFunction L f o.size o'.size

theorem Function.places_emit {o' : Output} (h : f.emit o = .ok o') :
    o.Places f o' := by
  obtain ⟨params, hparams, h⟩ := ok_of_bind h
  dsimp only at h
  split at h
  next => cases h
  next funcs draft hdefine =>
    obtain ⟨⟨ends, e⟩, hbody, h⟩ := ok_of_bind h
    have hlays := (Stmt.block f.body).lays_emit _ hbody
    obtain ⟨hdraft, hdraftSize, -, -, hfind, ⟨g, hg, -⟩, -⟩ :=
      Functions.define_spec hdefine
    rw [Draft.size_emitOpen] at hdraftSize
    obtain ⟨last, hlast⟩ : ∃ last, last = if ends = true then e
        else e.emitAll Emitter.returnZero := ⟨_, rfl⟩
    have hadds :
        e.out.Adds last.out (fun _ => if ends then []
        else Emitter.returnZero) [] := by
      rw [hlast]
      split
      · exact Output.adds_nil e.out
      · exact Output.adds_emitAll e.out Emitter.returnZero
    have hscope : last.scope = e.scope := by
      rw [hlast]
      split <;> rfl
    rw [← hlast] at h
    split at h
    next => cases h
    next filled hfill =>
      cases h
      obtain ⟨hfillGrow, hfillSize, -, hreserve⟩ := Draft.fill_spec hfill
      have hfilled : last.out.Grows { last.out with draft := filled } :=
        Output.Grows.of_draft hfillGrow
      have hstart : draft.size = o.size + 1 := hdraftSize
      have hbodySize : draft.size ≤ e.out.size := hlays.grows.draft.size_le
      have hstop : filled.size = last.out.size := hfillSize
      have hreturnSize : ∀ L : Link, last.out.size = e.out.size +
          (if ends then [] else Emitter.returnZero).length := hadds.size
      refine ⟨?_, ?_, ?_, ?_⟩
      · have : last.out.size ≥ e.out.size := hadds.grows.draft.size_le
        show o.size < filled.size
        omega
      · show last.out.pool = _
        rw [hadds.pool, hlays.pool]
        rfl
      · intro hsize
        exact (Output.grows_define hdefine hsize).trans
          (hlays.grows.trans (hadds.grows.trans hfilled))
      · intro L target hsize hlink
        have hlinkLast := hlink.of_grows hfilled
        have hlinkBody := hlinkLast.of_grows hadds.grows
        have hloops : params.loops = [] := by rw [paramScope_eq hparams]
        have hlaid :=
          hlays.laid L target hlinkBody (by simp [Emitter.LoopsBound, hloops])
        rw [Scope.linked_of_loops hloops,
          Scope.linked_of_loops (hlays.loops.trans hloops)] at hlaid
        rw [show Output.size { o with draft, funcs } = o.size + 1 from hstart]
          at hlaid
        have hreturn : ends = false →
            L.Holds e.out.size Emitter.returnZero := by
          rintro rfl
          exact hadds.holds L target hlinkLast
        have hreserved :
            L.code[o.size]? =
            some { op := .entry, operand := e.scope.cellCount } := by
          have hgrows :=
            hdraft.trans
              (hlays.grows.draft.trans (hadds.grows.draft.trans hfillGrow))
          rw [hscope] at hreserve
          exact hlink.closed
            (Draft.closed_of_filled hgrows (Draft.line_emitOpen o.draft .entry)
              hreserve)
        refine .intro hparams ?_ hreserved hlaid hreturn ?_
        · have hknown :
              funcs.find? f.name =
              some { g with entry := Int64.ofNat o.size } := by
            rw [hfind, hg, Option.map_some, if_pos rfl]
            rfl
          exact (hlinkBody.of_grows hlays.grows).entry hknown
            (isDefined_of_lt rfl hsize)
        · show filled.size = _
          rw [hstop, hreturnSize L]
          split <;> simp [Emitter.returnZero]

theorem laidFunctions_of_emitFunctions {fs : List Function} {o' : Output}
    (h : emitFunctions fs o = .ok o') (hsize : o'.size < 2 ^ 63) :
    o.Grows o' ∧
      o'.pool = o.pool.addAll (fs.flatMap fun f => stmtsStrings f.body) ∧
      ∀ L target, o'.LinksTo L target → LaidFunctions L fs o.size o'.size := by
  induction fs generalizing o with
  | nil =>
    cases h
    exact ⟨Output.Grows.refl _, rfl, fun _ _ _ => .nil⟩
  | cons f fs ih =>
    obtain ⟨mid, hfirst, h⟩ := ok_of_bind h
    have hplaces := Function.places_emit (ok_of_located hfirst)
    obtain ⟨hgrows, hpool, hlaid⟩ := ih h
    have hmid : mid.size ≤ o'.size := hgrows.draft.size_le
    have hstart : o.size < 2 ^ 63 := by
      have := hplaces.size
      omega
    refine ⟨(hplaces.grows hstart).trans hgrows, ?_, fun L target hlink => ?_⟩
    · rw [hpool, hplaces.pool, List.flatMap_cons, Pool.addAll_append]
    · exact .cons (hplaces.laid L target hstart (hlink.of_grows hgrows))
        (hlaid L target hlink)

/-- Every function that is laid out has an address. -/
theorem LaidFunctions.exists_start {fs : List Function}
    (h : LaidFunctions L fs start stop) (hf : f ∈ fs) :
    ∃ first last, LaidFunction L f first last := by
  induction h with
  | nil => cases hf
  | cons hfirst _ ih =>
    rcases List.mem_cons.mp hf with rfl | hf
    · exact ⟨_, _, hfirst⟩
    · exact ih hf

theorem LaidFunction.entry (h : LaidFunction L f start stop) :
    L.entry f.name = Int64.ofNat start := by
  cases h with
  | intro _ hentry => exact hentry

theorem LaidFunction.start_lt (h : LaidFunction L f start stop) :
    start < L.code.size := by
  cases h with
  | intro _ _ hreserve => exact (Array.getElem?_eq_some_iff.mp hreserve).1

theorem Instr.firstOutside_eq_none {size addr : Nat} {is : List Instr}
    (h : ∀ i ∈ is, i.jumpsOutside size = false) :
    firstOutside size addr is = none := by
  induction is generalizing addr with
  | nil => rfl
  | cons i is ih =>
    obtain ⟨hi, his⟩ := List.forall_mem_cons.mp h
    simp only [firstOutside, hi, Bool.false_eq_true, if_false, ih his]

/-- What the code of a program refers to. -/
def Program.link (p : Program) (fs : List Function) : Link where
  code := p.code
  entry name := (p.funcs.get? name).getD (-1)
  string s := ((stringPool fs).address? s).getD 0
  signatures := fs.map Function.signature

/-- A program is put together from functions. -/
structure Program.Places (p : Program) (fs : List Function) : Prop where
  names : (fs.map (·.name)).Nodup
  signatures : ∀ f ∈ fs, checkSignature f = .ok ()
  laid : LaidFunctions (p.link fs) fs 0 p.code.size
  data : p.data = (stringPool fs).data
  funcs : ∀ name, (p.funcs.get? name).isSome = true ↔ ∃ f ∈ fs, f.name = name
  main : ∃ f ∈ fs, f.name = mainName ∧ f.params = []
  entry : p.funcs.get? mainName = some p.entry

theorem find?_of_mem {ds : List α} {d : α} (name : α → Name)
    (hnames : (ds.map name).Nodup) (hd : d ∈ ds) :
    ds.find? (name · == name d) = some d := by
  induction ds with
  | nil => cases hd
  | cons e ds ih =>
    obtain ⟨hnew, hrest⟩ := List.nodup_cons.mp hnames
    rcases List.mem_cons.mp hd with rfl | hd
    · simp
    · have hne : name e ≠ name d :=
        fun heq => hnew (List.mem_map.mpr ⟨d, hd, heq.symm⟩)
      simp [hne, ih hrest hd]

def Functions.Names (t : Functions) (fs : List Function) : Prop :=
  t.defs.map (·.name) = fs.map (·.name)

theorem Functions.Names.isSome_find? {fs : List Function} (h : t.Names fs)
    (name : Name) : (t.find? name).isSome = true ↔ ∃ f ∈ fs, f.name = name := by
  have hmem : name ∈ t.defs.map (·.name) ↔ name ∈ fs.map (·.name) := by rw [h]
  simpa [Functions.find?, List.find?_isSome] using hmem

/-- Every function of a finished program has an address. -/
theorem Functions.Names.isDefined {fs : List Function} (h : t.Names fs)
    (hnodup : (fs.map (·.name)).Nodup) (hlaid : LaidFunctions L fs start stop)
    (hentry : ∀ name f, t.find? name = some f → L.entry name = f.entry)
    (hsize : L.code.size < 2 ^ 63) {d : FuncDef} (hd : d ∈ t.defs) :
    d.isDefined = true := by
  have hmem : d.name ∈ fs.map (·.name) := h ▸ List.mem_map.mpr ⟨d, hd, rfl⟩
  obtain ⟨f, hf, hname⟩ := List.mem_map.mp hmem
  obtain ⟨first, last, hf⟩ := hlaid.exists_start hf
  have hfind : t.find? d.name = some d := find?_of_mem _ (h ▸ hnodup) hd
  have hfirst : L.entry d.name = Int64.ofNat first := hname ▸ hf.entry
  rw [hentry d.name d hfind] at hfirst
  exact isDefined_of_lt hfirst (Nat.lt_trans hf.start_lt hsize)

/-- The steps by which a program is made. -/
theorem Program.of_ofFunctions {fs : List Function} {p : Program}
    (h : ofFunctions fs = .ok p) :
    ∃ funcs g o, registerAll {} fs = .ok funcs ∧
      funcs.lookup mainName 0 = .ok g ∧ emitFunctions fs { funcs } = .ok o ∧
      o.funcs.unresolved = [] ∧ o.draft.finish = .ok p.code ∧
      p.data = o.pool.data ∧
      p.entry = ((o.funcs.find? mainName).map (·.entry)).getD (-1) ∧
      p.funcs = o.funcs.entries := by
  obtain ⟨funcs, hregister, h⟩ := ok_of_bind h
  obtain ⟨g, hlookup, h⟩ := ok_of_bind h
  obtain ⟨o, hemit, h⟩ := ok_of_bind h
  split at h
  next => cases h
  next hunresolved =>
    split at h
    next => cases h
    next code hfinish =>
      cases h
      exact ⟨funcs, g, o, hregister, ok_of_located hlookup, hemit, hunresolved,
        hfinish, rfl, rfl, rfl⟩

/-- What an output without missing functions becomes. -/
def Output.link (o : Output) (code : Array Instr) : Link where
  code := code
  entry name := ((o.funcs.find? name).map (·.entry)).getD (-1)
  string s := (o.pool.address? s).getD 0
  signatures := o.funcs.signatures

theorem Output.finished_link {code : Array Instr}
    (hunresolved : o.funcs.unresolved = [])
    (hfinish : o.draft.finish = .ok code) : o.Finished (o.link code) where
  size := (Draft.finish_spec hfinish).1
  closed := (Draft.finish_spec hfinish).2
  waiting := Functions.waiting_of_unresolved hunresolved
  signatures := rfl
  entry name f hf := by simp [link, hf]
  string s c hs := by simp [link, hs]

/-- The program of an accepted list of functions is put together from them. -/
theorem Program.places_of_ofFunctions {fs : List Function} {p : Program}
    (h : ofFunctions fs = .ok p) (hsize : p.code.size < 2 ^ 63) :
    p.Places fs := by
  obtain ⟨funcs, g, o, hregister, hlookup, hemit, hunresolved, hfinish, hdata,
      hentry, hsymbols⟩ := of_ofFunctions h
  have hfinished := Output.finished_link hunresolved hfinish
  obtain ⟨hdefs, -, hnodup, hsignatures⟩ := registerAll_spec hregister (by simp)
  rw [List.nil_append] at hdefs
  have hfuncs : funcs.Names fs := by
    rw [Functions.Names, hdefs, List.map_map]
    rfl
  have hlast : p.code.size = o.size := hfinished.size
  have hbound : o.size < 2 ^ 63 := hlast ▸ hsize
  obtain ⟨hgrows, hpool, hlaid⟩ := laidFunctions_of_emitFunctions hemit hbound
  have hsignaturesEq : o.funcs.signatures = fs.map Function.signature := by
    rw [hgrows.signatures, Functions.signatures, hdefs, List.map_map]
    rfl
  have hnames : o.funcs.Names fs := by
    have hsame :
        o.funcs.signatures.map (·.name) = o.funcs.defs.map (·.name) := by
      simp [Functions.signatures, FuncDef.erase]
    rw [Functions.Names, ← hsame, hsignaturesEq, List.map_map]
    rfl
  have hplaced := hlaid _ _ ⟨o, Output.Grows.refl o, hfinished, fun _ => rfl⟩
  -- Every function has been emitted, so the table of addresses has all of them.
  have hnodupNames : (fs.map (·.name)).Nodup := hfuncs ▸ hnodup
  have hget (name : Name) :
      p.funcs.get? name = (o.funcs.find? name).map (·.entry) := by
    rw [hsymbols, Functions.get?_entries (hnames ▸ hnodupNames)]
    cases hfind : o.funcs.find? name with
    | none => rfl
    | some d =>
      have hd : d ∈ o.funcs.defs := List.mem_of_find?_eq_some hfind
      rw [Option.filter_some,
        if_pos (hnames.isDefined hnodupNames hplaced hfinished.entry hsize hd)]
  have hlink : p.link fs = o.link p.code := by
    simp only [link, Output.link, hget, hsignaturesEq, stringPool, hpool]
  have hmain : (funcs.find? mainName).isSome = true := by
    rw [(Functions.of_lookup hlookup).1]
    rfl
  refine ⟨hnodupNames, hsignatures, ?_, ?_, fun name => ?_, ?_, ?_⟩
  · rw [hlink, hlast]
    exact hplaced
  · rw [hdata, hpool]
    rfl
  · rw [hget, Option.isSome_map]
    exact hnames.isSome_find? name
  · exact Functions.exists_main hdefs hlookup
  · have hplace :=
      (hnames.isSome_find? _).mpr ((hfuncs.isSome_find? _).mp hmain)
    obtain ⟨d, hd⟩ := Option.isSome_iff_exists.mp hplace
    rw [hget, hentry, hd]
    rfl

end StackC
