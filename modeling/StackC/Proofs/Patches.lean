import StackC.Proofs.Placed

/-!
Open operands. While code is emitted, a jump whose operand is open waits for one
label, and a call whose operand is open waits for one function. No address waits
for two things, and nothing is filled that something still waits for. So binding
a label that is free and recording the address of a function are never refused.
-/

namespace StackC

def Opcode.isBranch : Opcode → Bool
  | .jump | .jumpZero => true
  | _ => false

namespace Draft

variable {d d' d'' : Draft}

def OpenAt (d : Draft) (addr : Nat) (op : Opcode) : Prop :=
  ∃ operand, d.lines[addr]? = some { instr := { op, operand }, isOpen := true }

variable {op op' : Opcode} {operand : Cell} {l : LabelId}

theorem OpenAt.lt_size {addr : Nat} (h : d.OpenAt addr op) : addr < d.size := by
  obtain ⟨operand, hline⟩ := h
  exact (Array.getElem?_eq_some_iff.mp hline).1

theorem OpenAt.unique {addr : Nat} (h : d.OpenAt addr op)
    (h' : d.OpenAt addr op') : op = op' := by
  obtain ⟨operand, hline⟩ := h
  obtain ⟨operand', hline'⟩ := h'
  rw [hline] at hline'
  cases hline'
  rfl

theorem OpenAt.of_line {addr : Nat} (h : d.OpenAt addr op)
    (hline : d'.lines[addr]? = d.lines[addr]?) : d'.OpenAt addr op := by
  obtain ⟨operand, hopen⟩ := h
  exact ⟨operand, hline.trans hopen⟩

theorem OpenAt.emit {addr : Nat} (h : d.OpenAt addr op) :
    (d.emit op' operand).OpenAt addr op := by
  obtain ⟨other, hline⟩ := h
  exact ⟨other, getElem?_push_of_some hline⟩

theorem OpenAt.emitOpen {addr : Nat} (h : d.OpenAt addr op) :
    (d.emitOpen op').OpenAt addr op := by
  obtain ⟨other, hline⟩ := h
  exact ⟨other, getElem?_push_of_some hline⟩

theorem openAt_emitOpen (d : Draft) (op : Opcode) :
    (d.emitOpen op).OpenAt d.size op :=
  ⟨openOperand, line_emitOpen d op⟩

/-- An open operand is filled unless a jump would leave the code. -/
theorem refusal?_of_open {addr : Nat} (h : d.OpenAt addr op)
    (hrange : op.isJump = true → 0 ≤ operand.toInt ∧ operand.toInt ≤ d.size) :
    d.refusal? addr operand = none := by
  obtain ⟨old, hline⟩ := h
  have hnat : ¬ (addr : Int) < 0 := by omega
  have hinside :
      ¬ (op.isJump = true ∧
      (operand.toInt < 0 ∨ (d.size : Int) < operand.toInt)) := by
    rintro ⟨hjump, houtside⟩
    obtain ⟨hlow, hhigh⟩ := hrange hjump
    omega
  simp only [refusal?, if_neg hnat, Int.toNat_natCast, hline, if_neg hinside]

theorem lines_setOperand {addr place : Nat} (hne : place ≠ addr) :
    (d.setOperand addr operand).lines[place]? = d.lines[place]? := by
  rw [setOperand, Array.getElem?_modify, if_neg (Ne.symm hne)]

/-- Different open operands can be filled in turn, and no other line changes. -/
theorem fillAll_of_open {addrs : List Nat} (hnodup : addrs.Nodup)
    (hopen : ∀ addr ∈ addrs, ∃ op, d.OpenAt addr op)
    (hrange : 0 ≤ operand.toInt ∧ operand.toInt ≤ d.size) :
    ∃ d', d.fillAll operand addrs = (d', none) ∧
      ∀ place, place ∉ addrs → d'.lines[place]? = d.lines[place]? := by
  induction addrs generalizing d with
  | nil => exact ⟨d, rfl, fun _ _ => rfl⟩
  | cons addr addrs ih =>
    obtain ⟨hnew, hrest⟩ := List.nodup_cons.mp hnodup
    obtain ⟨op, hop⟩ := hopen addr List.mem_cons_self
    have hfill : d.refusal? addr operand = none :=
      refusal?_of_open hop fun _ => hrange
    have hstill : ∀ place ∈ addrs, ∃ op,
        (d.setOperand addr operand).OpenAt place op := by
      intro place hplace
      obtain ⟨op, hop⟩ := hopen place (List.mem_cons_of_mem addr hplace)
      have hne : place ≠ addr := fun heq => hnew (heq ▸ hplace)
      exact ⟨op, hop.of_line (lines_setOperand hne)⟩
    obtain ⟨d', hd', hlines⟩ :=
      ih hrest hstill (by rw [size_setOperand]; exact hrange)
    refine ⟨d', by simp only [fillAll, hfill, hd'], fun place hplace => ?_⟩
    rw [List.mem_cons, not_or] at hplace
    rw [hlines place hplace.2, lines_setOperand hplace.1]

/-- The jumps that wait for a label, latest first. -/
def pending (d : Draft) (l : LabelId) : List Nat :=
  match (d.label l).addr with
  | none => (d.label l).waiting
  | some _ => []

/-- Every jump that waits for a label has an open operand and one of the given
opcodes, and it waits for no other label. -/
structure Waits (jumps : Opcode → Bool) (d : Draft) : Prop where
  nodup : ∀ l, (d.pending l).Nodup
  opens : ∀ l, ∀ addr ∈ d.pending l, ∃ op, jumps op = true ∧ d.OpenAt addr op
  apart : ∀ l k addr, addr ∈ d.pending l → addr ∈ d.pending k → l = k

/-- Only branches wait for labels. -/
abbrev Sound (d : Draft) : Prop :=
  d.Waits Opcode.isBranch

variable {jumps : Opcode → Bool}

theorem Waits.of_opens (h : d.Waits jumps)
    (hpending : ∀ l, d'.pending l = d.pending l)
    (hopens : ∀ l, ∀ addr ∈ d.pending l, ∀ op, jumps op = true →
      d.OpenAt addr op → d'.OpenAt addr op) : d'.Waits jumps := by
  constructor
  · intro l
    rw [hpending]
    exact h.nodup l
  · intro l addr haddr
    rw [hpending] at haddr
    obtain ⟨op, hop, hopen⟩ := h.opens l addr haddr
    exact ⟨op, hop, hopens l addr haddr op hop hopen⟩
  · intro l k addr hl hk
    rw [hpending] at hl hk
    exact h.apart l k addr hl hk

/-- Between two drafts nothing was lost that something waits for: the labels
below `n` are bound to the same addresses as before, and only jumps have been
filled. -/
structure Keeps (n : Nat) (d d' : Draft) : Prop where
  sound : d.Sound → d'.Sound
  labels : d.labels.size ≤ d'.labels.size
  addr : ∀ l < n, (d'.label l).addr = (d.label l).addr
  opens : ∀ addr op, op.isBranch = false → d.OpenAt addr op → d'.OpenAt addr op

namespace Keeps

variable {n m : Nat}

theorem refl (n : Nat) (d : Draft) : d.Keeps n d where
  sound h := h
  labels := Nat.le_refl _
  addr _ _ := rfl
  opens _ _ _ h := h

theorem trans (hfirst : d.Keeps n d') (hsecond : d'.Keeps n d'') :
    d.Keeps n d'' where
  sound h := hsecond.sound (hfirst.sound h)
  labels := Nat.le_trans hfirst.labels hsecond.labels
  addr l hl := (hsecond.addr l hl).trans (hfirst.addr l hl)
  opens addr op hop h := hsecond.opens addr op hop (hfirst.opens addr op hop h)

theorem mono (h : d.Keeps n d') (hle : m ≤ n) : d.Keeps m d' where
  sound := h.sound
  labels := h.labels
  addr l hl := h.addr l (Nat.lt_of_lt_of_le hl hle)
  opens := h.opens

end Keeps

theorem keeps_emit (n : Nat) (d : Draft) (op : Opcode) (operand : Cell) :
    d.Keeps n (d.emit op operand) where
  sound h := h.of_opens (fun _ => rfl) fun _ _ _ _ _ hopen => hopen.emit
  labels := Nat.le_refl _
  addr _ _ := rfl
  opens _ _ _ hopen := hopen.emit

theorem keeps_emitOpen (n : Nat) (d : Draft) (op : Opcode) :
    d.Keeps n (d.emitOpen op) where
  sound h := h.of_opens (fun _ => rfl) fun _ _ _ _ _ hopen => hopen.emitOpen
  labels := Nat.le_refl _
  addr _ _ := rfl
  opens _ _ _ hopen := hopen.emitOpen

theorem pending_newLabel (d : Draft) (l : LabelId) :
    d.newLabel.2.pending l = d.pending l := by
  simp only [pending, label_newLabel]

theorem pending_here (d : Draft) (l : LabelId) :
    d.here.2.pending l = d.pending l := by
  simp only [pending, label_here]
  by_cases hl : l = d.labels.size
  · rw [if_pos hl, hl, label_of_size_le (Nat.le_refl _)]
  · rw [if_neg hl]

theorem keeps_newLabel (n : Nat) (d : Draft) : d.Keeps n d.newLabel.2 where
  sound h := h.of_opens d.pending_newLabel fun _ _ _ _ _ hopen => hopen
  labels := by simp [newLabel]
  addr l _ := by rw [label_newLabel]
  opens _ _ _ hopen := hopen

theorem keeps_here {n : Nat} (hn : n ≤ d.labels.size) : d.Keeps n d.here.2 where
  sound h := h.of_opens d.pending_here fun _ _ _ _ _ hopen => hopen
  labels := by simp [here]
  addr l hl := by
    have hne : l ≠ d.labels.size := Nat.ne_of_lt (Nat.lt_of_lt_of_le hl hn)
    rw [label_here, if_neg hne]
  opens _ _ _ hopen := hopen

/-- A jump to a label that is not bound waits for it. -/
theorem pending_jump_of_free (op : Opcode) (hfree : (d.label l).addr = none)
    (k : LabelId) :
    (d.jump op l).pending k =
      if l = k ∧ k < d.labels.size then d.size :: d.pending k
      else d.pending k := by
  have hlabel : (d.jump op l).label k = if l = k ∧ k < d.labels.size then
      { d.label k with waiting := d.size :: (d.label k).waiting }
        else d.label k := by
    simp only [jump, hfree]
    exact label_modify (d.emitOpen op) l k fun b =>
      { b with waiting := d.size :: b.waiting }
  simp only [pending, hlabel]
  by_cases hk : l = k ∧ k < d.labels.size
  · rw [if_pos hk, if_pos hk, ← hk.1, hfree]
  · rw [if_neg hk, if_neg hk]

theorem addr_jump (d : Draft) (op : Opcode) (l k : LabelId) :
    ((d.jump op l).label k).addr = (d.label k).addr := by
  simp only [jump]
  split
  next => rfl
  next =>
    rw [label_modify]
    split <;> rfl

theorem OpenAt.jump {addr : Nat} {op op' : Opcode} {l : LabelId}
    (h : d.OpenAt addr op) : (d.jump op' l).OpenAt addr op := by
  simp only [Draft.jump]
  split
  next => exact h.emit
  next => exact h.emitOpen

theorem Waits.jump {op : Opcode} (h : d.Waits jumps) (hop : jumps op = true)
    (l : LabelId) : (d.jump op l).Waits jumps := by
  cases hbound : (d.label l).addr with
  | some target =>
    refine h.of_opens (fun k => ?_) fun _ _ _ _ _ hopen => hopen.jump
    simp only [Draft.jump, hbound]
    rfl
  | none =>
    have hpending := pending_jump_of_free op hbound
    have hnew : ∀ k, d.size ∉ d.pending k := by
      intro k hmem
      obtain ⟨op, -, hopen⟩ := h.opens k d.size hmem
      exact Nat.lt_irrefl _ hopen.lt_size
    have hopen : (d.jump op l).OpenAt d.size op := by
      simp only [Draft.jump, hbound]
      exact openAt_emitOpen d op
    constructor
    · intro k
      rw [hpending]
      split
      next => exact List.nodup_cons.mpr ⟨hnew k, h.nodup k⟩
      next => exact h.nodup k
    · intro k addr haddr
      have hold : addr ∈ d.pending k → ∃ op', jumps op' = true ∧
          (d.jump op l).OpenAt addr op' := by
        intro hmem
        obtain ⟨op', hop', hopen'⟩ := h.opens k addr hmem
        exact ⟨op', hop', hopen'.jump⟩
      rw [hpending] at haddr
      split at haddr
      next =>
        rcases List.mem_cons.mp haddr with rfl | hmem
        · exact ⟨op, hop, hopen⟩
        · exact hold hmem
      next => exact hold haddr
    · intro k k' addr hk hk'
      rw [hpending] at hk hk'
      -- the new address waits for `l` only
      have hcase : ∀ {j : LabelId},
          addr ∈ (if l = j ∧ j < d.labels.size then d.size :: d.pending j
          else d.pending j) → (addr = d.size ∧ l = j) ∨ addr ∈ d.pending j := by
        intro j hj
        split at hj
        next hl =>
          rcases List.mem_cons.mp hj with heq | hmem
          · exact Or.inl ⟨heq, hl.1⟩
          · exact Or.inr hmem
        next => exact Or.inr hj
      rcases hcase hk with ⟨rfl, rfl⟩ | hmem
      · rcases hcase hk' with ⟨-, rfl⟩ | hmem'
        · rfl
        · exact absurd hmem' (hnew k')
      · rcases hcase hk' with ⟨rfl, rfl⟩ | hmem'
        · exact absurd hmem (hnew k)
        · exact h.apart k k' addr hmem hmem'

theorem keeps_jump (n : Nat) (d : Draft) (hop : op.isBranch = true)
    (l : LabelId) : d.Keeps n (d.jump op l) where
  sound h := h.jump hop l
  labels := (grows_jump d op l).labels
  addr k _ := addr_jump d op l k
  opens _ _ _ hopen := hopen.jump

theorem toInt_size (hsize : d.size < 2 ^ 63) :
    0 ≤ (Int64.ofNat d.size).toInt ∧ (Int64.ofNat d.size).toInt ≤ d.size := by
  rw [Int64.toInt_ofNat_of_lt hsize]
  exact ⟨Int.natCast_nonneg _, Int.le_refl _⟩

/-- A free label can be bound, which changes no line but those of the jumps that
wait for it. -/
theorem exists_bind (h : d.Waits jumps) (hfree : (d.label l).addr = none)
    (hsize : d.size < 2 ^ 63) :
    ∃ d', d.bind l = (d', none) ∧
      ∀ addr, addr ∉ d.pending l → d'.lines[addr]? = d.lines[addr]? := by
  have hwaiting : d.pending l = (d.label l).waiting := by
    simp only [pending, hfree]
  have hnodup : (d.label l).waiting.reverse.Nodup := by
    rw [List.nodup_reverse, ← hwaiting]
    exact h.nodup l
  have hopen : ∀ addr ∈ (d.label l).waiting.reverse, ∃ op,
      ({ d with
         labels := d.labels.modify l fun b => { b with addr := some d.size } } :
           Draft).OpenAt addr op := by
    intro addr haddr
    rw [List.mem_reverse, ← hwaiting] at haddr
    obtain ⟨op, -, hopen⟩ := h.opens l addr haddr
    exact ⟨op, hopen⟩
  have hrange : 0 ≤ (Int64.ofNat d.size).toInt ∧
      (Int64.ofNat d.size).toInt ≤ d.size := toInt_size hsize
  obtain ⟨filled, hfilled, hlines⟩ := fillAll_of_open hnodup hopen hrange
  refine ⟨{ filled with
            labels := filled.labels.modify l fun b => { b with
                                                        waiting := [] } },
                                                          ?_, ?_⟩
  · simp only [bind, hfree, hfilled]
  · intro addr haddr
    rw [hwaiting] at haddr
    exact hlines addr (by rwa [List.mem_reverse])

theorem size_bind (h : d.bind l = (d', none)) : d'.size = d.size := by
  simp only [bind] at h
  split at h
  next => simp at h
  next =>
    split at h
    next => simp at h
    next filled hfilled =>
      simp only [Prod.mk.injEq, and_true] at h
      subst h
      exact (fillAll_spec hfilled).2.1

theorem labels_bind (h : d.bind l = (d', none)) :
    d'.labels.size = d.labels.size ∧ (∀ k, k ≠ l → d'.label k = d.label k) ∧
      d'.pending l = [] := by
  simp only [bind] at h
  split at h
  next => simp at h
  next hfree =>
    split at h
    next => simp at h
    next filled hfilled =>
      simp only [Prod.mk.injEq, and_true] at h
      subst h
      obtain ⟨-, -, hlabels, -⟩ := fillAll_spec hfilled
      have hsize : filled.labels.size = d.labels.size := by rw [hlabels]; simp
      have hlabel : ∀ k, filled.label k =
          if l = k ∧ k < d.labels.size then
            { d.label k with addr := some d.size }
          else d.label k := by
        intro k
        rw [← label_modify d l k fun b => { b with addr := some d.size }, label,
          label, hlabels]
      refine ⟨by simp [hsize], fun k hk => ?_, ?_⟩
      · have hne : ∀ size, ¬ (l = k ∧ k < size) := fun _ heq => hk heq.1.symm
        rw [label_modify, if_neg (hne _), hlabel, if_neg (hne _)]
      · rw [pending, label_modify, hlabel, hsize]
        by_cases hl : l < d.labels.size
        · simp only [hl, and_self, if_true]
        · simp only [hl, and_false, if_false,
            label_of_size_le (Nat.le_of_not_lt hl)]

theorem Waits.bind (h : d.Waits jumps) (hbind : d.bind l = (d', none))
    (hlines : ∀ addr, addr ∉ d.pending l → d'.lines[addr]? = d.lines[addr]?) :
    d'.Waits jumps := by
  obtain ⟨-, hlabel, hbound⟩ := labels_bind hbind
  have hne : ∀ {k addr}, addr ∈ d'.pending k → k ≠ l := by
    rintro k addr haddr rfl
    rw [hbound] at haddr
    cases haddr
  have hpending : ∀ {k}, k ≠ l → d'.pending k = d.pending k := by
    intro k hk
    simp only [pending, hlabel k hk]
  constructor
  · intro k
    by_cases hk : k = l
    · rw [hk, hbound]
      exact List.nodup_nil
    · rw [hpending hk]
      exact h.nodup k
  · intro k addr haddr
    have hk := hne haddr
    rw [hpending hk] at haddr
    obtain ⟨op, hop, hopen⟩ := h.opens k addr haddr
    exact ⟨op, hop,
      hopen.of_line (hlines addr fun hmem => hk (h.apart k l addr haddr hmem))⟩
  · intro k k' addr hk hk'
    have hkl := hne hk
    have hkl' := hne hk'
    rw [hpending hkl] at hk
    rw [hpending hkl'] at hk'
    exact h.apart k k' addr hk hk'

theorem keeps_bind {n : Nat} (hbind : d.bind l = (d', none)) (hn : n ≤ l)
    (h : d.Sound)
    (hlines : ∀ addr, addr ∉ d.pending l → d'.lines[addr]? = d.lines[addr]?) :
    d.Keeps n d' := by
  obtain ⟨hsize, hlabel, -⟩ := labels_bind hbind
  refine ⟨fun hsound => hsound.bind hbind hlines, Nat.le_of_eq hsize.symm,
    fun k hk => ?_, fun addr op hop hopen => ?_⟩
  · rw [hlabel k (Nat.ne_of_lt (Nat.lt_of_lt_of_le hk hn))]
  · refine hopen.of_line (hlines addr fun hmem => ?_)
    obtain ⟨op', hop', hopen'⟩ := h.opens l addr hmem
    rw [hopen.unique hopen', hop'] at hop
    cases hop

end Draft

namespace Output

variable {o o' o'' : Output} {n m : Nat}

/-- Besides the jumps, every call that waits has an open operand, and its
function has no address yet. -/
structure Sound (o : Output) : Prop where
  draft : o.draft.Sound
  calls : ∀ e ∈ o.funcs.waiting, o.draft.OpenAt e.2 .call ∧
    ∃ f, o.funcs.find? e.1 = some f ∧ f.isDefined = false
  nodup : (o.funcs.waiting.map (·.2)).Nodup

/-- Between two outputs nothing was lost that something waits for. -/
structure Keeps (n : Nat) (o o' : Output) : Prop where
  sound : o.Sound → o'.Sound
  draft : o.draft.Keeps n o'.draft

namespace Keeps

theorem refl (n : Nat) (o : Output) : o.Keeps n o where
  sound h := h
  draft := Draft.Keeps.refl n o.draft

theorem trans (hfirst : o.Keeps n o') (hsecond : o'.Keeps n o'') :
    o.Keeps n o'' where
  sound h := hsecond.sound (hfirst.sound h)
  draft := hfirst.draft.trans hsecond.draft

theorem mono (h : o.Keeps n o') (hle : m ≤ n) : o.Keeps m o' where
  sound := h.sound
  draft := h.draft.mono hle

theorem of_draft {d : Draft} (h : o.draft.Keeps n d) :
    o.Keeps n { o with draft := d } where
  sound ho :=
    ⟨h.sound ho.draft, fun e he =>
      ⟨h.opens e.2 .call rfl (ho.calls e he).1, (ho.calls e he).2⟩, ho.nodup⟩
  draft := h

end Keeps

theorem keeps_emit (n : Nat) (o : Output) (i : Instr) : o.Keeps n (o.emit i) :=
  .of_draft (Draft.keeps_emit n o.draft i.op i.operand)

theorem keeps_emitAll (n : Nat) (o : Output) (is : List Instr) :
    o.Keeps n (o.emitAll is) := by
  induction is generalizing o with
  | nil => exact .refl n o
  | cons i is ih => exact (keeps_emit n o i).trans (ih (o.emit i))

theorem keeps_emitString (n : Nat) (o : Output) (s : Bytes) :
    o.Keeps n (o.emitString s) := by
  have h := keeps_emit n o { op := .push, operand := (o.pool.intern s).1 }
  exact ⟨fun ho => ⟨(h.sound ho).draft, (h.sound ho).calls, (h.sound ho).nodup⟩,
    h.draft⟩

theorem keeps_emitCall (n : Nat) {f : FuncDef}
    (hf : o.funcs.find? f.name = some f) : o.Keeps n (o.emitCall f) := by
  simp only [emitCall, Functions.emitCall]
  split
  next => exact .of_draft (Draft.keeps_emit n o.draft .call f.entry)
  next hundefined =>
    have hdraft := Draft.keeps_emitOpen n o.draft .call
    refine ⟨fun h => ⟨hdraft.sound h.draft, ?_, ?_⟩, hdraft⟩
    · intro e he
      rcases List.mem_cons.mp he with rfl | he
      · exact ⟨Draft.openAt_emitOpen o.draft .call, f,
          hf, by simpa using hundefined⟩
      · exact ⟨(h.calls e he).1.emitOpen, (h.calls e he).2⟩
    · refine List.nodup_cons.mpr ⟨fun hmem => ?_, h.nodup⟩
      obtain ⟨e, he, heq⟩ := List.mem_map.mp hmem
      have hlt := (h.calls e he).1.lt_size
      rw [heq] at hlt
      exact Nat.lt_irrefl _ hlt

end Output

mutual

theorem Term.keeps_emit (n : Nat) :
    (a : Term) → (o : Output) → a.CallsIn o.funcs.defs → o.Keeps n (a.emit o)
  | .int v ty, o, _ => Output.keeps_emit n o _
  | .str s, o, _ => Output.keeps_emitString n o s
  | .var v, o, _ => Output.keeps_emit n o _
  | .binary op l r ty, o, ⟨hl, hr⟩ => by
    have hleft := l.keeps_emit n o hl
    have hdefs (is : List Instr) :
        ((l.emit o).emitAll is).funcs.defs = o.funcs.defs := by
      rw [Output.funcs_emitAll, (l.adds_emit o hl).defs]
    have hright (is : List Instr) :=
      r.keeps_emit n ((l.emit o).emitAll is) ((hdefs is).symm ▸ hr)
    simp only [Term.emit]
    split
    · exact (hleft.trans (Output.keeps_emitAll n _ _)).trans
        (((hright _).trans (Output.keeps_emitAll n _ _)).trans
          (Output.keeps_emitAll n _ _))
    · exact (hleft.trans (Output.keeps_emitAll n _ _)).trans
        (((hright _).trans (Output.keeps_emitAll n _ _)).trans
          (Output.keeps_emitAll n _ _))
  | .call f args, o, ⟨hf, hargs⟩ => by
    refine (keeps_emitArgs n f.params args o hargs).trans
      ((Output.keeps_emit n _ _).trans (Output.keeps_emitCall n ?_))
    rw [Output.funcs_emit, Functions.find?,
      (adds_emitArgs f.params args o hargs).defs]
    exact hf
  | .addrVar v, o, _ => Output.keeps_emit n o _
  | .addrDeref p _, o, hp => p.keeps_emit n o hp
  | .deref p ty, o, hp => by
    simp only [Term.emit]
    split
    · exact p.keeps_emit n o hp
    · exact (p.keeps_emit n o hp).trans (Output.keeps_emit n _ _)

theorem keeps_emitArgs (n : Nat) :
    (ps : List Param) → (as : List Term) → (o : Output) →
      ArgsCallIn o.funcs.defs as → o.Keeps n (emitArgs ps as o)
  | [], [], o, _ | [], _ :: _, o, _ | _ :: _, [], o, _ => Output.Keeps.refl n o
  | p :: ps, a :: as, o, ⟨ha, has⟩ => by
    have hdefs : ((a.emit o).emitAll (convertCode p.ty a.ty)).funcs.defs =
        o.funcs.defs := by
      rw [Output.funcs_emitAll, (a.adds_emit o ha).defs]
    exact (a.keeps_emit n o ha).trans ((Output.keeps_emitAll n _ _).trans
      (keeps_emitArgs n ps as _ (hdefs.symm ▸ has)))

end

theorem keeps_emitTerms (n : Nat) (ts : List Term) {o : Output}
    (hcalls : ∀ a ∈ ts, a.CallsIn o.funcs.defs) :
    o.Keeps n (emitTerms ts o) := by
  induction ts generalizing o with
  | nil => exact .refl n o
  | cons a as ih =>
    have ha := hcalls a List.mem_cons_self
    refine (a.keeps_emit n o ha).trans (ih fun b hb => ?_)
    rw [(a.adds_emit o ha).defs]
    exact hcalls b (List.mem_cons_of_mem a hb)

namespace Functions

variable {t : Functions} {d : Draft} {name : Name} {entry : Cell}

theorem mem_waitingFor {addr : Nat} :
    addr ∈ t.waitingFor name ↔ (name, addr) ∈ t.waiting := by
  simp only [waitingFor, List.mem_reverse, List.mem_map, List.mem_filter]
  constructor
  · rintro ⟨⟨other, addr⟩, ⟨hwait, hname⟩, rfl⟩
    rw [beq_iff_eq] at hname
    exact hname ▸ hwait
  · intro hwait
    exact ⟨(name, addr), ⟨hwait, by simp⟩, rfl⟩

/-- The address of a function that has none can be recorded, which changes no
line but those of the calls that wait for it. -/
theorem exists_define {f : FuncDef}
    (hopen : ∀ e ∈ t.waiting, d.OpenAt e.2 .call)
    (hnodup : (t.waiting.map (·.2)).Nodup) (hf : t.find? name = some f)
    (hundefined : f.isDefined = false)
    (hrange : 0 ≤ entry.toInt ∧ entry.toInt ≤ d.size) :
    ∃ draft,
      t.define d name entry =
      ({ t.setEntry name entry with waiting := t.waiting.filter (·.1 != name) },
        draft, none) ∧
    draft.labels = d.labels ∧
    ∀ place, (name, place) ∉ t.waiting →
      draft.lines[place]? = d.lines[place]? := by
  have hfillable : ∀ addr ∈ (t.setEntry name entry).waitingFor name, ∃ op,
      d.OpenAt addr op :=
    fun addr haddr => ⟨.call, hopen _ (mem_waitingFor.mp haddr)⟩
  have hdistinct : ((t.setEntry name entry).waitingFor name).Nodup := by
    rw [waitingFor, List.nodup_reverse]
    exact hnodup.sublist (List.filter_sublist.map _)
  obtain ⟨draft, hfill, hlines⟩ :=
    Draft.fillAll_of_open hdistinct hfillable hrange
  obtain ⟨-, -, hlabels, -⟩ := Draft.fillAll_spec hfill
  refine ⟨draft, ?_, hlabels, fun place hplace => hlines place fun hmem =>
    hplace (mem_waitingFor.mp hmem)⟩
  simp only [define, hf, hundefined, Bool.false_eq_true, if_false, hfill]
  rfl

/-- Calls that wait for other functions are left open. -/
theorem openAt_of_define {draft : Draft} {op : Opcode} {place : Nat}
    (hopen : ∀ e ∈ t.waiting, d.OpenAt e.2 .call)
    (hnodup : (t.waiting.map (·.2)).Nodup)
    (hlines : ∀ place, (name, place) ∉ t.waiting →
      draft.lines[place]? = d.lines[place]?)
    (hat : d.OpenAt place op)
    (hother : op = .call → ∃ other, other ≠ name ∧ (other, place) ∈ t.waiting) :
    draft.OpenAt place op := by
  refine hat.of_line (hlines place fun hwait => ?_)
  obtain ⟨other, hne, hmem⟩ := hother (hat.unique (hopen _ hwait))
  -- two calls at one address would be one call
  have hsame := List.inj_on_of_nodup_map hnodup hmem hwait rfl
  exact hne (congrArg Prod.fst hsame)

end Functions

namespace Output

variable {o : Output}

/-- The address of a function that has none can be recorded, before its first
instruction is complete. -/
theorem exists_define {name : Name} {f : FuncDef} (h : o.Sound)
    (hf : o.funcs.find? name = some f) (hundefined : f.isDefined = false)
    (hsize : o.size < 2 ^ 63) :
    ∃ funcs draft,
      o.funcs.define (o.draft.emitOpen .entry) name (Int64.ofNat o.size) =
      (funcs, draft, none) ∧
    ({ o with funcs, draft } : Output).Sound ∧ draft.OpenAt o.size .entry := by
  have hopen : ∀ e ∈ o.funcs.waiting,
      (o.draft.emitOpen .entry).OpenAt e.2 .call :=
    fun e he => (h.calls e he).1.emitOpen
  have hrange : 0 ≤ (Int64.ofNat o.size).toInt ∧
      (Int64.ofNat o.size).toInt ≤ (o.draft.emitOpen .entry).size := by
    obtain ⟨hlow, hhigh⟩ := Draft.toInt_size hsize
    refine ⟨hlow, ?_⟩
    rw [Draft.size_emitOpen]
    exact Int.le_trans hhigh (by omega)
  obtain ⟨draft, hdefine, hlabels, hlines⟩ :=
    Functions.exists_define hopen h.nodup hf hundefined hrange
  have hkeep {addr : Nat} {op : Opcode} (hop : op ≠ .call)
      (hat : (o.draft.emitOpen .entry).OpenAt addr op) : draft.OpenAt addr op :=
    Functions.openAt_of_define hopen h.nodup hlines hat fun heq =>
      absurd heq hop
  refine ⟨_, _, hdefine, ⟨?_, ?_, ?_⟩,
    hkeep (by simp) (Draft.openAt_emitOpen o.draft .entry)⟩
  · refine ((Draft.keeps_emitOpen 0 o.draft .entry).sound h.draft).of_opens
      (fun l => ?_) ?_
    · simp only [Draft.pending, Draft.label, hlabels]
    · intro _ addr _ op hop hat
      refine hkeep (fun heq => ?_) hat
      rw [heq] at hop
      cases hop
  · intro e he
    obtain ⟨hwait, hname⟩ := List.mem_filter.mp he
    obtain ⟨hcall, g, hg, hgUndefined⟩ := h.calls e hwait
    have hne : e.1 ≠ name := by simpa using hname
    refine ⟨Functions.openAt_of_define hopen h.nodup hlines hcall.emitOpen
      fun _ => ⟨e.1, hne, hwait⟩, g, ?_, hgUndefined⟩
    show (o.funcs.setEntry name (Int64.ofNat o.size)).find? e.1 = some g
    rw [Functions.find?_setEntry, hg, Option.map_some, if_neg hne]
  · exact h.nodup.sublist (List.filter_sublist.map _)

/-- The first instruction of a function can be completed. -/
theorem exists_fill_entry {addr : Nat} (operand : Cell) (h : o.Sound)
    (hopen : o.draft.OpenAt addr .entry) :
    ∃ draft, o.draft.fill addr operand = .ok draft ∧
      ({ o with draft } : Output).Sound := by
  have hfill : o.draft.refusal? addr operand = none :=
    Draft.refusal?_of_open hopen fun hjump => by cases hjump
  have hkeep {place : Nat} {op : Opcode} (hop : op ≠ .entry)
      (hat : o.draft.OpenAt place op) :
      (o.draft.setOperand addr operand).OpenAt place op := by
    refine hat.of_line (Draft.lines_setOperand fun heq => hop ?_)
    exact hat.unique (heq ▸ hopen)
  refine ⟨o.draft.setOperand addr operand, ?_, ?_, ?_, h.nodup⟩
  · simp only [Draft.fill, hfill, Int.toNat_natCast]
  · refine h.draft.of_opens (fun _ => rfl) fun _ place _ op hop hat =>
      hkeep (fun heq => ?_) hat
    rw [heq] at hop
    cases hop
  · intro e he
    exact ⟨hkeep (by simp) (h.calls e he).1, (h.calls e he).2⟩

end Output

end StackC
