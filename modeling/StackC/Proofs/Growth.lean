import StackC.Program.Draft

/-!
How a draft grows. Instructions are only added, a closed instruction never
changes, and an open one keeps its opcode until it is filled. A label that is
bound stays bound, and binding it fills every jump that waits for it. So
whatever a draft grows into, a jump to a label carries the address of that label
as soon as the label has one.
-/

namespace StackC

namespace Draft

def Closed (d : Draft) (addr : Nat) (i : Instr) : Prop :=
  d.lines[addr]? = some { instr := i }

def Filled (d : Draft) (addr : Nat) (operand : Cell) : Prop :=
  ∃ op, d.Closed addr { op, operand }

/-- What a draft may become by adding instructions, filling operands and binding
labels. -/
structure Grows (d d' : Draft) : Prop where
  line : ∀ (addr : Nat) (l : Line), d.lines[addr]? = some l →
    ∃ l' : Line, d'.lines[addr]? = some l' ∧ l'.instr.op = l.instr.op ∧
    (l.isOpen = false → l' = l)
  labels : d.labels.size ≤ d'.labels.size
  bound : ∀ k target, (d.label k).addr = some target →
    (d'.label k).addr = some target
  waits : ∀ k addr, (d.label k).addr = none → addr ∈ (d.label k).waiting →
    ((d'.label k).addr = none ∧ addr ∈ (d'.label k).waiting) ∨ ∃ target,
    (d'.label k).addr = some target ∧ d'.Filled addr (Int64.ofNat target)

namespace Grows

variable {d d' d'' : Draft}

theorem refl (d : Draft) : d.Grows d where
  line _ l h := ⟨l, h, rfl, fun _ => rfl⟩
  labels := Nat.le_refl _
  bound _ _ h := h
  waits _ _ hfree hwait := Or.inl ⟨hfree, hwait⟩

theorem closed (hgrow : d.Grows d') {addr : Nat} {i : Instr}
    (hclosed : d.Closed addr i) : d'.Closed addr i := by
  obtain ⟨l, hl, -, hsame⟩ := hgrow.line addr _ hclosed
  rw [Closed, hl, hsame rfl]

theorem filled (hgrow : d.Grows d') {addr : Nat} {operand : Cell}
    (hfilled : d.Filled addr operand) : d'.Filled addr operand := by
  obtain ⟨op, hclosed⟩ := hfilled
  exact ⟨op, hgrow.closed hclosed⟩

theorem trans (hfirst : d.Grows d') (hsecond : d'.Grows d'') : d.Grows d'' where
  line addr l hl := by
    obtain ⟨l', hl', hop, hsame⟩ := hfirst.line addr l hl
    obtain ⟨l'', hl'', hop', hsame'⟩ := hsecond.line addr l' hl'
    refine ⟨l'', hl'', hop'.trans hop, fun hclosed => ?_⟩
    have heq : l' = l := hsame hclosed
    rw [hsame' (heq ▸ hclosed), heq]
  labels := Nat.le_trans hfirst.labels hsecond.labels
  bound k target h := hsecond.bound k target (hfirst.bound k target h)
  waits k addr hfree hwait := by
    rcases hfirst.waits k addr hfree hwait with
        ⟨hfree', hwait'⟩ | ⟨target, hbound, hfilled⟩
    · exact hsecond.waits k addr hfree' hwait'
    · exact Or.inr ⟨target, hsecond.bound k target hbound,
        hsecond.filled hfilled⟩

theorem size_le (hgrow : d.Grows d') : d.size ≤ d'.size := by
  refine Nat.le_of_not_lt fun hlt => ?_
  obtain ⟨l, hl, -⟩ := hgrow.line d'.size _ (Array.getElem?_eq_getElem hlt)
  simp [size] at hl

end Grows

variable {d : Draft}

@[simp] theorem size_emit (d : Draft) (op : Opcode) (operand : Cell) :
    (d.emit op operand).size = d.size + 1 := by
  simp [emit, size]

@[simp] theorem size_emitOpen (d : Draft) (op : Opcode) :
    (d.emitOpen op).size = d.size + 1 := by
  simp [emitOpen, size]

theorem getElem?_push_of_some {lines : Array Line} {l new : Line} {addr : Nat}
    (h : lines[addr]? = some l) : (lines.push new)[addr]? = some l := by
  have hlt : addr < lines.size := (Array.getElem?_eq_some_iff.mp h).1
  rw [Array.getElem?_push, if_neg (Nat.ne_of_lt hlt), h]

theorem grows_emit (d : Draft) (op : Opcode) (operand : Cell) :
    d.Grows (d.emit op operand) where
  line _ l h := ⟨l, getElem?_push_of_some h, rfl, fun _ => rfl⟩
  labels := Nat.le_refl _
  bound _ _ h := h
  waits _ _ hfree hwait := Or.inl ⟨hfree, hwait⟩

theorem grows_emitOpen (d : Draft) (op : Opcode) : d.Grows (d.emitOpen op) where
  line _ l h := ⟨l, getElem?_push_of_some h, rfl, fun _ => rfl⟩
  labels := Nat.le_refl _
  bound _ _ h := h
  waits _ _ hfree hwait := Or.inl ⟨hfree, hwait⟩

theorem closed_emit (d : Draft) (op : Opcode) (operand : Cell) :
    (d.emit op operand).Closed d.size { op, operand } := by
  simp [Closed, emit, size]

theorem line_emitOpen (d : Draft) (op : Opcode) :
    (d.emitOpen op).lines[d.size]? =
      some { instr := { op, operand := openOperand }, isOpen := true } := by
  simp [emitOpen, size]

/-- An instruction keeps its opcode when it is filled. -/
theorem closed_of_filled {D : Draft} {addr : Nat} {l : Line} {operand : Cell}
    (hgrow : d.Grows D) (hl : d.lines[addr]? = some l)
    (hfilled : D.Filled addr operand) :
    D.Closed addr { op := l.instr.op, operand } := by
  obtain ⟨op, hclosed⟩ := hfilled
  obtain ⟨line, hline, hop, -⟩ := hgrow.line addr l hl
  rw [hclosed] at hline
  cases hline
  have hsame : op = l.instr.op := hop
  exact hsame ▸ hclosed

/-- A label that was never made is not bound and nothing waits for it, like a
new one. -/
theorem label_newLabel (d : Draft) (k : LabelId) :
    d.newLabel.2.label k = d.label k := by
  simp only [newLabel, label, Array.getElem?_push]
  split
  next heq => simp [heq]
  next => rfl

theorem grows_newLabel (d : Draft) : d.Grows d.newLabel.2 where
  line _ l h := ⟨l, h, rfl, fun _ => rfl⟩
  labels := by simp [newLabel]
  bound k target h := by rw [label_newLabel, h]
  waits k addr hfree hwait := by
    rw [label_newLabel]
    exact Or.inl ⟨hfree, hwait⟩

theorem label_here (d : Draft) (k : LabelId) :
    d.here.2.label k = if k = d.labels.size then { addr := some d.size }
      else d.label k := by
  simp only [here, label, Array.getElem?_push]
  split <;> rfl

theorem label_of_size_le {k : LabelId} (h : d.labels.size ≤ k) :
    d.label k = {} := by
  simp [label, Array.getElem?_eq_none h]

theorem grows_here (d : Draft) : d.Grows d.here.2 where
  line _ l h := ⟨l, h, rfl, fun _ => rfl⟩
  labels := by simp [here]
  bound k target h := by
    rw [label_here]
    split
    next heq => simp [heq, label_of_size_le] at h
    next => exact h
  waits k addr hfree hwait := by
    rw [label_here]
    split
    next heq => simp [heq, label_of_size_le] at hwait
    next => exact Or.inl ⟨hfree, hwait⟩

theorem addr_here (d : Draft) :
    (d.here.2.label d.here.1).addr = some d.size := by
  rw [label_here]
  simp [here]

theorem line_of_refusal?_eq_none {addr : Nat} {operand : Cell}
    (h : d.refusal? addr operand = none) :
    ∃ i, d.lines[addr]? = some { instr := i, isOpen := true } := by
  simp only [refusal?, Int.toNat_natCast] at h
  split at h
  · simp at h
  · split at h
    next i heq => exact ⟨i, heq⟩
    next => simp at h

@[simp] theorem size_setOperand (d : Draft) (addr : Nat) (operand : Cell) :
    (d.setOperand addr operand).size = d.size := by
  simp [setOperand, size]

theorem closed_setOperand {addr : Nat} {operand : Cell} {l : Line}
    (h : d.lines[addr]? = some l) :
    (d.setOperand addr operand).Closed addr { op := l.instr.op, operand } := by
  simp [Closed, setOperand, Array.getElem?_modify, h]

theorem grows_setOperand {addr : Nat} {operand : Cell} {i : Instr}
    (hopen : d.lines[addr]? = some { instr := i, isOpen := true }) :
    d.Grows (d.setOperand addr operand) where
  line place l hl := by
    simp only [setOperand, Array.getElem?_modify]
    split
    next heq =>
      subst heq
      rw [hopen] at hl
      cases hl
      rw [hopen]
      exact ⟨{ instr := { i with operand } }, rfl, rfl,
        fun hclosed => by cases hclosed⟩
    next => exact ⟨l, hl, rfl, fun _ => rfl⟩
  labels := Nat.le_refl _
  bound _ _ h := h
  waits _ _ hfree hwait := Or.inl ⟨hfree, hwait⟩

/-- Filling several operands in turn, if none is refused. -/
theorem fillAll_spec {operand : Cell} {addrs : List Nat} {d' : Draft}
    (h : d.fillAll operand addrs = (d', none)) :
    d.Grows d' ∧ d'.size = d.size ∧ d'.labels = d.labels ∧
      ∀ addr ∈ addrs, d'.Filled addr operand := by
  induction addrs generalizing d with
  | nil =>
    simp only [fillAll, Prod.mk.injEq, and_true] at h
    subst h
    exact ⟨Grows.refl d, rfl, rfl, by simp⟩
  | cons addr addrs ih =>
    rw [fillAll] at h
    split at h
    next => simp at h
    next hnone =>
      obtain ⟨i, hopen⟩ := line_of_refusal?_eq_none hnone
      obtain ⟨hgrow, hsize, hlabels, hfilled⟩ := ih h
      refine ⟨(grows_setOperand hopen).trans hgrow, by simpa using hsize,
        hlabels, ?_⟩
      intro place hplace
      rcases List.mem_cons.mp hplace with rfl | hplace
      · exact hgrow.filled ⟨_, closed_setOperand hopen⟩
      · exact hfilled place hplace

/-- Filling one operand. -/
theorem fill_spec {addr : Nat} {operand : Cell} {d' : Draft}
    (h : d.fill addr operand = .ok d') :
    d.Grows d' ∧ d'.size = d.size ∧ d'.labels = d.labels ∧
      d'.Filled addr operand := by
  simp only [fill, Int.toNat_natCast] at h
  split at h
  next => cases h
  next hnone =>
    cases h
    obtain ⟨i, hopen⟩ := line_of_refusal?_eq_none hnone
    exact ⟨grows_setOperand hopen, by simp, rfl, _, closed_setOperand hopen⟩

theorem label_modify (d : Draft) (l k : LabelId) (f : Label → Label) :
    ({ d with labels := d.labels.modify l f } : Draft).label k =
      if l = k ∧ k < d.labels.size then f (d.label k) else d.label k := by
  simp only [label, Array.getElem?_modify]
  by_cases hk : k < d.labels.size
  · by_cases hl : l = k <;> simp [hl, hk]
  · simp [hk]

theorem size_jump (d : Draft) (op : Opcode) (l : LabelId) :
    (d.jump op l).size = d.size + 1 := by
  simp only [jump]
  split <;> simp [size, emit, emitOpen]

theorem grows_jump (d : Draft) (op : Opcode) (l : LabelId) :
    d.Grows (d.jump op l) := by
  simp only [jump]
  split
  next => exact grows_emit d op _
  next =>
    refine (grows_emitOpen d op).trans ?_
    refine ⟨fun _ l h => ⟨l, h, rfl, fun _ => rfl⟩, by simp,
      fun k target hbound => ?_, ?_⟩
    · rw [label_modify]
      split <;> exact hbound
    · intro k addr hfree hwait
      rw [label_modify]
      split
      next => exact Or.inl ⟨hfree, List.mem_cons_of_mem _ hwait⟩
      next => exact Or.inl ⟨hfree, hwait⟩

/-- A jump carries the address of its label in every later draft in which the
label has one. -/
theorem closed_jump {D : Draft} {op : Opcode} {l : LabelId} {target : Nat}
    (hgrow : (d.jump op l).Grows D) (hl : l < d.labels.size)
    (hbound : (D.label l).addr = some target) :
    D.Closed d.size { op, operand := Int64.ofNat target } := by
  simp only [jump] at hgrow
  split at hgrow
  next addr haddr =>
    have hsame : some addr = some target :=
      (hgrow.bound l addr haddr).symm.trans hbound
    cases hsame
    exact hgrow.closed (closed_emit d op _)
  next hfree =>
    have hlabel := label_modify (d.emitOpen op) l l fun b =>
      { b with waiting := d.size :: b.waiting }
    rw [if_pos ⟨rfl, hl⟩] at hlabel
    have hwait :=
      hgrow.waits l d.size (by rw [hlabel]; exact hfree)
        (by rw [hlabel]; exact List.mem_cons_self)
    rcases hwait with ⟨hunbound, -⟩ | ⟨target', hbound', hfilled⟩
    · rw [hbound] at hunbound
      cases hunbound
    · rw [hbound] at hbound'
      cases hbound'
      exact closed_of_filled hgrow (line_emitOpen d op) hfilled

/-- Binding a label that waits for an address, if no jump is refused. -/
theorem bind_spec {l : LabelId} {d' : Draft} (h : d.bind l = (d', none))
    (hl : l < d.labels.size) :
    d.Grows d' ∧ d'.size = d.size ∧ (d'.label l).addr = some d.size := by
  simp only [bind] at h
  split at h
  next => simp at h
  next hfree =>
    split at h
    next => simp at h
    next marked done =>
      simp only [Prod.mk.injEq, and_true] at h
      subst h
      obtain ⟨hgrow, hsize, hlabels, hfilled⟩ := fillAll_spec done
      have hlabel : ∀ k, marked.label k =
          if l = k ∧ k < d.labels.size then
            { d.label k with addr := some d.size }
          else d.label k := by
        intro k
        have := label_modify d l k fun b => { b with addr := some d.size }
        rw [← this, label, label, hlabels]
      have hmarked : marked.labels.size = d.labels.size := by rw [hlabels]; simp
      refine ⟨⟨hgrow.line, by simp [hmarked], fun k target hbound => ?_,
        fun k addr hk hwait => ?_⟩, hsize, ?_⟩
      · rw [label_modify, hlabel]
        by_cases heq : l = k ∧ k < d.labels.size
        · rw [← heq.1, hfree] at hbound
          cases hbound
        · simp [heq, hmarked, hbound]
      · rw [label_modify, hlabel]
        by_cases heq : l = k ∧ k < d.labels.size
        · refine Or.inr ⟨d.size, by simp [heq, hmarked], hfilled addr ?_⟩
          rw [heq.1]
          exact List.mem_reverse.mpr hwait
        · refine Or.inl ?_
          simp [heq, hmarked, hk, hwait]
      · rw [label_modify, hlabel]
        simp [hl, hmarked]

/-- The finished code has every operand closed. -/
theorem finish_spec {code : Array Instr} (h : d.finish = .ok code) :
    code.size = d.size ∧ ∀ addr i, d.Closed addr i → code[addr]? = some i := by
  simp only [finish] at h
  split at h
  next => cases h
  next =>
    split at h
    next => cases h
    next =>
      cases h
      refine ⟨by simp [instrs, size], fun addr i hclosed => ?_⟩
      have hline : d.lines[addr]? = some { instr := i } := hclosed
      simp [instrs, hline]

end Draft

end StackC
