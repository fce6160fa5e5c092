import StackC.Proofs.Assembling
import StackC.Proofs.Patches

/-!
Drafts in use: instructions are added, labels are made, jumped to and bound, and
operands are filled, in any order, and what is refused may be followed by
anything. An operand is open from the moment its instruction is added until it
is filled, on its own or with the other jumps to a label. Nothing else ever
changes an instruction.
-/

namespace StackC

/-- What can be done with a draft. An instruction without an operand is added
with operand 0. -/
inductive DraftOp where
  | emit (op : Opcode) (operand : Cell)
  | emitOpen (op : Opcode)
  | newLabel
  | here
  | jump (op : Opcode) (l : LabelId)
  | fill (addr : Int) (operand : Cell)
  | bind (l : LabelId)
  deriving DecidableEq, Repr

namespace Draft

/-- The draft after an operation, and why the operation was refused, if it
was. -/
def perform (d : Draft) : DraftOp → Draft × Option Error
  | .emit op operand => (d.emit op operand, none)
  | .emitOpen op => (d.emitOpen op, none)
  | .newLabel => (d.newLabel.2, none)
  | .here => (d.here.2, none)
  | .jump op l => (d.jump op l, none)
  | .fill addr operand =>
    match d.fill addr operand with
    | .ok d' => (d', none)
    | .error e => (d, some e)
  | .bind l => d.bind l

def after (d : Draft) (ops : List DraftOp) : Draft :=
  ops.foldl (fun d op => (d.perform op).1) d

/-- The addresses at which an operation adds an instruction with an open
operand. -/
def opens (d : Draft) : DraftOp → List Nat
  | .emitOpen _ => [d.size]
  | .jump _ l => if (d.label l).addr = none then [d.size] else []
  | _ => []

/-- Those of some addresses whose operands are filled when each is filled in
turn, up to the first that is refused. -/
def filledInTurn (d : Draft) (operand : Cell) : List Nat → List Nat
  | [] => []
  | addr :: addrs =>
    match d.fill addr operand with
    | .ok d' => addr :: d'.filledInTurn operand addrs
    | .error _ => []

/-- The addresses whose operands an operation fills. -/
def fills (d : Draft) : DraftOp → List Nat
  | .fill addr operand =>
    match d.fill addr operand with
    | .ok _ => [addr.toNat]
    | .error _ => []
  | .bind l =>
    if (d.label l).addr = none then
      d.filledInTurn (Int64.ofNat d.size) (d.label l).waiting.reverse
    else []
  | _ => []

/-- The addresses at which operations in turn add instructions with open
operands. -/
def openedBy : Draft → List DraftOp → List Nat
  | _, [] => []
  | d, op :: ops => d.opens op ++ (d.perform op).1.openedBy ops

/-- The addresses whose operands operations in turn fill. -/
def filledBy : Draft → List DraftOp → List Nat
  | _, [] => []
  | d, op :: ops => d.fills op ++ (d.perform op).1.filledBy ops

variable {d d' d'' : Draft}

@[simp] theorem after_nil (d : Draft) : d.after [] = d := rfl

@[simp] theorem after_cons (d : Draft) (op : DraftOp) (ops : List DraftOp) :
    d.after (op :: ops) = (d.perform op).1.after ops := rfl

theorem after_append (d : Draft) (ops ops' : List DraftOp) :
    d.after (ops ++ ops') = (d.after ops).after ops' :=
  List.foldl_append

theorem isOpen_iff {addr : Nat} :
    d.isOpen addr = true ↔
      ∃ i, d.lines[addr]? = some { instr := i, isOpen := true } := by
  simp only [isOpen]
  constructor
  · intro h
    split at h
    next line hline =>
      obtain ⟨i, isOpen⟩ := line
      exact ⟨i, by rw [hline, ← h]⟩
    next => cases h
  · rintro ⟨i, hline⟩
    rw [hline]

theorem isOpen_congr {addr : Nat} (h : d'.lines[addr]? = d.lines[addr]?) :
    d'.isOpen addr = d.isOpen addr := by
  simp only [isOpen, h]

theorem lt_size_of_isOpen {addr : Nat} (h : d.isOpen addr = true) :
    addr < d.size := by
  obtain ⟨i, hline⟩ := isOpen_iff.mp h
  exact (Array.getElem?_eq_some_iff.mp hline).1

theorem mem_openAddrs {addr : Nat} :
    addr ∈ d.openAddrs ↔ d.isOpen addr = true := by
  rw [openAddrs, List.mem_filter, List.mem_range]
  exact ⟨fun h => h.2, fun h => ⟨lt_size_of_isOpen h, h⟩⟩

theorem OpenAt.mem_openAddrs {addr : Nat} {op : Opcode} (h : d.OpenAt addr op) :
    addr ∈ d.openAddrs := by
  obtain ⟨operand, hline⟩ := h
  exact Draft.mem_openAddrs.mpr (isOpen_iff.mpr ⟨_, hline⟩)

theorem Closed.not_isOpen {addr : Nat} {i : Instr} (h : d.Closed addr i) :
    ¬ d.isOpen addr = true := by
  intro hopen
  obtain ⟨k, hline⟩ := isOpen_iff.mp hopen
  rw [Closed, hline] at h
  cases h

theorem getElem?_instrs (d : Draft) (addr : Nat) :
    d.instrs[addr]? = (d.lines[addr]?).map (·.instr) := by
  simp [instrs]

theorem Closed.getElem?_instrs {addr : Nat} {i : Instr} (h : d.Closed addr i) :
    d.instrs[addr]? = some i := by
  rw [Closed] at h
  rw [Draft.getElem?_instrs, h, Option.map_some]

theorem pairwise_openAddrs (d : Draft) : d.openAddrs.Pairwise (· < ·) :=
  List.pairwise_lt_range.sublist List.filter_sublist

variable {operand : Cell}

/-- An operand can be filled if it is open, and not with a jump out of the
code. -/
theorem refusal?_eq_none_iff {addr : Int} :
    d.refusal? addr operand = none ↔
      0 ≤ addr ∧
        ∃ i, d.lines[addr.toNat]? = some { instr := i, isOpen := true } ∧
          (i.op.isJump = true →
            0 ≤ operand.toInt ∧ operand.toInt ≤ d.size) := by
  constructor
  · intro h
    simp only [refusal?] at h
    split at h
    next => cases h
    next hnonneg =>
      split at h
      next i hline =>
        split at h
        next => cases h
        next hinside =>
          refine ⟨by omega, i, hline, fun hjump => ?_⟩
          have hrange :
              ¬ (operand.toInt < 0 ∨ (d.size : Int) < operand.toInt) :=
            fun h => hinside ⟨hjump, h⟩
          omega
      next => cases h
  · rintro ⟨hnonneg, i, hline, hrange⟩
    obtain ⟨place, rfl⟩ := Int.eq_ofNat_of_zero_le hnonneg
    exact refusal?_of_open ⟨i.operand, hline⟩ hrange

theorem fill_eq_ok_iff {addr : Int} :
    d.fill addr operand = .ok d' ↔
      d.refusal? addr operand = none ∧
        d' = d.setOperand addr.toNat operand := by
  rw [fill]
  split
  next h => simp [h]
  next h => simp [h, eq_comm]

/-- What operations make of a draft that open the operands at some addresses and
fill those at others. -/
structure Evolves (d d' : Draft) (opened filled : List Nat) : Prop where
  line : ∀ (addr : Nat) (l : Line), d.lines[addr]? = some l →
    ∃ l' : Line, d'.lines[addr]? = some l' ∧ l'.instr.op = l.instr.op ∧
    (addr ∉ filled → l' = l)
  isOpen : ∀ addr, d'.isOpen addr = true ↔
    (d.isOpen addr = true ∨ addr ∈ opened) ∧ addr ∉ filled
  ordered : opened.Pairwise (· < ·)
  fresh : ∀ addr ∈ opened, d.size ≤ addr ∧ addr < d'.size
  nodup : filled.Nodup
  wasOpen : ∀ addr ∈ filled, d.isOpen addr = true ∨ addr ∈ opened

namespace Evolves

variable {opened filled opened' filled' : List Nat}

theorem size_le (h : d.Evolves d' opened filled) : d.size ≤ d'.size := by
  refine Nat.le_of_not_lt fun hlt => ?_
  obtain ⟨l, hl, -⟩ := h.line d'.size _ (Array.getElem?_eq_getElem hlt)
  simp [size] at hl

theorem filled_lt (h : d.Evolves d' opened filled) {addr : Nat}
    (haddr : addr ∈ filled) : addr < d'.size := by
  rcases h.wasOpen addr haddr with hopen | hopened
  · exact Nat.lt_of_lt_of_le (lt_size_of_isOpen hopen) h.size_le
  · exact (h.fresh addr hopened).2

theorem openAt {addr : Nat} {op : Opcode} (h : d.Evolves d' opened filled)
    (hopen : d.OpenAt addr op) (hkept : addr ∉ filled) : d'.OpenAt addr op := by
  obtain ⟨operand, hline⟩ := hopen
  obtain ⟨l, hl, -, hsame⟩ := h.line addr _ hline
  exact ⟨operand, by rw [hl, hsame hkept]⟩

theorem closed {addr : Nat} {i : Instr} (h : d.Evolves d' opened filled)
    (hclosed : d.Closed addr i) : d'.Closed addr i := by
  obtain ⟨l, hl, -, hsame⟩ := h.line addr _ hclosed
  have hkept : addr ∉ filled := by
    intro hfilled
    rcases h.wasOpen addr hfilled with hopen | hopened
    · exact hclosed.not_isOpen hopen
    · have hlt : addr < d.size := (Array.getElem?_eq_some_iff.mp hclosed).1
      exact Nat.not_lt_of_le (h.fresh addr hopened).1 hlt
  rw [Closed, hl, hsame hkept]

/-- Nothing happens to the instructions. -/
theorem of_lines (h : d'.lines = d.lines) : d.Evolves d' [] [] where
  line addr l hl := ⟨l, by rw [h, hl], rfl, fun _ => rfl⟩
  isOpen addr := by simp [isOpen_congr (congrArg (·[addr]?) h)]
  ordered := .nil
  fresh := by simp
  nodup := .nil
  wasOpen := by simp

theorem trans (h : d.Evolves d' opened filled)
    (h' : d'.Evolves d'' opened' filled') :
    d.Evolves d'' (opened ++ opened') (filled ++ filled') where
  line addr l hl := by
    obtain ⟨l', hl', hop, hsame⟩ := h.line addr l hl
    obtain ⟨l'', hl'', hop', hsame'⟩ := h'.line addr l' hl'
    refine ⟨l'', hl'', hop'.trans hop, fun hkept => ?_⟩
    rw [List.mem_append, not_or] at hkept
    rw [hsame' hkept.2, hsame hkept.1]
  isOpen addr := by
    -- what is opened later has an address that nothing was filled at before
    have hlater : addr ∈ opened' → addr ∉ filled := fun hopened hfilled =>
      Nat.not_lt_of_le (h'.fresh addr hopened).1 (h.filled_lt hfilled)
    rw [h'.isOpen, h.isOpen, List.mem_append, List.mem_append]
    tauto
  ordered := by
    refine List.pairwise_append.mpr ⟨h.ordered, h'.ordered, fun a ha b hb => ?_⟩
    exact Nat.lt_of_lt_of_le (h.fresh a ha).2 (h'.fresh b hb).1
  fresh addr haddr := by
    have hsize := h.size_le
    have hsize' := h'.size_le
    rcases List.mem_append.mp haddr with hopened | hopened
    · have hrange := h.fresh addr hopened
      omega
    · have hrange := h'.fresh addr hopened
      omega
  nodup := by
    refine List.nodup_append.mpr ⟨h.nodup, h'.nodup, ?_⟩
    rintro addr hfirst _ hsecond rfl
    rcases h'.wasOpen addr hsecond with hopen | hopened
    · exact ((h.isOpen addr).mp hopen).2 hfirst
    · exact Nat.not_lt_of_le (h'.fresh addr hopened).1 (h.filled_lt hfirst)
  wasOpen addr haddr := by
    rw [List.mem_append]
    rcases List.mem_append.mp haddr with hfilled | hfilled
    · exact (h.wasOpen addr hfilled).imp_right Or.inl
    · rcases h'.wasOpen addr hfilled with hopen | hopened
      · exact ((h.isOpen addr).mp hopen).1.imp_right Or.inl
      · exact Or.inr (Or.inr hopened)

end Evolves

theorem evolves_push {line : Line} (h : d'.lines = d.lines.push line) :
    d.Evolves d' (if line.isOpen then [d.size] else []) [] where
  line addr l hl :=
    ⟨l, by rw [h]; exact getElem?_push_of_some hl, rfl, fun _ => rfl⟩
  isOpen addr := by
    have hnew : d.isOpen d.size = false := by simp [isOpen, size]
    simp only [isOpen, h, Array.getElem?_push]
    by_cases haddr : addr = d.size
    · subst haddr
      cases hopen : line.isOpen <;> simp [size, hopen]
    · have hne : addr ≠ d.lines.size := haddr
      cases hopen : line.isOpen <;> simp [hne, haddr]
  ordered := by split <;> simp
  fresh := by
    have hsize : d'.size = d.size + 1 := by simp [size, h]
    split <;> simp [hsize]
  nodup := .nil
  wasOpen := by simp

theorem evolves_emit (d : Draft) (op : Opcode) (operand : Cell) :
    d.Evolves (d.emit op operand) [] [] :=
  @evolves_push d (d.emit op operand) _ rfl

theorem evolves_emitOpen (d : Draft) (op : Opcode) :
    d.Evolves (d.emitOpen op) [d.size] [] :=
  @evolves_push d (d.emitOpen op) _ rfl

theorem evolves_setOperand {addr : Nat} (h : d.refusal? addr operand = none) :
    d.Evolves (d.setOperand addr operand) [] [addr] where
  line place l hl := by
    by_cases heq : place = addr
    · subst heq
      exact ⟨_, closed_setOperand hl, rfl,
        fun hkept => absurd List.mem_cons_self hkept⟩
    · exact ⟨l, by rw [lines_setOperand heq, hl], rfl, fun _ => rfl⟩
  isOpen place := by
    obtain ⟨i, hline⟩ := line_of_refusal?_eq_none h
    by_cases heq : place = addr
    · subst heq
      have hclosed : ¬ (d.setOperand place operand).isOpen place = true :=
        (closed_setOperand hline).not_isOpen
      simp [hclosed]
    · simp [isOpen_congr (lines_setOperand heq), heq]
  ordered := .nil
  fresh := by simp
  nodup := by simp
  wasOpen place hplace := by
    obtain ⟨i, hline⟩ := line_of_refusal?_eq_none h
    rw [List.mem_singleton.mp hplace]
    exact Or.inl (isOpen_iff.mpr ⟨i, hline⟩)

/-- Filling operands in turn, whether or not one is refused. -/
theorem evolves_fillAll (d : Draft) (operand : Cell) (addrs : List Nat) :
    d.Evolves (d.fillAll operand addrs).1 []
      (d.filledInTurn operand addrs) := by
  induction addrs generalizing d with
  | nil => exact .of_lines rfl
  | cons addr addrs ih =>
    rw [fillAll, filledInTurn, fill, Int.toNat_natCast]
    cases hrefusal : d.refusal? addr operand with
    | some e => exact .of_lines rfl
    | none => exact (evolves_setOperand hrefusal).trans (ih _)

theorem refusal?_of_lines (h : d'.lines = d.lines) :
    d'.refusal? = d.refusal? := by
  obtain ⟨lines, labels⟩ := d
  obtain ⟨lines', labels'⟩ := d'
  cases h
  rfl

theorem filledInTurn_of_lines {addrs : List Nat} (h : d'.lines = d.lines) :
    d'.filledInTurn operand addrs = d.filledInTurn operand addrs := by
  induction addrs generalizing d d' with
  | nil => rfl
  | cons addr addrs ih =>
    simp only [filledInTurn, fill, refusal?_of_lines h]
    cases d.refusal? addr operand with
    | some e => rfl
    | none =>
      have hset : (d'.setOperand addr operand).lines =
          (d.setOperand addr operand).lines := by
        simp only [setOperand, h]
      simp only [Int.toNat_natCast, ih hset]

theorem bind_of_free {l : LabelId} (hfree : (d.label l).addr = none) :
    (d.bind l).1.lines =
      (fillAll
        { d with
          labels := d.labels.modify l fun b => { b with addr := some d.size } }
            (Int64.ofNat d.size) (d.label l).waiting.reverse).1.lines := by
  simp only [bind, hfree]
  split
  next _ _ hfill => rw [hfill]
  next _ hfill => rw [hfill]

/-- What one operation does. -/
theorem evolves_perform (d : Draft) (op : DraftOp) :
    d.Evolves (d.perform op).1 (d.opens op) (d.fills op) := by
  cases op with
  | emit op operand => exact evolves_emit d op operand
  | emitOpen op => exact evolves_emitOpen d op
  | newLabel => exact .of_lines rfl
  | here => exact .of_lines rfl
  | jump op l =>
    simp only [perform, jump, opens, fills]
    cases (d.label l).addr with
    | some target => exact evolves_emit d op _
    | none => exact (evolves_emitOpen d op).trans (.of_lines rfl)
  | fill addr operand =>
    simp only [perform, opens, fills]
    cases hfill : d.fill addr operand with
    | error e => exact .of_lines rfl
    | ok d' =>
      obtain ⟨hrefusal, rfl⟩ := fill_eq_ok_iff.mp hfill
      obtain ⟨place, rfl⟩ :=
        Int.eq_ofNat_of_zero_le (refusal?_eq_none_iff.mp hrefusal).1
      exact evolves_setOperand hrefusal
  | bind l =>
    simp only [perform, opens, fills]
    cases hfree : (d.label l).addr with
    | some target =>
      rw [if_neg (Option.some_ne_none target)]
      exact .of_lines (by simp only [bind, hfree])
    | none =>
      rw [if_pos rfl]
      let marked : Draft :=
        { d with
          labels := d.labels.modify l fun b => { b with addr := some d.size } }
      let waiting := (d.label l).waiting.reverse
      have hmarked : d.Evolves marked [] [] := .of_lines rfl
      have hturn : marked.filledInTurn (Int64.ofNat d.size) waiting =
          d.filledInTurn (Int64.ofNat d.size) waiting :=
        filledInTurn_of_lines rfl
      have hfilled :=
        hmarked.trans (evolves_fillAll marked (Int64.ofNat d.size) waiting)
      have hbound := hfilled.trans (.of_lines (bind_of_free hfree))
      simpa only [hturn, List.nil_append, List.append_nil] using hbound

theorem evolves_after (d : Draft) (ops : List DraftOp) :
    d.Evolves (d.after ops) (d.openedBy ops) (d.filledBy ops) := by
  induction ops generalizing d with
  | nil => exact .of_lines rfl
  | cons op ops ih => exact (evolves_perform d op).trans (ih _)

theorem Evolves.instr {opened filled : List Nat} {addr : Nat} {i : Instr}
    (h : d.Evolves d' opened filled) (hi : d.instrs[addr]? = some i) :
    ∃ i', d'.instrs[addr]? = some i' ∧ i'.op = i.op ∧
      (addr ∉ filled → i' = i) := by
  rw [getElem?_instrs, Option.map_eq_some_iff] at hi
  obtain ⟨l, hl, rfl⟩ := hi
  obtain ⟨l', hl', hop, hsame⟩ := h.line addr l hl
  exact ⟨l'.instr, by rw [getElem?_instrs, hl', Option.map_some], hop,
    fun hkept => congrArg _ (hsame hkept)⟩

/-- An instruction that changes is open before, and afterwards it changes no
more. -/
theorem Evolves.changed {opened filled opened' filled' : List Nat} {addr : Nat}
    {i i' : Instr} (h : d.Evolves d' opened filled)
    (h' : d'.Evolves d'' opened' filled') (hi : d.instrs[addr]? = some i)
    (hi' : d'.instrs[addr]? = some i') (hne : i' ≠ i) :
    d.isOpen addr = true ∧ d''.instrs[addr]? = some i' := by
  have hlt : addr < d.size := by
    have hbound := (Array.getElem?_eq_some_iff.mp hi).1
    rwa [instrs, Array.size_map] at hbound
  have hfilled : addr ∈ filled := by
    by_contra hkept
    obtain ⟨k, hk, -, hsame⟩ := h.instr hi
    rw [hi', hsame hkept] at hk
    exact hne (Option.some.inj hk)
  have hkept : addr ∉ filled' := by
    intro hagain
    rcases h'.wasOpen addr hagain with hopen | hopened
    · exact ((h.isOpen addr).mp hopen).2 hfilled
    · have hsize := h.size_le
      have hfresh := (h'.fresh addr hopened).1
      omega
  obtain ⟨k, hk, -, hsame⟩ := h'.instr hi'
  refine ⟨?_, by rw [hk, hsame hkept]⟩
  rcases h.wasOpen addr hfilled with hopen | hopened
  · exact hopen
  · have hfresh := (h.fresh addr hopened).1
    omega

/-- Filling an operand: when it is refused, and what it does. -/
theorem perform_fill (d : Draft) (addr : Int) (operand : Cell) :
    (∀ e, (d.perform (.fill addr operand)).2 = some e →
      (d.perform (.fill addr operand)).1 = d) ∧
    ((d.perform (.fill addr operand)).2 = none ↔
      ∃ (place : Nat) (i : Instr), addr = place ∧ place ∈ d.openAddrs ∧
        d.instrs[place]? = some i ∧
        (i.op.isJump = true → 0 ≤ operand.toInt ∧ operand.toInt ≤ d.size) ∧
        (d.perform (.fill addr operand)).1.instrs[place]? =
          some { i with operand }) := by
  simp only [perform]
  cases hfill : d.fill addr operand with
  | error e =>
    refine ⟨fun _ _ => rfl, by simp, ?_⟩
    rintro ⟨place, i, rfl, hopen, hi, hrange, -⟩
    obtain ⟨k, hline⟩ := isOpen_iff.mp (mem_openAddrs.mp hopen)
    rw [getElem?_instrs, hline] at hi
    cases hi
    have hrefusal : d.refusal? place operand = none :=
      refusal?_of_open ⟨k.operand, hline⟩ hrange
    rw [fill_eq_ok_iff.mpr ⟨hrefusal, rfl⟩] at hfill
    cases hfill
  | ok d' =>
    obtain ⟨hrefusal, rfl⟩ := fill_eq_ok_iff.mp hfill
    obtain ⟨hnonneg, i, hline, hrange⟩ := refusal?_eq_none_iff.mp hrefusal
    obtain ⟨place, rfl⟩ := Int.eq_ofNat_of_zero_le hnonneg
    refine ⟨by simp,
      fun _ => ⟨place, i, rfl, mem_openAddrs.mpr (isOpen_iff.mpr ⟨i, hline⟩),
        ?_, hrange, ?_⟩,
      fun _ => rfl⟩
    · rw [getElem?_instrs, show d.lines[place]? = _ from hline, Option.map_some]
    · exact (closed_setOperand hline).getElem?_instrs

/-- Finishing succeeds if no operand is open and every jump goes to an
instruction. -/
theorem finish_eq_ok_iff {code : Array Instr} :
    d.finish = .ok code ↔
      d.openAddrs = [] ∧
        (∀ i ∈ d.instrs, i.op = .jump ∨ i.op = .jumpZero ∨ i.op = .call →
          0 ≤ i.operand.toInt ∧ i.operand.toInt < d.size) ∧
        code = d.instrs := by
  have hinside : Instr.firstOutside d.size 0 d.instrs.toList = none ↔
      ∀ i ∈ d.instrs, i.op = .jump ∨ i.op = .jumpZero ∨ i.op = .call →
      0 ≤ i.operand.toInt ∧ i.operand.toInt < d.size := by
    rw [Instr.firstOutside_eq_none_iff]
    simp only [Array.mem_toList_iff]
    refine forall₂_congr fun i _ => ?_
    have hjump : i.op.isJump = true ↔ i.op = .jump ∨ i.op = .jumpZero ∨
        i.op = .call := by
      cases i.op <;> simp [Opcode.isJump]
    rw [← hjump, Instr.jumpsOutside]
    cases i.op.isJump <;> simp
  simp only [finish]
  cases d.openAddrs with
  | cons addr addrs => simp
  | nil =>
    rw [← hinside]
    cases Instr.firstOutside d.size 0 d.instrs.toList with
    | some found => simp
    | none => simp [eq_comm]

/-- The history of a draft, whatever labels it starts with. Instructions are
only added. One that is there keeps its opcode; if it changes then its operand
was open when it was added, and from then on it stays as it is. Each open
operand is filled at most once, and those that have not been filled are the open
addresses. Filling an operand either succeeds or changes nothing, and the code
can be finished as soon as nothing is open and no jump leaves it. -/
theorem operands_are_filled_once (labels : Array Label) (ops : List DraftOp) :
    let start : Draft := { labels }
    let d := start.after ops
    (∀ earlier middle later addr i, ops = earlier ++ middle ++ later →
      (start.after earlier).instrs[addr]? = some i →
      ∃ i', (start.after (earlier ++ middle)).instrs[addr]? = some i' ∧
      i'.op = i.op ∧
      (i' ≠ i → addr ∈ start.openedBy earlier ∧ d.instrs[addr]? = some i')) ∧
    ((start.filledBy ops).Nodup ∧ ∀ addr ∈ start.filledBy ops,
      addr ∈ start.openedBy ops) ∧
    (d.openAddrs.Pairwise (· < ·) ∧ ∀ addr, addr ∈ d.openAddrs ↔
      addr ∈ start.openedBy ops ∧ addr ∉ start.filledBy ops) ∧
    (∀ addr operand,
      (∀ e, (d.perform (.fill addr operand)).2 = some e →
      (d.perform (.fill addr operand)).1 = d) ∧
      ((d.perform (.fill addr operand)).2 = none ↔ ∃ (place : Nat) (i : Instr),
        addr = place ∧ place ∈ d.openAddrs ∧ d.instrs[place]? = some i ∧
        (i.op.isJump = true → 0 ≤ operand.toInt ∧ operand.toInt ≤ d.size) ∧
        (d.perform (.fill addr operand)).1.instrs[place]? =
        some { i with operand })) ∧
    ∀ code, d.finish = .ok code ↔
      d.openAddrs = [] ∧
      (∀ i ∈ d.instrs, i.op = .jump ∨ i.op = .jumpZero ∨ i.op = .call →
        0 ≤ i.operand.toInt ∧ i.operand.toInt < d.size) ∧ code = d.instrs := by
  intro start d
  have hstart : ∀ addr, ¬ start.isOpen addr = true := by simp [start, isOpen]
  have hopen : ∀ ops addr, (start.after ops).isOpen addr = true ↔
      addr ∈ start.openedBy ops ∧ addr ∉ start.filledBy ops := by
    intro ops addr
    rw [(evolves_after start ops).isOpen, or_iff_right (hstart addr)]
  refine ⟨?_, ⟨(evolves_after start ops).nodup, fun addr haddr => ?_⟩,
    ⟨pairwise_openAddrs d, fun addr => ?_⟩, perform_fill d,
    fun code => finish_eq_ok_iff⟩
  · rintro earlier middle later addr i rfl hi
    have hmiddle := evolves_after (start.after earlier) middle
    have hlater := evolves_after (start.after (earlier ++ middle)) later
    rw [← after_append] at hmiddle hlater
    obtain ⟨i', hi', hop, -⟩ := hmiddle.instr hi
    refine ⟨i', hi', hop, fun hne => ?_⟩
    obtain ⟨hwas, hfinal⟩ := hmiddle.changed hlater hi hi' hne
    exact ⟨((hopen earlier addr).mp hwas).1, hfinal⟩
  · exact ((evolves_after start ops).wasOpen addr haddr).resolve_left
      (hstart addr)
  · rw [mem_openAddrs, hopen]

/-- Two jumps wait for a label. The operand of the second is filled on its own,
so that binding the label fills the first and is then refused. -/
def halfBound : List DraftOp :=
  [.newLabel, .emitOpen .push, .jump .jump 0, .jump .jumpZero 0, .fill 2 1,
    .fill 2 0, .bind 0]

theorem operands_are_filled_once_halfBound :
    let d := ({} : Draft).after halfBound
    ((({} : Draft).after (halfBound.take 6)).perform (.bind 0)).2 =
    some (.notOpen 2) ∧ (({} : Draft).after (halfBound.take 6)).instrs[1]? =
    some { op := .jump, operand := -1 } ∧
    d.instrs[1]? = some { op := .jump, operand := 3 } ∧
    1 ∈ ({} : Draft).openedBy (halfBound.take 6) ∧
    ({} : Draft).filledBy halfBound = [2, 1] ∧ 0 ∈ d.openAddrs ∧
    1 ∉ d.openAddrs ∧ (d.perform (.fill 2 0)).1 = d ∧
    (d.perform (.fill 0 9)).2 = none ∧ d.finish ≠ .ok d.instrs := by
  intro d
  obtain ⟨htime, -, ⟨-, hopen⟩, hfill, hfinish⟩ :=
    operands_are_filled_once #[] halfBound
  have hbefore : (({} : Draft).after (halfBound.take 6)).instrs[1]? =
      some { op := .jump, operand := -1 } := by
    decide +kernel
  have hafter : d.instrs[1]? = some { op := .jump, operand := 3 } := by
    decide +kernel
  obtain ⟨i, hi, -, hchanged⟩ :=
    htime (halfBound.take 6) [.bind 0] [] 1 _ rfl hbefore
  cases hi.symm.trans hafter
  have hzero : 0 ∈ d.openAddrs := (hopen 0).mpr (by decide)
  refine ⟨by decide, hbefore, hafter, (hchanged (by decide)).1, by decide,
    hzero, fun h => ?_, ?_, ?_, fun h => ?_⟩
  · exact absurd ((hopen 1).mp h).2 (by decide)
  · exact (hfill 2 0).1 (.notOpen 2) (by decide)
  · refine (hfill 0 9).2.mpr ⟨0, { op := .push, operand := -1 }, rfl, hzero,
      ?_, by decide, ?_⟩ <;> decide +kernel
  · rw [((hfinish d.instrs).mp h).1] at hzero
    cases hzero

end Draft

end StackC
