import StackC.Proofs.Frames

/-!
Slots. A slot names an argument or a local of the top frame by a number, and its
address is a sum. Where the sum fits into 64 bits, a slot that names no cell is
refused. The lowest number has no negative, and the address of a high local does
not fit: there the sum wraps around, and the address that comes out lies outside
memory.
-/

namespace StackC

namespace Machine

/-- The cell that a slot of the frame `f` names, computed over the integers. -/
def cellOf? (m : Machine) (f : Frame) (slot : Cell) : Option Nat :=
  if -f.count ≤ slot.toInt ∧ slot.toInt ≤ -1 then
    some (f.base - slot.toInt - 1).toNat
  else if 1 ≤ slot.toInt ∧
    f.base + f.count + slot.toInt - 1 < m.memory.size then
    some (f.base + f.count + slot.toInt - 1).toNat
  else none

/-- The sum that gives the address of a slot does not fit into 64 bits. -/
def SlotWraps (f : Frame) (slot : Cell) : Prop :=
  slot.toInt = -2 ^ 63 ∨ 2 ^ 63 ≤ f.base + f.count + slot.toInt - 1

instance (f : Frame) (slot : Cell) : Decidable (SlotWraps f slot) :=
  inferInstanceAs (Decidable (_ ∨ _))

section

variable {m : Machine} {f : Frame} {slot : Cell} {k : Nat}

/-- The address of an argument as it is computed: the slot is negated first, and
the lowest number passes the test since it is its own negative. -/
theorem slotAddr_of_neg (hf : m.frames.back? = some f)
    (hcount : f.count < 2 ^ 63) (hneg : slot.toInt < 0) :
    m.slotAddr slot =
      if slot.toInt = -2 ^ 63 ∨ -f.count ≤ slot.toInt then
        some (Int64.ofInt (f.base - slot.toInt - 1))
      else none := by
  have hmin : -9223372036854775808 ≤ slot.toInt := slot.le_toInt
  have hnotPos : ¬ 0 < slot := by
    rw [Int64.lt_iff_toInt_lt, Int64.toInt_zero]
    omega
  have hcond : (slot < 0 ∧ -slot ≤ Int64.ofNat f.count) ↔ slot.toInt = -2 ^ 63 ∨
      -f.count ≤ slot.toInt := by
    rw [Int64.lt_iff_toInt_lt, Int64.le_iff_toInt_le, Int64.toInt_zero,
      Int64.toInt_neg, Int64.toInt_ofNat_of_lt hcount, Int.bmod_def]
    split
    next => omega
    next => omega
  have hsum :
      Int64.ofNat f.base + -slot - 1 =
      Int64.ofInt (f.base - slot.toInt - 1) := by
    rw [Int64.ofInt_sub, Int64.ofInt_sub, Int64.ofInt_toInt,
      Int64.ofInt_eq_ofNat, ← Int64.sub_eq_add_neg]
    rfl
  simp only [slotAddr, hf, hcond, hsum, if_neg hnotPos]

/-- The address of a local as it is computed. -/
theorem slotAddr_of_pos (hf : m.frames.back? = some f) (hpos : 0 < slot.toInt) :
    m.slotAddr slot =
      if (Int64.ofInt (f.base + f.count + slot.toInt - 1)).toInt < m.memory.size
      then some (Int64.ofInt (f.base + f.count + slot.toInt - 1))
      else none := by
  have hnotNeg : ¬ (slot < 0 ∧ -slot ≤ Int64.ofNat f.count) := by
    rw [Int64.lt_iff_toInt_lt, Int64.toInt_zero]
    omega
  have hlocal : 0 < slot := by
    rw [Int64.lt_iff_toInt_lt, Int64.toInt_zero]
    exact hpos
  have hsum : Int64.ofNat f.base + Int64.ofNat f.count + slot - 1 =
      Int64.ofInt (f.base + f.count + slot.toInt - 1) := by
    rw [Int64.ofInt_sub, Int64.ofInt_add, Int64.ofInt_add, Int64.ofInt_toInt,
      Int64.ofInt_eq_ofNat, Int64.ofInt_eq_ofNat]
    rfl
  simp only [slotAddr, hf, if_neg hnotNeg, if_pos hlocal, hsum]

theorem toInt_ofInt_of_fits {x : Int} (hlow : 0 ≤ x) (hhigh : x < 2 ^ 63) :
    (Int64.ofInt x).toInt = x :=
  Int64.toInt_ofInt_of_le (by omega) hhigh

/-- A sum that is too large by one bit comes out negative. -/
theorem toInt_ofInt_of_wraps {x : Int} (hlow : 2 ^ 63 ≤ x)
    (hhigh : x < 2 ^ 64) : (Int64.ofInt x).toInt < 0 := by
  rw [Int64.toInt_ofInt, show Int64.size = 2 ^ 64 from rfl, Int.bmod_def]
  split
  next => omega
  next => omega

/-- A slot that names a cell has the number of the cell for its address. -/
theorem slotAddr_of_cellOf (hf : m.frames.back? = some f)
    (hend : f.base + f.count ≤ m.memory.size) (hsmall : m.memory.size < 2 ^ 63)
    (hcell : m.cellOf? f slot = some k) :
    k < m.memory.size ∧ m.slotAddr slot = some (Int64.ofNat k) := by
  rw [cellOf?] at hcell
  split at hcell
  next harg =>
    cases hcell
    have hnat : ((f.base - slot.toInt - 1).toNat : Int) = f.base - slot.toInt -
        1 := Int.toNat_of_nonneg (by omega)
    refine ⟨by omega, ?_⟩
    rw [slotAddr_of_neg hf (by omega) (by omega), if_pos (Or.inr harg.1),
      ← Int64.ofInt_eq_ofNat, hnat]
  next =>
    obtain ⟨hlocal, hcell⟩ := Option.ite_none_right_eq_some.mp hcell
    cases hcell
    have hnat : ((f.base + f.count + slot.toInt - 1).toNat : Int) =
        f.base + f.count + slot.toInt - 1 := Int.toNat_of_nonneg (by omega)
    refine ⟨by omega, ?_⟩
    rw [slotAddr_of_pos hf (by omega),
      toInt_ofInt_of_fits (by omega) (by omega), if_pos hlocal.2,
      ← Int64.ofInt_eq_ofNat, hnat]

/-- A slot that names no cell has no address, if the sum does not wrap
around. -/
theorem slotAddr_of_not_wraps (hf : m.frames.back? = some f)
    (hend : f.base + f.count ≤ m.memory.size) (hsmall : m.memory.size < 2 ^ 63)
    (hcell : m.cellOf? f slot = none) (hfits : ¬ SlotWraps f slot) :
    m.slotAddr slot = none := by
  obtain ⟨hlowest, hsum⟩ := not_or.mp hfits
  rw [cellOf?] at hcell
  split at hcell
  next => cases hcell
  next harg =>
    split at hcell
    next => cases hcell
    next hlocal =>
      rcases Int.lt_trichotomy slot.toInt 0 with hneg | hzero | hpos
      · rw [slotAddr_of_neg hf (by omega) hneg, if_neg (by omega)]
      · obtain rfl : slot = 0 := Int64.toInt_inj.mp hzero
        simp only [slotAddr, hf]
        rfl
      · rw [slotAddr_of_pos hf hpos, toInt_ofInt_of_fits (by omega) (by omega),
          if_neg (by omega)]

/-- A sum that wraps around passes the test, and the address that comes out is
no cell of memory. -/
theorem slotAddr_of_wraps (hf : m.frames.back? = some f)
    (hend : f.base + f.count ≤ m.memory.size) (hsmall : m.memory.size < 2 ^ 63)
    (hwraps : SlotWraps f slot) :
    m.cellOf? f slot = none ∧
      ∃ addr, m.slotAddr slot = some addr ∧ m.index? addr = none := by
  have hmax : slot.toInt < 9223372036854775808 := slot.toInt_lt
  have hnone : m.cellOf? f slot = none := by
    rw [SlotWraps] at hwraps
    rw [cellOf?, if_neg (by omega), if_neg (by omega)]
  refine ⟨hnone, ?_⟩
  rcases hwraps with hlowest | hsum
  · refine ⟨_, by rw [slotAddr_of_neg hf (by omega) (by omega),
      if_pos (Or.inl hlowest)], if_neg ?_⟩
    rintro ⟨hnonneg, hinside⟩
    -- Only with the frame at the very bottom does the sum fit, and then it is
    -- the largest number.
    by_cases hbase : f.base = 0
    · rw [toInt_ofInt_of_fits (by omega) (by omega)] at hinside
      omega
    · exact absurd hnonneg
        (Int.not_le.mpr (toInt_ofInt_of_wraps (by omega) (by omega)))
  · have hnegative :=
      toInt_ofInt_of_wraps hsum
        (show f.base + f.count + slot.toInt - 1 < 2 ^ 64 by omega)
    refine ⟨_, by rw [slotAddr_of_pos hf (by omega), if_pos (by omega)],
      if_neg ?_⟩
    rintro ⟨hnonneg, -⟩
    exact absurd hnonneg (Int.not_le.mpr hnegative)

end

/-- What the three instructions with a slot do. On a slot that names a cell they
read, write or push the number of that cell. On one that names none they stop
with a fault, unless the sum wraps around: then the machine breaks down when
memory is accessed, or the address that it pushes is no cell. -/
structure SlotAccess (lim : Limits) (m : Machine) (f : Frame) (slot : Cell) :
    Prop where
  cell : ∀ k, m.cellOf? f slot = some k → k < m.memory.size ∧
    exec lim { op := .loadLocal, operand := slot } m =
    go (m.push (m.memory.getD k 0)) ∧
    exec lim { op := .storeLocal, operand := slot } m =
    (m.withPop fun m v => go { m with memory := m.memory.setIfInBounds k v }) ∧
    exec lim { op := .addrLocal, operand := slot } m =
    go (m.push (Int64.ofNat k))
  refused : m.cellOf? f slot = none → ¬ SlotWraps f slot →
    ∀ op ∈ [Opcode.loadLocal, .storeLocal, .addrLocal],
      exec lim { op, operand := slot } m = m.fail (.badSlot slot)
  wrapped : SlotWraps f slot → m.cellOf? f slot = none ∧
    exec lim { op := .loadLocal, operand := slot } m = m.breakDown ∧
    exec lim { op := .storeLocal, operand := slot } m =
    (m.withPop fun m _ => m.breakDown) ∧ ∃ addr,
    exec lim { op := .addrLocal, operand := slot } m = go (m.push addr) ∧
    m.index? addr = none

theorem slotAccess {m : Machine} {f : Frame} (lim : Limits) (slot : Cell)
    (hf : m.frames.back? = some f) (hend : f.base + f.count ≤ m.memory.size)
    (hsmall : m.memory.size < 2 ^ 63) : SlotAccess lim m f slot where
  cell := by
    intro k hcell
    obtain ⟨hk, haddr⟩ := slotAddr_of_cellOf hf hend hsmall hcell
    have hindex := index?_ofNat hk hsmall
    refine ⟨hk, ?_, ?_, ?_⟩
    · simp only [exec, haddr, hindex]
    · simp only [exec, haddr]
      cases hstack : m.stack with
      | nil => simp only [withPop, hstack]
      | cons v stack =>
        have hbelow : { m with stack }.index? (Int64.ofNat k) = some k := hindex
        simp only [withPop, hstack, hbelow]
    · simp only [exec, haddr]
  refused := by
    intro hcell hfits op hop
    have haddr := slotAddr_of_not_wraps hf hend hsmall hcell hfits
    simp only [List.mem_cons, List.not_mem_nil, or_false] at hop
    rcases hop with rfl | rfl | rfl
    · simp only [exec, haddr]
    · simp only [exec, haddr]
    · simp only [exec, haddr]
  wrapped := by
    intro hwraps
    obtain ⟨hcell, addr, haddr, hindex⟩ :=
      slotAddr_of_wraps hf hend hsmall hwraps
    refine ⟨hcell, ?_, ?_, addr, ?_, hindex⟩
    · simp only [exec, haddr, hindex]
    · simp only [exec, haddr]
      cases hstack : m.stack with
      | nil => simp only [withPop, hstack]
      | cons v stack =>
        have hbelow : { m with stack }.index? addr = none := hindex
        simp only [withPop, hstack, hbelow]
    · simp only [exec, haddr]

end Machine

/-- In every machine that a run of any code comes to, as long as there is a
frame, every slot is either a cell of memory or refused, as long as the sum that
gives its address does not wrap around. -/
theorem Program.slots_are_checked_unless_they_wrap (p : Program) {lim : Limits}
    (hlim : 0 < lim.maxDepth) {sink : Sink} {m : Machine}
    (hm : Machine.Visits p lim sink (Machine.start p) m) {f : Frame}
    (hf : m.frames.back? = some f) (hsmall : m.memory.size < 2 ^ 63)
    (slot : Cell) : Machine.SlotAccess lim m f slot := by
  rcases Machine.framed_of_visits hlim hm with
      hframed | ⟨last, v, -, hreturn, hstep⟩
  · exact Machine.slotAccess lim slot hf (hframed.top_le_size hf) hsmall
  · -- The outermost call has returned, so there is no frame.
    obtain ⟨final, hfinal, -, hnone, -⟩ := hreturn.exists_stepInto sink
    cases hfinal.symm.trans hstep
    rw [Array.eq_empty_of_size_eq_zero hnone] at hf
    cases hf

/-- A function with one argument and one local. -/
def oneOfEach : Program where
  code := #[ { op := .push, operand := 7 }, { op := .frame, operand := 1 },
    { op := .call, operand := 4 }, { op := .ret },
    { op := .entry, operand := 1 }, { op := .loadLocal, operand := -1 },
    { op := .ret }]

/-- After four steps the machine is in the function. -/
theorem Program.slots_are_checked_unless_they_wrap_oneOfEach :
    let p := oneOfEach
    let lim : Limits := { maxSteps := 10, maxDepth := 10 }
    let after (n : Nat) : Machine :=
      (Machine.runFor p lim n (Machine.start p)).1
    let m := after 4
    0 < lim.maxDepth ∧ Machine.Visits p lim lim.sink (Machine.start p) m ∧
      m.frames.back? = some { base := 1, count := 1, returnTo := 3 } ∧
      m.memory.size < 2 ^ 63 ∧ m.exec lim { op := .loadLocal, operand := -1 } =
      Machine.go (m.push 7) ∧ m.exec lim { op := .addrLocal, operand := 1 } =
      Machine.go (m.push 2) ∧ m.exec lim { op := .storeLocal, operand := 2 } =
      m.fail (.badSlot 2) ∧
      m.exec lim { op := .loadLocal, operand := Int64.maxValue } =
      m.breakDown := by
  intro p lim after m
  have hlim : 0 < lim.maxDepth := by decide
  have hfour : Machine.Visits p lim lim.sink (Machine.start p) m :=
    Or.inl ⟨_, Machine.proceeds_of_steps after 4 (by decide +kernel)⟩
  have hf : m.frames.back? = some { base := 1, count := 1, returnTo := 3 } := by
    decide +kernel
  have hsmall : m.memory.size < 2 ^ 63 := by decide +kernel
  have haccess := slots_are_checked_unless_they_wrap p hlim hfour hf hsmall
  have hseven : m.memory.getD 1 0 = 7 := by decide +kernel
  obtain ⟨-, hload, -, -⟩ := (haccess (-1)).cell 1 (by decide +kernel)
  obtain ⟨-, -, -, htake⟩ := (haccess 1).cell 2 (by decide +kernel)
  have hrefused :=
    (haccess 2).refused (by decide +kernel) (by decide +kernel) .storeLocal
      (by decide)
  obtain ⟨-, hbroken, -⟩ := (haccess Int64.maxValue).wrapped (by decide +kernel)
  rw [hseven] at hload
  exact ⟨hlim, hfour, hf, hsmall, hload, htake, hrefused, hbroken⟩

/-- One instruction with a slot, in a frame that begins at cell 2. -/
def usingSlot (op : Opcode) (slot : Cell) : Program where
  code := #[{ op, operand := slot }]
  data := #[0, 0]

/-- A slot at either end of the range is not refused: the sum that gives its
address wraps around. Reading the cell breaks the machine down, and the address
is handed out though memory has no such cell. -/
theorem Program.slots_at_the_ends_are_not_refused :
    let after (op : Opcode) (slot : Cell) :=
      (Machine.start (usingSlot op slot)).step (usingSlot op slot)
        { maxSteps := 10 }
    (after .loadLocal Int64.minValue).2 = some .crash ∧
    (after .loadLocal Int64.maxValue).2 = some .crash ∧
    (after .addrLocal Int64.minValue).2 = none ∧
    (after .addrLocal Int64.maxValue).2 = none ∧
    (after .addrLocal Int64.minValue).1.stack = [-9223372036854775807] ∧
    (after .addrLocal Int64.maxValue).1.stack = [-9223372036854775808] := by
  decide +kernel

end StackC
