import StackC.Compile
import StackC.Proofs.IntegerCode

/-!
The code of pointer arithmetic. An offset is multiplied by the cells of what is
pointed to before it is added or subtracted, and the difference of two pointers
is divided by them, unless there is at most one. So adding and subtracting an
offset undo each other for all pointers, but the difference gives an offset back
only where what is pointed to has cells: an offset of a pointer to `void` is
lost.
-/

namespace StackC

namespace Machine

section

variable {lim : Limits} {m : Machine} (hrunning : m.halted = false)

include hrunning

theorem rewrites_scaleCode (cells v : Cell) :
    m.Rewrites lim (scaleCode cells) [v] [v * cells] := by
  rw [scaleCode]
  split
  next hone =>
    rw [beq_iff_eq] at hone
    rw [hone, Int64.mul_one]
    exact .nil [v]
  next =>
    exact ((rewrites_push hrunning cells).above [v]).append
      (rewrites_arith hrunning rfl)

/-- The code of a difference of pointers. -/
theorem rewrites_difference (elem : Ty) (a b : Cell) :
    m.Rewrites lim (pointerCode .sub (.pointer elem) (.pointer elem)) [b, a]
      [if 1 < elem.cells.toInt then (a - b) / elem.cells else a - b] := by
  have hsub : m.Rewrites lim [{ op := .arith .sub }] [b, a] [a - b] :=
    rewrites_arith hrunning rfl
  rw [pointerCode_difference]
  split
  next hmany =>
    have hpush : m.Rewrites lim _ _ _ :=
      (rewrites_push hrunning elem.cells).above [a - b]
    exact hsub.append (hpush.append
      (rewrites_arith hrunning (if_neg (Cell.ne_zero_of_one_lt hmany))))
  next => exact hsub

end

end Machine

/-- A pointer and an integer may be added in either order, and an integer may be
subtracted from a pointer. -/
theorem Ty.binary_offset {t : Ty} (ht : t.isInteger = true) (elem : Ty) :
    Ty.binary .add (.pointer elem) t = .ok (.pointer elem) ∧
      Ty.binary .add t (.pointer elem) = .ok (.pointer elem) ∧
      Ty.binary .sub (.pointer elem) t = .ok (.pointer elem) := by
  cases t with
  | base b unsigned =>
    cases b with
    | void => cases ht
    | char | short | int | long => exact ⟨rfl, rfl, rfl⟩
  | pointer | array => cases ht

theorem Ty.binary_difference (elem : Ty) :
    Ty.binary .sub (.pointer elem) (.pointer elem) = .ok .long :=
  if_pos (beq_self_eq_true elem)

/-- The code of an expression, the same wherever it is emitted, puts a cell on
the stack and changes nothing else. -/
def Emitter.Puts (e : Emitter) (lim : Limits) (m : Machine) (x : Expr) (ty : Ty)
    (v : Cell) : Prop :=
  ∃ a code, e.check x = .ok a ∧ a.Puts lim m ty v.toInt code

namespace Emitter.Puts

variable {e : Emitter} {lim : Limits} {m : Machine} {x y : Expr} {s t elem : Ty}
  {a b : Cell}

/-- A variable that is no array puts what its cell holds. -/
theorem var (hrunning : m.halted = false) {name : Name} {v : LocalVar} {k : Nat}
    (hv : e.scope.find? name = some v) (harray : v.ty.isArray = false)
    (hk : m.cell? v = some k) :
    e.Puts lim m (.var name) v.ty (m.memory.getD k 0) := by
  have hresolve : e.scope.resolve name = .ok v := by rw [Scope.resolve, hv]
  refine ⟨.var v, [{ op := .loadLocal, operand := v.operand }],
    bind_ok hresolve rfl, rfl, fun o => ?_, ?_⟩
  · simp only [Term.emit, harray]
    rfl
  · rw [Int64.ofInt_toInt]
    exact Machine.rewrites_loadLocal hrunning hk

/-- The code of an operator that has a pointer among its operands. -/
theorem operator {op : Operator} {l r ty : Ty} {a' b' v : Cell}
    (hx : e.Puts lim m x s a) (hs : s.decay = l) (hy : e.Puts lim m y t b)
    (ht : t.decay = r) (hop : op.isComparison = false)
    (hpointer : (l.isInteger && r.isInteger) = false)
    (hty : Ty.binary op l r = .ok ty)
    (hleft : m.Rewrites lim (scaleLeftCode op l r) [a] [a'])
    (hright : m.Rewrites lim (scaleRightCode op l r) [b] [b'])
    (happly : m.Rewrites lim (pointerCode op l r) [b', a'] [v]) :
    e.Puts lim m (.binary op x y) ty v := by
  obtain ⟨left, codeL, hl, hputL⟩ := hx
  obtain ⟨right, codeR, hr, hputR⟩ := hy
  have hcheck : e.check (.binary op x y) = .ok (.binary op left right ty) := by
    refine check_binary hl hr ?_
    rw [hputL.ty, hputR.ty, operandTypes, if_neg (by simp [hop]), hs, ht, hty]
  have hfirst := hputL.rewrites
  have hsecond := hputR.rewrites
  rw [Int64.ofInt_toInt] at hfirst hsecond
  have hall :=
    ((hfirst.append hleft).append ((hsecond.append hright).above [a'])).append
      happly
  rw [← Int64.ofInt_toInt v] at hall
  refine ⟨_, _, hcheck, rfl, fun o => ?_, hall⟩
  simp only [Term.emit, hputL.ty, hputR.ty, hs, ht, hpointer, hputL.emits,
    hputR.emits, Output.emitAll_append, Bool.false_eq_true, if_false]

section

variable (hrunning : m.halted = false) (hx : e.Puts lim m x s a)
  (hs : s.decay = .pointer elem)

include hrunning hx hs

theorem difference (hy : e.Puts lim m y t b) (ht : t.decay = .pointer elem) :
    e.Puts lim m (.binary .sub x y) .long
      (if 1 < elem.cells.toInt then (a - b) / elem.cells else a - b) :=
  operator hx hs hy ht rfl rfl (Ty.binary_difference elem) (.nil [a]) (.nil [b])
    (Machine.rewrites_difference hrunning elem a b)

variable (hy : e.Puts lim m y t b) (ht : t.isInteger = true)

include hy ht

theorem offset :
    e.Puts lim m (.binary .add x y) (.pointer elem) (a + b * elem.cells) := by
  have hty := (Ty.binary_offset ht elem).1
  have hscale : m.Rewrites lim (scaleCode elem.cells) [b] [b * elem.cells] :=
    Machine.rewrites_scaleCode hrunning elem.cells b
  have hright : scaleRightCode .add (.pointer elem) t = scaleCode elem.cells :=
    if_pos ht
  obtain ⟨base, unsigned, rfl⟩ := Ty.base_of_isInteger ht
  exact operator hx hs hy rfl rfl rfl hty (.nil [a]) (hright ▸ hscale)
    (Machine.rewrites_arith hrunning rfl)

theorem offsetLeft :
    e.Puts lim m (.binary .add y x) (.pointer elem) (b * elem.cells + a) := by
  have hty := (Ty.binary_offset ht elem).2.1
  have hscale : m.Rewrites lim (scaleCode elem.cells) [b] [b * elem.cells] :=
    Machine.rewrites_scaleCode hrunning elem.cells b
  have hleft : scaleLeftCode .add t (.pointer elem) = scaleCode elem.cells :=
    if_pos ht
  have hpointer : (t.isInteger && (Ty.pointer elem).isInteger) = false :=
    Bool.and_false _
  obtain ⟨base, unsigned, rfl⟩ := Ty.base_of_isInteger ht
  exact operator hy rfl hx hs rfl hpointer hty (hleft ▸ hscale) (.nil [a])
    (Machine.rewrites_arith hrunning rfl)

theorem offsetBack :
    e.Puts lim m (.binary .sub x y) (.pointer elem) (a - b * elem.cells) := by
  have hty := (Ty.binary_offset ht elem).2.2
  have hscale : m.Rewrites lim (scaleCode elem.cells) [b] [b * elem.cells] :=
    Machine.rewrites_scaleCode hrunning elem.cells b
  have hright : scaleRightCode .sub (.pointer elem) t = scaleCode elem.cells :=
    if_pos ht
  obtain ⟨base, unsigned, rfl⟩ := Ty.base_of_isInteger ht
  exact operator hx hs hy rfl rfl rfl hty (.nil [a]) (hright ▸ hscale)
    (Machine.rewrites_arith hrunning rfl)

end

end Emitter.Puts

theorem Cell.toInt_mul_of_has {a b : Cell}
    (h : Ty.long.Has (a.toInt * b.toInt)) :
    (a * b).toInt = a.toInt * b.toInt := by
  obtain ⟨-, -, hexact⟩ := Ty.toInt_of_has rfl rfl h
  rwa [Int64.ofInt_mul, Int64.ofInt_toInt, Int64.ofInt_toInt] at hexact

theorem Cell.toInt_add_of_has {a b : Cell}
    (h : Ty.long.Has (a.toInt + b.toInt)) :
    (a + b).toInt = a.toInt + b.toInt := by
  obtain ⟨-, -, hexact⟩ := Ty.toInt_of_has rfl rfl h
  rwa [Int64.ofInt_add, Int64.ofInt_toInt, Int64.ofInt_toInt] at hexact

/-- A number of elements is found again from its cells. -/
theorem Cell.mul_div_cancel {n cells : Cell} (hcells : 1 < cells.toInt)
    (h : Ty.long.Has (n.toInt * cells.toInt)) : n * cells / cells = n := by
  have hne : cells ≠ -1 := by
    rintro rfl
    exact absurd hcells (by decide)
  rw [← Int64.toInt_inj, Int64.toInt_div_of_ne_right _ _ hne,
    toInt_mul_of_has h]
  exact Int.mul_tdiv_cancel _ (by omega)

/-- What the code of pointer arithmetic computes for a pointer `p` and an
integer `n`, if neither the offset in cells nor the address overflows: both sums
give the address that lies `n` elements behind `p`, and subtracting `n` gives
`p` back. The difference of the sum and `p` is `n` if an element has cells, and
else the offset in cells. -/
theorem Emitter.pointer_arithmetic (e : Emitter) (lim : Limits) {m : Machine}
    (hrunning : m.halted = false) {x y : Expr} {s t elem : Ty} {p n : Cell}
    (hx : e.Puts lim m x s p) (hs : s.decay = .pointer elem)
    (hy : e.Puts lim m y t n) (ht : t.isInteger = true)
    (hoffset : Ty.long.Has (n.toInt * elem.cells.toInt))
    (haddress : Ty.long.Has (p.toInt + n.toInt * elem.cells.toInt)) :
    (∃ q : Cell, q.toInt = p.toInt + n.toInt * elem.cells.toInt ∧
      e.Puts lim m (.binary .add x y) (.pointer elem) q ∧
      e.Puts lim m (.binary .add y x) (.pointer elem) q) ∧
    e.Puts lim m (.binary .sub (.binary .add x y) y) (.pointer elem) p ∧
    (1 ≤ elem.cells.toInt →
      e.Puts lim m (.binary .sub (.binary .add x y) x) .long n) ∧
    (elem.cells.toInt < 1 →
      e.Puts lim m (.binary .sub (.binary .add x y) x) .long
        (n * elem.cells)) := by
  have hsum := Puts.offset hrunning hx hs hy ht
  have hswapped := Puts.offsetLeft hrunning hx hs hy ht
  have hback := Puts.offsetBack hrunning hsum rfl hy ht
  have hdifference := Puts.difference hrunning hsum rfl hx hs
  have hcancel : p + n * elem.cells - p = n * elem.cells := by
    rw [Int64.add_comm, Int64.add_sub_cancel]
  rw [Int64.add_comm] at hswapped
  rw [Int64.add_sub_cancel] at hback
  rw [hcancel] at hdifference
  refine ⟨⟨p + n * elem.cells, ?_, hsum, hswapped⟩, hback, fun hcells => ?_,
    fun hcells => ?_⟩
  · rw [← Cell.toInt_mul_of_has hoffset] at haddress ⊢
    exact Cell.toInt_add_of_has haddress
  · by_cases hone : elem.cells.toInt = 1
    · have hcells : elem.cells = 1 := Int64.toInt_inj.mp hone
      rwa [if_neg (by omega), hcells, Int64.mul_one] at hdifference
    · have hmany : 1 < elem.cells.toInt := by omega
      rwa [if_pos hmany, Cell.mul_div_cancel hmany hoffset] at hdifference
  · rwa [if_neg (by omega)] at hdifference

/-- A function with a pointer to arrays of five, which holds 7, and a `char`,
which holds -2. -/
def backwards : Emitter × Machine :=
  ({ scope :=
      { blocks := [[{ ty := .char, name := text "n", isParam := false,
                      slot := 2 },
          { ty := .pointer (.array .int 5), name := text "p", isParam := false,
            slot := 1 }]]
        cellCount := 2 } },
   { pc := 0, memory := #[0, 7, -2],
     frames := #[{ base := 1, count := 0, returnTo := -1 }] })

/-- Two arrays before cell 7 is cell -3, and from there to cell 7 it is two
arrays. -/
theorem Emitter.pointer_arithmetic_backwards :
    let p : Expr := .var (text "p")
    let n : Expr := .var (text "n")
    let ty : Ty := .pointer (.array .int 5)
    let puts := backwards.1.Puts {} backwards.2
    puts p ty 7 ∧ puts n .char (-2) ∧ puts (.binary .add p n) ty (-3) ∧
      puts (.binary .add n p) ty (-3) ∧
      puts (.binary .sub (.binary .add p n) n) ty 7 ∧
      puts (.binary .sub (.binary .add p n) p) .long (-2) := by
  intro p n ty puts
  have hp : puts p ty 7 :=
    Puts.var rfl (v := ⟨ty, text "p", false, 1⟩) (k := 1) (by decide +kernel)
      rfl (by decide +kernel)
  have hn : puts n .char (-2) :=
    Puts.var rfl (v := ⟨.char, text "n", false, 2⟩) (k := 2) (by decide +kernel)
      rfl (by decide +kernel)
  obtain ⟨⟨q, hq, hsum, hswapped⟩, hback, hdifference, -⟩ :=
    pointer_arithmetic backwards.1 {} rfl hp rfl hn rfl (by decide +kernel)
      (by decide +kernel)
  have hvalue : q = -3 := Int64.toInt_inj.mp (hq.trans (by decide +kernel))
  subst hvalue
  exact ⟨hp, hn, hsum, hswapped, hback, hdifference (by decide +kernel)⟩

/-- An offset of a pointer to `void` is lost: the difference is 0, where it is 3
for a pointer to `int`. -/
theorem void_offsets_are_lost :
    let difference (declaration : Bytes) : Option Cell :=
      (compile
        (text "int main() \x7b int x; " ++ declaration ++
          text " = &x; return (p + 3) - p; \x7d")).toOption.bind fun program =>
          (program.run { maxSteps := 100 }).2.toOption
    difference (text "void *p") = some 0 ∧
      difference (text "int *p") = some 3 := by
  decide +kernel

end StackC
