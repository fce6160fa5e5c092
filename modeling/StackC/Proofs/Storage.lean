import StackC.Proofs.Histories
import StackC.Proofs.PointerCode

/-!
Where variables are kept. Parameters are numbered from 1 on, and so are the
cells of locals, also of those whose block has been left: no number is handed
out twice and none is left out. So in a frame that has room for them no two
variables share a cell, and an array is made of the cells of its elements.
-/

namespace StackC

namespace LocalVar

/-- How many cells a variable takes. Of a parameter only the value is kept, in
one cell. -/
def width (v : LocalVar) : Nat :=
  if v.isParam then 1 else v.ty.cells.toInt.toNat

/-- The numbers that a variable takes among those of its kind. -/
def numbers (v : LocalVar) : List Nat :=
  List.range' v.slot.toInt.toNat v.width

/-- The cells of memory that a variable has in a frame. -/
def storage (v : LocalVar) (fr : Frame) : List Nat :=
  List.range' (v.addr fr) v.width

/-- Where an element of an array begins. -/
def elementAddr (v : LocalVar) (fr : Frame) (elem : Ty) (i : Nat) : Nat :=
  v.addr fr + i * elem.cells.toInt.toNat

def element (v : LocalVar) (fr : Frame) (elem : Ty) (i : Nat) : List Nat :=
  List.range' (v.elementAddr fr elem i) elem.cells.toInt.toNat

end LocalVar

def paramsOf (vs : List LocalVar) : List LocalVar :=
  vs.filter (·.isParam)

def localsOf (vs : List LocalVar) : List LocalVar :=
  vs.filter (!·.isParam)

/-- How many cells the locals among variables take together. -/
def cellsOf (vs : List LocalVar) : Nat :=
  ((localsOf vs).map (·.width)).sum

section

variable {v : LocalVar} {vs : List LocalVar}

theorem paramsOf_cons_param (h : v.isParam = true) :
    paramsOf (v :: vs) = v :: paramsOf vs :=
  List.filter_cons_of_pos h

theorem paramsOf_cons_local (h : v.isParam = false) :
    paramsOf (v :: vs) = paramsOf vs :=
  List.filter_cons_of_neg (by simp [h])

theorem localsOf_cons_param (h : v.isParam = true) :
    localsOf (v :: vs) = localsOf vs :=
  List.filter_cons_of_neg (by simp [h])

theorem localsOf_cons_local (h : v.isParam = false) :
    localsOf (v :: vs) = v :: localsOf vs :=
  List.filter_cons_of_pos (by simp [h])

theorem cellsOf_cons_param (h : v.isParam = true) :
    cellsOf (v :: vs) = cellsOf vs := by
  rw [cellsOf, localsOf_cons_param h, cellsOf]

theorem cellsOf_cons_local (h : v.isParam = false) :
    cellsOf (v :: vs) = v.width + cellsOf vs := by
  rw [cellsOf, localsOf_cons_local h, List.map_cons, List.sum_cons, cellsOf]

theorem mem_paramsOf (hv : v ∈ vs) (h : v.isParam = true) : v ∈ paramsOf vs :=
  List.mem_filter.mpr ⟨hv, h⟩

theorem mem_localsOf (hv : v ∈ vs) (h : v.isParam = false) : v ∈ localsOf vs :=
  List.mem_filter.mpr ⟨hv, by simp [h]⟩

/-- The cells of a local whose count is not negative, as a number without a
sign. -/
theorem LocalVar.cells_eq_width (h : v.isParam = false)
    (hcells : 1 ≤ v.ty.cells.toInt) :
    v.ty.cells = Int64.ofNat v.width ∧ 1 ≤ v.width := by
  have hwidth : (v.width : Int) = v.ty.cells.toInt := by
    simp only [LocalVar.width, h, Bool.false_eq_true, if_false]
    omega
  refine ⟨?_, by omega⟩
  rw [← Int64.ofInt_eq_ofNat, hwidth, Int64.ofInt_toInt]

end

namespace Scope

variable {s s' : Scope} {ops : List ScopeOp} {vs : List LocalVar}

/-- Parameters are numbered in the order in which they are added, whatever
happens in between. -/
theorem params_of_performAll (h : s.performAll ops = .ok (s', vs)) :
    s'.paramCount = s.paramCount + (paramsOf vs).length ∧
      (paramsOf vs).map (·.slot) =
        (List.range' (s.paramCount + 1) (paramsOf vs).length).map
        Int64.ofNat := by
  induction ops generalizing s vs with
  | nil =>
    cases h
    exact ⟨rfl, rfl⟩
  | cons op ops ih =>
    obtain ⟨mid, v, us, hop, hops, rfl⟩ := of_performAll_cons h
    obtain ⟨hcount, hslots⟩ := ih hops
    rcases perform_numbers hop with
        ⟨rfl, hmid, -⟩ | ⟨w, rfl, -, hw, hslot, hmid, -⟩
        | ⟨w, rfl, -, hw, -, hmid, -⟩
    · rw [hmid] at hcount hslots
      exact ⟨hcount, hslots⟩
    · rw [hmid] at hcount hslots
      rw [Option.toList_some, List.singleton_append, paramsOf_cons_param hw,
        List.length_cons, List.range'_succ, List.map_cons, List.map_cons,
        hslot, hslots]
      exact ⟨by omega, rfl⟩
    · rw [hmid] at hcount hslots
      rw [Option.toList_some, List.singleton_append, paramsOf_cons_local hw]
      exact ⟨hcount, hslots⟩

/-- The cells of locals are numbered in the order in which they are added,
without a gap, whatever happens in between. -/
theorem locals_of_performAll {cells : Nat} (h : s.performAll ops = .ok (s', vs))
    (hcount : s.cellCount = Int64.ofNat cells)
    (hcells : ∀ v ∈ vs, v.isParam = false → 1 ≤ v.ty.cells.toInt)
    (hfits : cells + cellsOf vs < 2 ^ 63) :
    s'.cellCount = Int64.ofNat (cells + cellsOf vs) ∧
      (localsOf vs).flatMap (·.numbers) =
        List.range' (cells + 1) (cellsOf vs) := by
  induction ops generalizing s vs cells with
  | nil =>
    cases h
    exact ⟨hcount, rfl⟩
  | cons op ops ih =>
    obtain ⟨mid, v, us, hop, hops, rfl⟩ := of_performAll_cons h
    rcases perform_numbers hop with ⟨rfl, -, hmid⟩ | ⟨w, rfl, -, hw, -, -, hmid⟩
        | ⟨w, rfl, -, hw, hslot, -, hmid⟩
    · exact ih hops (hmid.trans hcount) hcells hfits
    · rw [Option.toList_some, List.singleton_append] at hcells hfits ⊢
      rw [cellsOf_cons_param hw] at hfits ⊢
      rw [localsOf_cons_param hw]
      exact ih hops (hmid.trans hcount)
        (fun v hv => hcells v (List.mem_cons_of_mem w hv)) hfits
    · -- The first number is the one after the count, and the count moves on by
      -- the width.
      rw [Option.toList_some, List.singleton_append] at hcells hfits ⊢
      rw [cellsOf_cons_local hw] at hfits ⊢
      obtain ⟨hwidth, hpos⟩ :=
        LocalVar.cells_eq_width hw (hcells w List.mem_cons_self hw)
      have hnext : mid.cellCount = Int64.ofNat (cells + w.width) := by
        rw [hmid, hcount, hwidth, ← Int64.ofNat_add]
      have hnumber : w.slot.toInt.toNat = cells + 1 := by
        rw [hslot, hcount, show (1 : Int64) = Int64.ofNat 1 from rfl,
          ← Int64.ofNat_add, Int64.toInt_ofNat_of_lt (by omega),
          Int.toNat_natCast]
      obtain ⟨hlast, hrest⟩ :=
        ih hops hnext (fun v hv => hcells v (List.mem_cons_of_mem w hv))
          (by omega)
      refine ⟨by rw [hlast, Nat.add_assoc], ?_⟩
      rw [localsOf_cons_local hw, List.flatMap_cons, hrest, LocalVar.numbers,
        hnumber, show cells + w.width + 1 = cells + 1 + w.width by
          omega, List.range'_append_1]

end Scope

/-- The numbers of variables, one after the other, are those from 1 to `n`. -/
def Numbers (vs : List LocalVar) (n : Nat) : Prop :=
  vs.flatMap (·.numbers) = List.range' 1 n

namespace Numbers

variable {vs : List LocalVar} {v : LocalVar} {n : Nat}

theorem apart (h : Numbers vs n) :
    vs.Pairwise fun v w => v.numbers.Disjoint w.numbers := by
  have hnodup : (vs.flatMap (·.numbers)).Nodup := h ▸ List.nodup_range'
  exact (List.nodup_flatMap.mp hnodup).2

theorem bounds (h : Numbers vs n) (hv : v ∈ vs) (hwidth : 1 ≤ v.width) :
    1 ≤ v.slot.toInt.toNat ∧ v.slot.toInt.toNat + v.width ≤ n + 1 := by
  have hrange : ∀ k ∈ v.numbers, 1 ≤ k ∧ k < 1 + n := fun k hk =>
    List.mem_range'_1.mp (h ▸ List.mem_flatMap_of_mem hv hk)
  obtain ⟨hlow, -⟩ :=
    hrange v.slot.toInt.toNat (List.mem_range'_1.mpr (by omega))
  obtain ⟨-, hhigh⟩ :=
    hrange (v.slot.toInt.toNat + v.width - 1) (List.mem_range'_1.mpr (by omega))
  omega

/-- Parameters take one number each. -/
theorem of_slots (hparam : ∀ v ∈ vs, v.isParam = true) (hn : n < 2 ^ 63)
    (h : vs.map (·.slot) = (List.range' 1 n).map Int64.ofNat) :
    Numbers vs n := by
  have hone : ∀ v ∈ vs, v.numbers = [v.slot.toInt.toNat] := by
    intro v hv
    simp [LocalVar.numbers, LocalVar.width, hparam v hv]
  have hback : ∀ k ∈ List.range' 1 n, (Int64.ofNat k).toInt.toNat = k := by
    intro k hk
    rw [Int64.toInt_ofNat_of_lt (by have := List.mem_range'_1.mp hk; omega),
      Int.toNat_natCast]
  calc vs.flatMap (·.numbers)
      = vs.flatMap (fun v => [v.slot.toInt.toNat]) := List.flatMap_congr hone
    _ = (vs.map (·.slot)).map (·.toInt.toNat) := by
      rw [List.map_map]
      exact List.map_eq_flatMap.symm
    _ = List.range' 1 n := by
      rw [h, List.map_map]
      exact (List.map_congr_left hback).trans (List.map_id _)

end Numbers

namespace LocalVar

variable {v w : LocalVar} {fr : Frame} {cells : Nat}

/-- The numbers of a variable are among those of the parameters of a frame or of
its local cells. -/
structure Fits (v : LocalVar) (fr : Frame) (cells : Nat) : Prop where
  first : 1 ≤ v.slot.toInt.toNat
  width : 1 ≤ v.width
  last : v.slot.toInt.toNat + v.width ≤
    (if v.isParam then fr.count else cells) + 1

/-- Variables of one kind that share no number share no cell. -/
theorem disjoint_storage (hkind : v.isParam = w.isParam) (hv : v.Fits fr cells)
    (hw : w.Fits fr cells) (h : v.numbers.Disjoint w.numbers) :
    (v.storage fr).Disjoint (w.storage fr) := by
  intro k hkv hkw
  have hkv := List.mem_range'_1.mp hkv
  have hkw := List.mem_range'_1.mp hkw
  have hfirst := hv.first
  have hfirst' := hw.first
  rw [addr, hkind] at hkv
  rw [addr] at hkw
  generalize (if w.isParam then fr.base else fr.base + fr.count) = start
    at hkv hkw
  exact h (List.mem_range'_1.mpr
    (by omega : v.slot.toInt.toNat ≤ k + 1 - start ∧ _))
    (List.mem_range'_1.mpr (by omega))

/-- Parameters lie in the first part of a frame and locals in the second. -/
theorem Fits.bounds (h : v.Fits fr cells) {k : Nat} (hk : k ∈ v.storage fr) :
    if v.isParam then fr.base ≤ k ∧ k < fr.base + fr.count
    else fr.base + fr.count ≤ k ∧ k < fr.base + fr.count + cells := by
  obtain ⟨hfirst, -, hlast⟩ := h
  have hk := List.mem_range'_1.mp hk
  rw [addr] at hk
  cases hparam : v.isParam with
  | true | false =>
    simp only [hparam, Bool.false_eq_true, if_true, if_false] at hk hlast ⊢
    omega

/-- Instructions find a variable. -/
theorem Fits.slotAddr (h : v.Fits fr cells) {m : Machine}
    (hf : m.frames.back? = some fr)
    (hroom : fr.base + fr.count + cells ≤ m.memory.size)
    (hsmall : m.memory.size < 2 ^ 63) :
    m.slotAddr v.operand = some (Int64.ofNat (v.addr fr)) := by
  obtain ⟨hfirst, hwidth, hlast⟩ := h
  have hslot : v.slot = Int64.ofNat v.slot.toInt.toNat := by
    rw [← Int64.ofInt_eq_ofNat, Int.toNat_of_nonneg (by omega),
      Int64.ofInt_toInt]
  rw [operand, addr]
  generalize v.slot.toInt.toNat = k at hfirst hlast hslot ⊢
  cases hparam : v.isParam with
  | true =>
    simp only [hparam, if_true, hslot] at hlast ⊢
    exact Machine.slotAddr_arg hf hfirst (by omega) (by omega)
  | false =>
    simp only [hparam, Bool.false_eq_true, if_false, hslot] at hlast ⊢
    exact Machine.slotAddr_local hf hfirst (by omega) hsmall

end LocalVar

theorem Machine.rewrites_addrLocal {lim : Limits} {m : Machine}
    (hrunning : m.halted = false) {slot addr : Cell}
    (h : m.slotAddr slot = some addr) :
    m.Rewrites lim [{ op := .addrLocal, operand := slot }] [] [addr] := by
  refine .one hrunning fun n under => ?_
  have haddr : (m.ahead n under).slotAddr slot = some addr := h
  simp only [exec, List.nil_append, haddr]
  rfl

/-- The code that goes on from the address of an array, with an index above it,
to the address of the element. -/
def indexCode (elem : Ty) : List Instr :=
  scaleCode elem.cells ++ [{ op := .arith .add }]

/-- The code of `p` finds the elements of the array `v`: it takes the address of
the array, evaluates the index, and computes the address of the element from
both, whatever the evaluation of the index has changed besides. -/
structure Term.Locates (p index : Term) (lim : Limits) (m : Machine)
    (fr : Frame) (v : LocalVar) (elem : Ty) : Prop where
  emits : ∀ o : Output,
    p.emit o =
    (index.emit (o.emit { op := .addrLocal, operand := v.operand })).emitAll
    (indexCode elem)
  array : m.halted = false →
    m.Rewrites lim [{ op := .addrLocal, operand := v.operand }] []
    [Int64.ofNat (v.addr fr)]
  element : ∀ (m' : Machine) (i : Nat), m'.halted = false →
    m'.Rewrites lim (indexCode elem) [Int64.ofNat i, Int64.ofNat (v.addr fr)]
      [Int64.ofNat (v.elementAddr fr elem i)]

/-- The array `v` is made of its elements, which share no cell, and whatever
integer the index is, reading an element, assigning to it and taking its address
use the same code that finds it. -/
structure LocalVar.Indexed (v : LocalVar) (m : Machine) (fr : Frame) (elem : Ty)
    (len : Cell) : Prop where
  tile : (List.range len.toInt.toNat).flatMap (v.element fr elem) = v.storage fr
  apart : (List.range len.toInt.toNat).Pairwise fun i j =>
    (v.element fr elem i).Disjoint (v.element fr elem j)
  found : ∀ (e : Emitter) (name : Name) (y : Expr) (index : Term),
    e.scope.find? name = some v → e.check y = .ok index →
    index.ty.isInteger = true →
    ∃ p : Term, e.check (.deref (.binary .add (.var name) y)) =
    .ok (.deref p elem) ∧
    e.check (.addr (.deref (.binary .add (.var name) y))) =
    .ok (.addrDeref p elem) ∧
    checkTarget e.scope e.out.funcs (.deref (.binary .add (.var name) y)) =
    .ok (.cell p elem) ∧ ∀ lim, p.Locates index lim m fr v elem

theorem Ty.isVoid_of_cells {t : Ty} (h : 0 < t.cells.toInt) :
    t.isVoid = false := by
  cases t with
  | base b unsigned =>
    cases b with
    | void =>
      rw [cells, Int64.toInt_zero] at h
      exact absurd h (Int.lt_irrefl 0)
    | char | short | int | long => rfl
  | pointer | array => rfl

theorem flatMap_range_range' (first width count : Nat) :
    (List.range count).flatMap
      (fun i => List.range' (first + i * width) width) =
      List.range' first (count * width) := by
  induction count with
  | zero => simp
  | succ count ih =>
    rw [List.range_succ, List.flatMap_append, ih, List.flatMap_singleton,
      List.range'_append_1, Nat.succ_mul]

theorem rewrites_indexCode {lim : Limits} {m : Machine}
    (hrunning : m.halted = false) {elem : Ty} (hcells : 0 ≤ elem.cells.toInt)
    (first i : Nat) :
    m.Rewrites lim (indexCode elem) [Int64.ofNat i, Int64.ofNat first]
      [Int64.ofNat (first + i * elem.cells.toInt.toNat)] := by
  have hwidth : Int64.ofNat elem.cells.toInt.toNat = elem.cells := by
    rw [← Int64.ofInt_eq_ofNat, Int.toNat_of_nonneg hcells, Int64.ofInt_toInt]
  have hscale : m.Rewrites lim _ _ _ :=
    (Machine.rewrites_scaleCode hrunning elem.cells (Int64.ofNat i)).above
      [Int64.ofNat first]
  rw [Int64.ofNat_add, Int64.ofNat_mul, hwidth]
  exact hscale.append (Machine.rewrites_arith hrunning rfl)

/-- The code of a sum of an array and an integer. -/
theorem Term.emit_index {v : LocalVar} {index : Term} {elem : Ty} {len : Cell}
    (hty : v.ty = .array elem len) (hindex : index.ty.isInteger = true)
    (o : Output) :
    (Term.binary .add (.var v) index (.pointer elem)).emit o =
      (index.emit (o.emit { op := .addrLocal, operand := v.operand })).emitAll
      (indexCode elem) := by
  have hpointer : (Term.var v).ty.decay = .pointer elem := by
    rw [Term.ty, hty, Ty.decay]
  have hinteger : index.ty.decay = index.ty := Ty.decay_of_isInteger hindex
  have hright : scaleRightCode .add (.pointer elem) index.ty =
      scaleCode elem.cells := if_pos hindex
  have hleft : scaleLeftCode .add (.pointer elem) index.ty = [] := by
    obtain ⟨base, unsigned, hbase⟩ := Ty.base_of_isInteger hindex
    rw [hbase]
    rfl
  have harray : v.ty.isArray = true := by rw [hty, Ty.isArray]
  simp only [Term.emit, hpointer, hinteger, hleft, hright, harray, Ty.isInteger,
    Bool.false_and, Bool.false_eq_true, if_false, if_true, indexCode,
    Output.emitAll_append]
  rfl

namespace LocalVar

variable {v : LocalVar} {fr : Frame} {m : Machine} {elem : Ty} {len : Cell}

/-- An array whose cells are those of its elements without wrapping around is
indexed. -/
theorem indexed (hlocal : v.isParam = false) (hty : v.ty = .array elem len)
    (hcells : 1 ≤ v.ty.cells.toInt)
    (hexact : elem.cells.toInt * len.toInt = v.ty.cells.toInt)
    (haddr : m.slotAddr v.operand = some (Int64.ofNat (v.addr fr)))
    (hlen : 0 < len.toInt) : v.Indexed m fr elem len := by
  have hpos : 0 < elem.cells.toInt :=
    (pos_iff_pos_of_mul_pos (by omega)).mpr hlen
  have hwidth : v.width = len.toInt.toNat * elem.cells.toInt.toNat := by
    simp only [width, hlocal, Bool.false_eq_true, if_false, ← hexact]
    rw [Int.toNat_mul hpos.le hlen.le, Nat.mul_comm]
  have htile : (List.range len.toInt.toNat).flatMap (v.element fr elem) =
      v.storage fr := by
    rw [storage, hwidth]
    exact flatMap_range_range' _ _ _
  refine ⟨htile, ?_, ?_⟩
  · have hnodup :
        ((List.range len.toInt.toNat).flatMap (v.element fr elem)).Nodup :=
      htile ▸ List.nodup_range'
    exact (List.nodup_flatMap.mp hnodup).2
  · intro e name y index hv hy hindex
    have hvar : e.check (.var name) = .ok (.var v) :=
      bind_ok (by rw [Scope.resolve, hv]) rfl
    have hpointer : (Term.var v).ty.decay = .pointer elem := by
      rw [Term.ty, hty, Ty.decay]
    have hsum : e.check (.binary .add (.var name) y) =
        .ok (.binary .add (.var v) index (.pointer elem)) := by
      refine check_binary hvar hy ?_
      rw [operandTypes, if_neg (by decide), hpointer,
        Ty.decay_of_isInteger hindex, (Ty.binary_offset hindex elem).1]
    have hderef : typed (Ty.deref (.pointer elem)) = .ok elem := by
      simp only [Ty.deref, Ty.decay, Ty.isVoid_of_cells hpos]
      rfl
    refine ⟨.binary .add (.var v) index (.pointer elem),
      bind_ok hsum (bind_ok hderef rfl), bind_ok hsum (bind_ok hderef rfl),
      bind_ok hsum (bind_ok hderef rfl), fun lim => ?_⟩
    exact ⟨Term.emit_index hty hindex,
      fun hm => Machine.rewrites_addrLocal hm haddr, fun m' i hm' =>
      rewrites_indexCode hm' hpos.le _ i⟩

end LocalVar

/-- A frame keeps variables in its cells, each apart from the others, and finds
them there. -/
structure Machine.Keeps (m : Machine) (fr : Frame) (cells : Nat)
    (vs : List LocalVar) : Prop where
  found : ∀ v ∈ vs, m.slotAddr v.operand = some (Int64.ofNat (v.addr fr))
  inside : ∀ v ∈ vs, ∀ k ∈ v.storage fr, fr.base ≤ k ∧
    k < fr.base + fr.count + cells
  apart : vs.Pairwise fun v w => (v.storage fr).Disjoint (w.storage fr)
  elements : ∀ v ∈ vs, v.isParam = false → ∀ elem len, v.ty = .array elem len →
    0 < len.toInt → elem.cells.toInt * len.toInt = v.ty.cells.toInt →
    v.Indexed m fr elem len

section

variable {vs : List LocalVar} {fr : Frame} {cells : Nat}

theorem fits_of_numbers (hparams : Numbers (paramsOf vs) fr.count)
    (hlocals : Numbers (localsOf vs) cells)
    (hcells : ∀ v ∈ vs, v.isParam = false → 1 ≤ v.ty.cells.toInt) {v : LocalVar}
    (hv : v ∈ vs) : v.Fits fr cells := by
  cases hparam : v.isParam with
  | true =>
    have hwidth : 1 ≤ v.width := by simp [LocalVar.width, hparam]
    obtain ⟨hfirst, hlast⟩ := hparams.bounds (mem_paramsOf hv hparam) hwidth
    exact ⟨hfirst, hwidth, by rwa [if_pos hparam]⟩
  | false =>
    obtain ⟨-, hwidth⟩ := LocalVar.cells_eq_width hparam (hcells v hv hparam)
    obtain ⟨hfirst, hlast⟩ := hlocals.bounds (mem_localsOf hv hparam) hwidth
    exact ⟨hfirst, hwidth, by rwa [if_neg (by simp [hparam])]⟩

/-- Two parameters share no number, nor do two locals; a parameter and a local
lie in different parts of the frame. -/
theorem pairwise_storage (hparams : Numbers (paramsOf vs) fr.count)
    (hlocals : Numbers (localsOf vs) cells)
    (hfits : ∀ v ∈ vs, v.Fits fr cells) :
    vs.Pairwise fun v w => (v.storage fr).Disjoint (w.storage fr) := by
  have hboth :=
    (List.pairwise_filter.mp hparams.apart).and
      (List.pairwise_filter.mp hlocals.apart)
  refine hboth.imp_of_mem fun {v w} hv hw h => ?_
  by_cases hkind : v.isParam = w.isParam
  · refine LocalVar.disjoint_storage hkind (hfits v hv) (hfits w hw) ?_
    cases hw : w.isParam with
    | true => exact h.1 (hkind.trans hw) hw
    | false => exact h.2 (by simp [hkind, hw]) (by simp [hw])
  · intro k hkv hkw
    have hkv := (hfits v hv).bounds hkv
    have hkw := (hfits w hw).bounds hkw
    cases hvParam : v.isParam with
    | true | false =>
      cases hwParam : w.isParam with
      | true | false =>
        simp only [hvParam, hwParam, Bool.false_eq_true, if_true, if_false,
          not_true_eq_false] at hkv hkw hkind
        all_goals omega

end

/-- For any use of a scope that adds only locals with cells, while their number
does not wrap around: parameters are numbered in order, the numbers of all
locals that were ever added, one after the other, are those up to the number of
cells, and no two have one in common. A machine with a frame for these
parameters and cells keeps all variables apart from each other, and finds them
and the elements of arrays. -/
theorem Scope.variables_never_overlap {ops : List ScopeOp} {s : Scope}
    {vs : List LocalVar} (h : Scope.performAll {} ops = .ok (s, vs))
    (hcells : ∀ v ∈ vs, v.isParam = false → 1 ≤ v.ty.cells.toInt)
    (hfits : cellsOf vs < 2 ^ 63) :
    (paramsOf vs).map (·.slot) = (List.range' 1 s.paramCount).map Int64.ofNat ∧
      s.cellCount.toInt = cellsOf vs ∧
      (localsOf vs).flatMap (·.numbers) = List.range' 1 (cellsOf vs) ∧
      (localsOf vs).Pairwise (fun v w => v.numbers.Disjoint w.numbers) ∧
      ∀ (m : Machine) (fr : Frame), m.frames.back? = some fr →
        fr.count = s.paramCount →
        fr.base + fr.count + cellsOf vs ≤ m.memory.size →
        m.memory.size < 2 ^ 63 → m.Keeps fr (cellsOf vs) vs := by
  obtain ⟨hcount, hslots⟩ := params_of_performAll h
  obtain ⟨htotal, hlocals⟩ :=
    locals_of_performAll h (show _ = Int64.ofNat 0 from rfl) hcells (by omega)
  rw [Nat.zero_add] at htotal hlocals
  have hcount : s.paramCount = (paramsOf vs).length := by
    rw [hcount, Nat.zero_add]
  have hslots :
      (paramsOf vs).map (·.slot) = (List.range' 1 s.paramCount).map
      Int64.ofNat := by rw [hslots, hcount]
  have hnumbers : Numbers (localsOf vs) (cellsOf vs) := hlocals
  refine ⟨hslots, by rw [htotal, Int64.toInt_ofNat_of_lt hfits], hlocals,
    hnumbers.apart, ?_⟩
  intro m fr hf hnargs hroom hsmall
  have hparams : Numbers (paramsOf vs) fr.count :=
    Numbers.of_slots (fun v hv => (List.mem_filter.mp hv).2) (by omega)
      (by rw [hslots, hnargs])
  have hvars : ∀ v ∈ vs, v.Fits fr (cellsOf vs) :=
    fun v hv => fits_of_numbers hparams hnumbers hcells hv
  have hfound : ∀ v ∈ vs,
      m.slotAddr v.operand = some (Int64.ofNat (v.addr fr)) := fun v hv =>
    (hvars v hv).slotAddr hf hroom hsmall
  refine ⟨hfound, fun v hv k hk => ?_,
    pairwise_storage hparams hnumbers hvars, ?_⟩
  · have hbounds := (hvars v hv).bounds hk
    split at hbounds <;> omega
  · intro v hv hlocal elem len hty hlen hexact
    exact LocalVar.indexed hlocal hty (hcells v hv hlocal) hexact
      (hfound v hv) hlen

/-- Two parameters, of which one is refused a second time; an array, which is
hidden by a `char` in an inner block; and a variable in a block after that. -/
def arrayAndBlocks : List ScopeOp :=
  [.addParam .int (text "n"), .addParam .long (text "k"),
    .addParam .int (text "n"), .enter,
    .addLocal (.array (.array .int 3) 2) (text "a"), .enter,
    .addLocal .char (text "a"), .leave, .enter,
    .enterLoop { breakTo := 1, continueTo := 0 },
    .addLocal (.pointer .int) (text "p"), .exitLoop, .leave]

/-- The frame begins at cell 4: the parameters are in cells 4 and 5, the array
in the next six, and the other locals in cells 12 and 13. -/
theorem Scope.variables_never_overlap_arrayAndBlocks :
    let a : LocalVar :=
      { ty := .array (.array .int 3) 2, name := text "a", isParam := false,
        slot := 1 }
    let vs : List LocalVar :=
      [{ ty := .int, name := text "n", isParam := true, slot := 1 },
        { ty := .long, name := text "k", isParam := true, slot := 2 }, a,
        { ty := .char, name := text "a", isParam := false, slot := 7 },
        { ty := .pointer .int, name := text "p", isParam := false, slot := 8 }]
    let s : Scope :=
      { params := (vs.take 2).reverse, blocks := [[a]], paramCount := 2,
        cellCount := 8 }
    let fr : Frame := { base := 4, count := 2, returnTo := 0 }
    let m : Machine :=
      { pc := 0, memory := Array.replicate 14 0, frames := #[fr] }
    Scope.performAll {} arrayAndBlocks = .ok (s, vs) ∧
      (∀ v ∈ vs, v.isParam = false → 1 ≤ v.ty.cells.toInt) ∧
      cellsOf vs < 2 ^ 63 ∧ m.Keeps fr 8 vs ∧ a.Indexed m fr (.array .int 3) 2 ∧
      vs.map (·.storage fr) = [[4], [5], [6, 7, 8, 9, 10, 11], [12], [13]] ∧
      a.element fr (.array .int 3) 1 = [9, 10, 11] := by
  intro a vs s fr m
  have h : Scope.performAll {} arrayAndBlocks = .ok (s, vs) := rfl
  have hcells : ∀ v ∈ vs, v.isParam = false → 1 ≤ v.ty.cells.toInt := by
    decide +kernel
  have hfits : cellsOf vs < 2 ^ 63 := by decide +kernel
  have htotal : cellsOf vs = 8 := by decide +kernel
  obtain ⟨-, -, -, -, hkeeps⟩ := variables_never_overlap h hcells hfits
  have hkeeps := hkeeps m fr rfl rfl (by decide +kernel) (by decide +kernel)
  rw [htotal] at hkeeps
  refine ⟨h, hcells, hfits, hkeeps, ?_, by decide +kernel, by decide +kernel⟩
  exact hkeeps.elements a (by simp [vs]) rfl _ _ rfl (by decide +kernel)
    (by decide +kernel)

end StackC
