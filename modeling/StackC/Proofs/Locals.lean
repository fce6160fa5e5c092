import StackC.Proofs.Placed

/-!
The numbers of variables. While the numbers of cells do not wrap around, every
visible parameter has one of the numbers up to the number of parameters, and
every visible local has its cells among those that have been handed out. A
statement hands out exactly the cells of its declarations.
-/

namespace StackC

variable {ty : Ty} {name : Name} {v : LocalVar}

theorem Ty.cells_of_storable (h : checkStorable name ty = .ok ()) :
    ty.cells = Int64.ofNat ty.cellTotal ∧ 1 ≤ ty.cellTotal := by
  induction ty with
  | base b unsigned =>
    cases b with
    | void => cases h
    | char | short | int | long => exact ⟨rfl, Nat.le_refl 1⟩
  | pointer elem => exact ⟨rfl, Nat.le_refl 1⟩
  | array elem len ih =>
    simp only [checkStorable] at h
    obtain ⟨hlen, h⟩ := ok_of_else h
    obtain ⟨hcells, hpos⟩ := ih h
    have hnat : Int64.ofNat len.toInt.toNat = len := by
      rw [← Int64.toInt_inj,
        Int64.toInt_ofNat_of_lt (by have := len.toInt_lt; omega)]
      omega
    refine ⟨?_, Nat.mul_pos hpos (by omega)⟩
    rw [cells, cellTotal, hcells, Int64.ofNat_mul, hnat]

namespace Scope

variable {s s' : Scope}

/-- The visible variables, those that hide others first. -/
def visible (s : Scope) : List LocalVar :=
  s.blocks.flatten ++ s.params

theorem find?_eq_visible (s : Scope) (name : Name) :
    s.find? name = s.visible.find? (·.name == name) := by
  have hblocks : s.blocks.flatten.find? (·.name == name) =
      s.blocks.findSome? fun b => Block.find? b name := List.find?_flatten
  rw [visible, List.find?_append, hblocks, find?]
  cases s.blocks.findSome? fun b => Block.find? b name <;> rfl

theorem mem_visible_of_find? (h : s.find? name = some v) : v ∈ s.visible := by
  rw [find?_eq_visible] at h
  exact List.mem_of_find?_eq_some h

theorem of_addLocal (h : s.addLocal ty name = .ok (v, s')) :
    v = { ty, name, isParam := false, slot := s.cellCount + 1 } ∧
      s'.visible = v :: s.visible ∧ s'.cellCount = s.cellCount + ty.cells := by
  simp only [addLocal] at h
  obtain ⟨-, h⟩ := ok_of_else h
  cases h
  refine ⟨rfl, ?_, rfl⟩
  cases hblocks : s.blocks with
  | nil => simp [visible, put, hblocks]
  | cons b bs => simp [visible, put, hblocks]

end Scope

/-- A variable has a number among those of the given number of parameters or
local cells. -/
def LocalVar.Within (v : LocalVar) (params cells : Nat) : Prop :=
  ∃ k, 1 ≤ k ∧ k ≤ (if v.isParam then params else cells) ∧
    v.slot = Int64.ofNat k

theorem LocalVar.Within.mono {params cells cells' : Nat}
    (h : v.Within params cells) (hle : cells ≤ cells') :
    v.Within params cells' := by
  obtain ⟨k, hpos, hk, hslot⟩ := h
  refine ⟨k, hpos, ?_, hslot⟩
  split at hk
  next hparam => rwa [if_pos hparam]
  next hparam =>
    rw [if_neg hparam]
    omega

/-- In a scope `cells` local cells have been handed out, and all visible
variables are among them and the parameters. -/
structure Scope.Numbered (s : Scope) (params cells : Nat) : Prop where
  count : s.cellCount = Int64.ofNat cells
  within : ∀ v ∈ s.visible, v.Within params cells

def Part.cells : Part → Nat
  | .one s => s.cells
  | .many _ ss => stmtsCells ss

namespace Scope

variable {s s' inner : Scope} {params cells cells' : Nat}

theorem Numbered.resume (h : s.Numbered params cells)
    (hinner : inner.Numbered params cells') (hle : cells ≤ cells') :
    (s.resume inner).Numbered params cells' where
  count := hinner.count
  within v hv := (h.within v hv).mono hle

theorem Numbered.addLocal (h : s.Numbered params cells)
    (hty : Ty.checkStorable name ty = .ok ())
    (hadd : s.addLocal ty name = .ok (v, s')) :
    s'.Numbered params (cells + ty.cellTotal) := by
  obtain ⟨hv, hvisible, hcount⟩ := of_addLocal hadd
  obtain ⟨hcells, hpos⟩ := Ty.cells_of_storable hty
  refine ⟨by rw [hcount, h.count, hcells, Int64.ofNat_add], fun w hw => ?_⟩
  rw [hvisible] at hw
  rcases List.mem_cons.mp hw with rfl | hw
  · have hslot : w.slot = Int64.ofNat (cells + 1) := by
      rw [hv, Int64.ofNat_add, ← h.count]
      rfl
    exact ⟨cells + 1, by omega, by simp [hv]; omega, hslot⟩
  · exact (h.within w hw).mono (by omega)

end Scope

/-- Laying out a part hands out the cells of its declarations. -/
theorem Laid.numbered {L : Link} {ret : Ty} {part : Part} {s s' : Scope}
    {start stop : Nat} {ends : Bool} (h : Laid L ret part s start s' stop ends)
    {params cells : Nat} (hs : s.Numbered params cells) :
    s'.Numbered params (cells + part.cells) := by
  induction h generalizing cells with
  | block _ ih =>
    exact hs.resume (ih ⟨hs.count, hs.within⟩) (Nat.le_add_right _ _)
  | decl hty hadd | init hty hadd => exact hs.addLocal hty hadd
  | assignVar | assignCell | retNone | retSome | expr | breakLoop | continueLoop
  | printf | nil => exact hs
  | ifThen _ _ _ _ ih =>
    exact hs.resume (ih ⟨hs.count, hs.within⟩) (Nat.le_add_right _ _)
  | ifElse _ _ _ _ _ _ _ ihBody ihElse =>
    have hbody :=
      hs.resume (ihBody ⟨hs.count, hs.within⟩) (Nat.le_add_right _ _)
    have helse := ihElse ⟨hbody.count, hbody.within⟩
    rw [Nat.add_assoc] at helse
    exact hs.resume helse (Nat.le_add_right _ _)
  | whileDo _ _ _ _ _ ih =>
    exact hs.resume (ih ⟨hs.count, hs.within⟩) (Nat.le_add_right _ _)
  | cons _ _ ihFirst ihRest =>
    have hrest := ihRest (ihFirst hs)
    rwa [Nat.add_assoc] at hrest

theorem within_of_mem_paramVars {first : Nat} {ps : List Param}
    {params cells : Nat} (h : v ∈ paramVars first ps) (hfirst : 1 ≤ first)
    (hle : first + ps.length ≤ params + 1) : v.Within params cells := by
  induction ps generalizing first with
  | nil => cases h
  | cons p ps ih =>
    rw [List.length_cons] at hle
    rcases List.mem_cons.mp h with rfl | h
    · exact ⟨first, hfirst, by simp; omega, rfl⟩
    · exact ih h (by omega) (by omega)

/-- Before the body of a function only its parameters are visible, and no local
cell has been handed out. -/
theorem numbered_paramScope {ps : List Param} {s : Scope}
    (h : paramScope {} ps = .ok s) : s.Numbered ps.length 0 := by
  rw [paramScope_eq h]
  refine ⟨rfl, fun v hv => ?_⟩
  have hv : v ∈ paramVars 1 ps := by simpa [Scope.visible] using hv
  exact within_of_mem_paramVars hv (Nat.le_refl 1) (by omega)

end StackC
