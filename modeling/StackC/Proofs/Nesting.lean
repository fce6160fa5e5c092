import StackC.Proofs.Histories

/-!
Nesting. Blocks and loops are entered and left like brackets, each kind for
itself. What is declared inside a block is seen inside only, and what is seen
there is decided by the declarations and loops that are still open: after the
block all is as it was before, and only cells have been handed out.
-/

namespace StackC

inductive Bracket where
  | opening
  | closing
  deriving DecidableEq, Repr

/-- How many brackets are open after one more, if it does not close one that is
not open. -/
def Bracket.after : Option Bracket → Nat → Option Nat
  | none, n => some n
  | some .opening, n => some (n + 1)
  | some .closing, 0 => none
  | some .closing, n + 1 => some n

def ScopeOp.block? : ScopeOp → Option Bracket
  | .enter => some .opening
  | .leave => some .closing
  | _ => none

def ScopeOp.loop? : ScopeOp → Option Bracket
  | .enterLoop _ => some .opening
  | .exitLoop => some .closing
  | _ => none

/-- How many brackets of a kind are open after operations, if these close only
brackets of their own. -/
def openAfter (kind : ScopeOp → Option Bracket) (ops : List ScopeOp) :
    Option Nat :=
  ops.foldlM (fun n op => Bracket.after (kind op) n) 0

/-- Every block and every loop that is entered is left, and no other. -/
def WellBracketed (ops : List ScopeOp) : Prop :=
  openAfter ScopeOp.block? ops = some 0 ∧ openAfter ScopeOp.loop? ops = some 0

instance (ops : List ScopeOp) : Decidable (WellBracketed ops) :=
  inferInstanceAs (Decidable (_ ∧ _))

/-- `op` stands in `ops` behind `earlier`, and the bracket that it opens or
stands in is still open, with `k` more open inside it. -/
def StillOpen (kind : ScopeOp → Option Bracket) (ops earlier : List ScopeOp)
    (op : ScopeOp) (k : Nat) : Prop :=
  ∃ later, ops = earlier ++ op :: later ∧ openAfter kind later = some k

/-- A variable that was added by `ops` to a block that is still open, the `k`-th
from the innermost. -/
def Scope.Declared (s : Scope) (ops : List ScopeOp) (k : Nat) (v : LocalVar) :
    Prop :=
  ∃ earlier ty name,
    StillOpen ScopeOp.block? ops earlier (.addLocal ty name) k ∧
  ∃ mid us after, s.performAll earlier = .ok (mid, us) ∧
    mid.addLocal ty name = .ok (v, after)

/-- A loop that was entered by `ops` and has not been left, the `k`-th from the
innermost. -/
def OpenLoop (ops : List ScopeOp) (k : Nat) (l : Loop) : Prop :=
  ∃ earlier, StillOpen ScopeOp.loop? ops earlier (.enterLoop l) k

variable {v : LocalVar}

section

variable {kind : ScopeOp → Option Bracket} {ops : List ScopeOp} {op : ScopeOp}
  {k : Nat}

theorem openAfter_concat :
    openAfter kind (ops ++ [op]) =
      (openAfter kind ops).bind (Bracket.after (kind op)) := by
  rw [openAfter, List.foldlM_append]
  cases h : List.foldlM (fun n op => Bracket.after (kind op) n) 0 ops with
  | none => rw [openAfter, h]; rfl
  | some n =>
    rw [openAfter, h]
    simp

theorem of_openAfter_append {ops' : List ScopeOp}
    (h : openAfter kind (ops ++ ops') = some k) :
    ∃ n, openAfter kind ops = some n := by
  rw [openAfter, List.foldlM_append] at h
  obtain ⟨n, hn, -⟩ := Option.bind_eq_some_iff.mp h
  exact ⟨n, hn⟩

theorem stillOpen_concat {earlier : List ScopeOp} {last : ScopeOp} :
    StillOpen kind (ops ++ [last]) earlier op k ↔
      (k = 0 ∧ earlier = ops ∧ op = last) ∨
        ∃ j, StillOpen kind ops earlier op j ∧
          Bracket.after (kind last) j = some k := by
  constructor
  · rintro ⟨later, hops, hk⟩
    rcases List.eq_nil_or_concat later with rfl | ⟨later, x, rfl⟩
    · obtain ⟨rfl, hlast⟩ := List.append_inj' hops rfl
      cases hlast
      cases hk
      exact Or.inl ⟨rfl, rfl, rfl⟩
    · rw [List.concat_eq_append, openAfter_concat] at hk
      rw [List.concat_eq_append, ← List.cons_append, ← List.append_assoc]
        at hops
      obtain ⟨rfl, hlast⟩ := List.append_inj' hops rfl
      cases hlast
      obtain ⟨j, hj, hk⟩ := Option.bind_eq_some_iff.mp hk
      exact Or.inr ⟨j, ⟨later, rfl, hj⟩, hk⟩
  · rintro (⟨rfl, rfl, rfl⟩ | ⟨j, ⟨later, rfl, hj⟩, hk⟩)
    · exact ⟨[], rfl, rfl⟩
    · refine ⟨later ++ [last], by simp, ?_⟩
      rw [openAfter_concat, hj]
      exact hk

theorem openLoop_concat {l : Loop} :
    OpenLoop (ops ++ [op]) k l ↔
      (k = 0 ∧ op = .enterLoop l) ∨
        ∃ j, OpenLoop ops j l ∧ Bracket.after op.loop? j = some k := by
  simp only [OpenLoop, stillOpen_concat]
  constructor
  · rintro ⟨earlier, ⟨rfl, -, rfl⟩ | ⟨j, hj, hk⟩⟩
    · exact Or.inl ⟨rfl, rfl⟩
    · exact Or.inr ⟨j, ⟨earlier, hj⟩, hk⟩
  · rintro (⟨rfl, rfl⟩ | ⟨j, ⟨earlier, hj⟩, hk⟩)
    · exact ⟨ops, Or.inl ⟨rfl, rfl, rfl⟩⟩
    · exact ⟨earlier, Or.inr ⟨j, hj, hk⟩⟩

theorem declared_concat {s s' : Scope} {us : List LocalVar}
    (h : s.performAll ops = .ok (s', us)) :
    s.Declared (ops ++ [op]) k v ↔
      (k = 0 ∧
        ∃ ty name after, op = .addLocal ty name ∧
          s'.addLocal ty name = .ok (v, after)) ∨
      ∃ j, s.Declared ops j v ∧ Bracket.after op.block? j = some k := by
  simp only [Scope.Declared, stillOpen_concat]
  constructor
  · rintro ⟨earlier, ty, name, ⟨rfl, rfl, rfl⟩ | ⟨j, hj, hk⟩, mid, us', after,
      hmid, hadd⟩
    · cases h.symm.trans hmid
      exact Or.inl ⟨rfl, ty, name, after, rfl, hadd⟩
    · exact Or.inr ⟨j, ⟨earlier, ty, name, hj, mid, us', after, hmid, hadd⟩, hk⟩
  · rintro (⟨rfl, ty, name, after, rfl, hadd⟩
    | ⟨j, ⟨earlier, ty, name, hj, hadd⟩, hk⟩)
    · exact ⟨ops, ty, name, Or.inl ⟨rfl, rfl, rfl⟩, s', us, after, h, hadd⟩
    · exact ⟨earlier, ty, name, Or.inr ⟨j, hj, hk⟩, hadd⟩

end

theorem Block.find?_eq_none_iff {b : Block} {name : Name} :
    b.find? name = none ↔ ∀ v ∈ b, v.name ≠ name := by
  simp [Block.find?]

namespace Scope

variable {s : Scope} {b : Block} {bs : List Block} {ty : Ty} {name : Name}

/-- Inside a block a name can be declared if the block does not have it. -/
theorem addLocal_ok_iff (hb : s.blocks = b :: bs) :
    (∃ v s', s.addLocal ty name = .ok (v, s')) ↔ ∀ v ∈ b, v.name ≠ name := by
  rw [← Block.find?_eq_none_iff]
  have hinner : s.innermost = b := by rw [innermost, hb, List.headD_cons]
  simp only [addLocal, hinner]
  cases hfind : Block.find? b name with
  | none => simp
  | some v => simp

/-- The variable goes into the block. -/
theorem blocks_of_addLocal {s' : Scope} (hb : s.blocks = b :: bs)
    (h : s.addLocal ty name = .ok (v, s')) :
    v.name = name ∧ s'.blocks = (v :: b) :: bs ∧ s'.loops = s.loops ∧
      s'.params = s.params ∧ s'.paramCount = s.paramCount := by
  simp only [addLocal, put, hb] at h
  obtain ⟨-, h⟩ := ok_of_else h
  cases h
  exact ⟨rfl, rfl, rfl, rfl, rfl⟩

end Scope

/-- `s'` has come from `s` by entering a block and then `ops`: in front of the
blocks and loops of `s` it has those that are still open. -/
structure Layered (s : Scope) (ops : List ScopeOp) (s' : Scope)
    (bs : List Block) (ls : List Loop) : Prop where
  blocks : s'.blocks = bs ++ s.blocks
  loops : s'.loops = ls ++ s.loops
  params : s'.params = s.params
  paramCount : s'.paramCount = s.paramCount
  declared : ∀ k v, s.enter.Declared ops k v ↔ ∃ b, bs[k]? = some b ∧ v ∈ b
  openLoop : ∀ k l, OpenLoop ops k l ↔ ls[k]? = some l
  names : ∀ b ∈ bs, (b.map (·.name)).Nodup

theorem layered_nil (s : Scope) : Layered s [] s.enter [[]] [] where
  blocks := rfl
  loops := rfl
  params := rfl
  paramCount := rfl
  declared := by
    intro k v
    constructor
    · rintro ⟨earlier, ty, name, ⟨later, hops, -⟩, -⟩
      simp at hops
    · rintro ⟨b, hb, hv⟩
      obtain rfl : b = [] := List.mem_singleton.mp (List.mem_of_getElem? hb)
      cases hv
  openLoop := by
    intro k l
    constructor
    · rintro ⟨earlier, later, hops, -⟩
      simp at hops
    · intro hl
      cases hl
  names := by simp

theorem Bracket.after_closing {j k : Nat} :
    Bracket.after (some .closing) j = some k ↔ j = k + 1 := by
  cases j <;> simp [Bracket.after]

namespace Layered

variable {s s' : Scope} {ops : List ScopeOp} {us : List LocalVar}
  {bs : List Block} {ls : List Loop} {op : ScopeOp}

/-- An operation that is none on loops leaves them alone. -/
theorem openLoop_of_loop? (h : Layered s ops s' bs ls) (hloop : op.loop? = none)
    (k : Nat) (l : Loop) : OpenLoop (ops ++ [op]) k l ↔ ls[k]? = some l := by
  rw [openLoop_concat, hloop, ← h.openLoop]
  constructor
  · rintro (⟨-, rfl⟩ | ⟨j, hj, hk⟩)
    · cases hloop
    · cases hk
      exact hj
  · exact fun hl => Or.inr ⟨k, hl, rfl⟩

/-- An operation that is none on blocks and adds no variable leaves the blocks
alone. -/
theorem declared_of_block? (h : Layered s ops s' bs ls)
    (hops : s.enter.performAll ops = .ok (s', us)) (hblock : op.block? = none)
    (hadd : ∀ ty name v after, op = .addLocal ty name →
      s'.addLocal ty name ≠ .ok (v, after))
    (k : Nat) (v : LocalVar) :
    s.enter.Declared (ops ++ [op]) k v ↔ ∃ b, bs[k]? = some b ∧ v ∈ b := by
  rw [declared_concat hops, hblock, ← h.declared]
  constructor
  · rintro (⟨-, ty, name, after, hop, hv⟩ | ⟨j, hj, hk⟩)
    · exact absurd hv (hadd ty name v after hop)
    · cases hk
      exact hj
  · exact fun hv => Or.inr ⟨k, hv, rfl⟩

/-- A question, or a declaration that is refused. -/
theorem unchanged (h : Layered s ops s' bs ls)
    (hops : s.enter.performAll ops = .ok (s', us)) (hblock : op.block? = none)
    (hloop : op.loop? = none)
    (hadd : ∀ ty name v after, op = .addLocal ty name →
      s'.addLocal ty name ≠ .ok (v, after)) :
    Layered s (ops ++ [op]) s' bs ls :=
  { h with
    declared := h.declared_of_block? hops hblock hadd
    openLoop := h.openLoop_of_loop? hloop }

theorem enter (h : Layered s ops s' bs ls)
    (hops : s.enter.performAll ops = .ok (s', us)) :
    Layered s (ops ++ [.enter]) s'.enter ([] :: bs) ls where
  blocks := by simp [Scope.enter, h.blocks]
  loops := h.loops
  params := h.params
  paramCount := h.paramCount
  declared := by
    intro k v
    rw [declared_concat hops]
    cases k with
    | zero => simp [ScopeOp.block?, Bracket.after]
    | succ k => simp [ScopeOp.block?, Bracket.after, h.declared]
  openLoop := h.openLoop_of_loop? rfl
  names := by simpa using h.names

theorem leave {b : Block} (h : Layered s ops s' (b :: bs) ls)
    (hops : s.enter.performAll ops = .ok (s', us)) :
    Layered s (ops ++ [.leave]) s'.leave bs ls where
  blocks := by simp [Scope.leave, h.blocks]
  loops := h.loops
  params := h.params
  paramCount := h.paramCount
  declared := by
    intro k v
    rw [declared_concat hops]
    simp [ScopeOp.block?, Bracket.after_closing, h.declared]
  openLoop := h.openLoop_of_loop? rfl
  names b hb := h.names b (List.mem_cons_of_mem _ hb)

theorem enterLoop (h : Layered s ops s' bs ls)
    (hops : s.enter.performAll ops = .ok (s', us)) (l : Loop) :
    Layered s (ops ++ [.enterLoop l]) (s'.enterLoop l) bs (l :: ls) where
  blocks := h.blocks
  loops := by simp [Scope.enterLoop, h.loops]
  params := h.params
  paramCount := h.paramCount
  declared := h.declared_of_block? hops rfl (by simp)
  openLoop := by
    intro k l'
    rw [openLoop_concat]
    cases k with
    | zero => simp [ScopeOp.loop?, Bracket.after]
    | succ k => simp [ScopeOp.loop?, Bracket.after, h.openLoop]
  names := h.names

theorem exitLoop {l : Loop} (h : Layered s ops s' bs (l :: ls))
    (hops : s.enter.performAll ops = .ok (s', us)) :
    Layered s (ops ++ [.exitLoop]) s'.leaveLoop bs ls where
  blocks := h.blocks
  loops := by simp [Scope.leaveLoop, h.loops]
  params := h.params
  paramCount := h.paramCount
  declared := h.declared_of_block? hops rfl (by simp)
  openLoop := by
    intro k l'
    rw [openLoop_concat]
    simp [ScopeOp.loop?, Bracket.after_closing, h.openLoop]
  names := h.names

/-- A declaration that is not refused goes into the innermost block. -/
theorem addLocal {b : Block} (h : Layered s ops s' (b :: bs) ls)
    (hops : s.enter.performAll ops = .ok (s', us)) {ty : Ty} {name : Name}
    {after : Scope} (hadd : s'.addLocal ty name = .ok (v, after)) :
    Layered s (ops ++ [.addLocal ty name]) after ((v :: b) :: bs) ls := by
  have hfresh := (Scope.addLocal_ok_iff h.blocks).mp ⟨v, after, hadd⟩
  obtain ⟨hname, hblocks, hloops, hparams, hcount⟩ :=
    Scope.blocks_of_addLocal h.blocks hadd
  refine ⟨hblocks, hloops.trans h.loops, hparams.trans h.params,
    hcount.trans h.paramCount, fun k w => ?_, h.openLoop_of_loop? rfl,
    fun c hc => ?_⟩
  · rw [declared_concat hops]
    cases k with
    | zero => simp [ScopeOp.block?, Bracket.after, h.declared, hadd, eq_comm]
    | succ k => simp [ScopeOp.block?, Bracket.after, h.declared]
  · rcases List.mem_cons.mp hc with rfl | hc
    · rw [List.map_cons, List.nodup_cons, hname]
      refine ⟨fun hmem => ?_, h.names b List.mem_cons_self⟩
      obtain ⟨w, hw, hsame⟩ := List.mem_map.mp hmem
      exact hfresh w hw hsame
    · exact h.names c (List.mem_cons_of_mem _ hc)

end Layered

/-- As long as only blocks and loops of their own are left, no operation is a
misuse. -/
theorem exists_layered (s : Scope) {ops : List ScopeOp}
    (hparams : ∀ ty name, ScopeOp.addParam ty name ∉ ops) {n m : Nat}
    (hblocks : openAfter ScopeOp.block? ops = some n)
    (hloops : openAfter ScopeOp.loop? ops = some m) :
    ∃ s' us bs ls, s.enter.performAll ops = .ok (s', us) ∧ bs.length = n + 1 ∧
      ls.length = m ∧ Layered s ops s' bs ls := by
  -- What is open is counted from a place to the end, so the last operation is
  -- split off.
  induction ops using List.reverseRecOn generalizing n m with
  | nil =>
    cases hblocks
    cases hloops
    exact ⟨_, _, _, _, rfl, rfl, rfl, layered_nil s⟩
  | append_singleton ops op ih =>
    rw [openAfter_concat] at hblocks hloops
    obtain ⟨n', hblocks', hn⟩ := Option.bind_eq_some_iff.mp hblocks
    obtain ⟨m', hloops', hm⟩ := Option.bind_eq_some_iff.mp hloops
    obtain ⟨s', us, bs, ls, hrun, hbs, hls, h⟩ :=
      ih (fun ty name hmem => hparams ty name (List.mem_append_left _ hmem))
        hblocks' hloops'
    obtain ⟨b, bs, rfl⟩ := List.exists_cons_of_length_eq_add_one hbs
    rw [List.length_cons, Nat.add_right_cancel_iff] at hbs
    cases op with
    | enter =>
      cases hn
      cases hm
      exact ⟨_, _, _, _, Scope.performAll_concat hrun rfl, by simp [hbs], hls,
        h.enter hrun⟩
    | leave =>
      obtain rfl := Bracket.after_closing.mp hn
      cases hm
      have hleave : s'.perform .leave = .ok (s'.leave, none) := by
        simp [Scope.perform, Scope.leaveBlock, h.blocks, Except.map]
      exact ⟨_, _, _, _, Scope.performAll_concat hrun hleave, hbs, hls,
        h.leave hrun⟩
    | enterLoop l =>
      cases hn
      cases hm
      exact ⟨_, _, _, _,
        Scope.performAll_concat hrun rfl, by simp [hbs], by
          simp [hls], h.enterLoop hrun l⟩
    | exitLoop =>
      obtain rfl := Bracket.after_closing.mp hm
      cases hn
      obtain ⟨l, ls, rfl⟩ := List.exists_cons_of_length_eq_add_one hls
      have hexit : s'.perform .exitLoop = .ok (s'.leaveLoop, none) := by
        simp [Scope.perform, Scope.exitLoop, h.loops, Except.map]
      exact ⟨_, _, _, _,
        Scope.performAll_concat hrun hexit, by simp [hbs], by
          simpa using hls, h.exitLoop hrun⟩
    | addParam ty name => exact absurd (by simp) (hparams ty name)
    | addLocal ty name =>
      -- The innermost block is one of those in front, never a block of `s` or
      -- the parameters.
      cases hn
      cases hm
      cases hadd : s'.addLocal ty name with
      | ok added =>
        obtain ⟨v, after⟩ := added
        have hop : s'.perform (.addLocal ty name) = .ok (after, some v) := by
          rw [Scope.perform, hadd, Scope.afterAdding]
        exact ⟨_, _, _, _, Scope.performAll_concat hrun hop, by simp [hbs], hls,
          h.addLocal hrun hadd⟩
      | error e =>
        have hop : s'.perform (.addLocal ty name) = .ok (s', none) := by
          rw [Scope.perform, hadd, Scope.afterAdding]
        refine ⟨_, _, _, _, Scope.performAll_concat hrun hop, by simp [hbs],
          hls, h.unchanged hrun rfl rfl ?_⟩
        rintro _ _ v after ⟨⟩ hok
        cases hadd.symm.trans hok
    | resolve | breakTarget | continueTarget =>
      cases hn
      cases hm
      exact ⟨_, _, _, _, Scope.performAll_concat hrun rfl, by simp [hbs], hls,
        h.unchanged hrun rfl rfl (by simp)⟩

namespace Scope

/-- The open blocks from the innermost outwards, with the parameters as the
last. -/
def opened (s : Scope) : List Block :=
  s.blocks ++ [s.params]

theorem find?_eq_opened (s : Scope) (name : Name) :
    s.find? name = s.opened.findSome? fun b => b.find? name := by
  rw [opened, List.findSome?_append, find?]
  cases s.blocks.findSome? fun b => Block.find? b name with
  | none => simp
  | some v => rfl

theorem resolve_ok_iff {s : Scope} {name : Name} :
    s.resolve name = .ok v ↔ s.find? name = some v := by
  rw [resolve]
  cases s.find? name <;> simp

/-- What the scope `s'` shows inside a block of `s`, after `ops` in it. A name
that is declared there means the variable of the innermost block that has it,
other names mean what they mean outside, and in every scope a name means the
variable of the first of the open blocks that has it. A name can be declared if
the innermost block does not have it. The targets are those of the innermost
loop that was entered there and not left, or else those outside. -/
structure Inner (s : Scope) (ops : List ScopeOp) (s' : Scope) : Prop where
  depth : ∀ n, openAfter ScopeOp.block? ops = some n →
    s'.depth = s.depth + 1 + n
  declared : ∀ k v, s.enter.Declared ops k v →
    (∀ j w, j < k → s.enter.Declared ops j w → w.name ≠ v.name) →
    s'.resolve v.name = .ok v
  outer : ∀ name, (∀ k v, s.enter.Declared ops k v → v.name ≠ name) →
    s'.resolve name = s.resolve name
  innermost : ∀ name v, s'.resolve name = .ok v ↔
    ∃ inner b outer, s'.opened = inner ++ b :: outer ∧ b.find? name = some v ∧
    ∀ c ∈ inner, c.find? name = none
  fresh : ∀ ty name, (∃ v after, s'.addLocal ty name = .ok (v, after)) ↔
    ∀ v, s.enter.Declared ops 0 v → v.name ≠ name
  loop : ∀ l, OpenLoop ops 0 l → s'.breakTarget = .ok l.breakTo ∧
    s'.continueTarget = .ok l.continueTo
  noLoop : (∀ l, ¬ OpenLoop ops 0 l) →
    s'.breakTarget = s.breakTarget ∧ s'.continueTarget = s.continueTarget

end Scope

/-- In a block with different names, each is found. -/
theorem Block.find?_of_mem {b : Block} (h : (b.map (·.name)).Nodup)
    (hv : v ∈ b) : b.find? v.name = some v := by
  induction b with
  | nil => cases hv
  | cons w b ih =>
    rw [List.map_cons, List.nodup_cons] at h
    rcases List.mem_cons.mp hv with rfl | hv
    · exact List.find?_cons_of_pos (beq_self_eq_true _)
    · have hne : w.name ≠ v.name :=
        fun hsame => h.1 (hsame ▸ List.mem_map_of_mem hv)
      rw [Block.find?, List.find?_cons_of_neg (by simpa using hne)]
      exact ih h.2 hv

namespace Layered

variable {s s' : Scope} {ops : List ScopeOp} {bs : List Block} {ls : List Loop}

theorem opened (h : Layered s ops s' bs ls) : s'.opened = bs ++ s.opened := by
  rw [Scope.opened, Scope.opened, h.blocks, h.params, List.append_assoc]

theorem resolve_declared (h : Layered s ops s' bs ls) {k : Nat}
    (hv : s.enter.Declared ops k v)
    (hfirst : ∀ j w, j < k → s.enter.Declared ops j w → w.name ≠ v.name) :
    s'.resolve v.name = .ok v := by
  obtain ⟨b, hb, hmem⟩ := (h.declared k v).mp hv
  obtain ⟨hk, rfl⟩ := List.getElem?_eq_some_iff.mp hb
  rw [Scope.resolve_ok_iff, Scope.find?_eq_opened, h.opened,
    List.findSome?_eq_some_iff]
  refine ⟨bs.take k, bs[k], bs.drop (k + 1) ++ s.opened, ?_,
    Block.find?_of_mem (h.names _ (List.getElem_mem hk)) hmem, fun c hc => ?_⟩
  · rw [← List.cons_append, ← List.append_assoc, ← List.drop_eq_getElem_cons hk,
      List.take_append_drop]
  · obtain ⟨j, hj, rfl⟩ := List.mem_take_iff_getElem.mp hc
    refine Block.find?_eq_none_iff.mpr fun w hw => hfirst j w (by omega) ?_
    exact (h.declared j w).mpr ⟨_, List.getElem?_eq_getElem (by omega), hw⟩

theorem resolve_outer (h : Layered s ops s' bs ls) {name : Name}
    (hname : ∀ k v, s.enter.Declared ops k v → v.name ≠ name) :
    s'.resolve name = s.resolve name := by
  have hnone : bs.findSome? (fun b => Block.find? b name) = none := by
    refine List.findSome?_eq_none_iff.mpr fun b hb =>
      Block.find?_eq_none_iff.mpr fun v hv => ?_
    obtain ⟨k, hk⟩ := List.mem_iff_getElem?.mp hb
    exact hname k v ((h.declared k v).mpr ⟨b, hk, hv⟩)
  rw [Scope.resolve, Scope.resolve, Scope.find?_eq_opened, h.opened,
    List.findSome?_append, hnone, Option.none_or, ← Scope.find?_eq_opened]

theorem inner (h : Layered s ops s' bs ls) {n : Nat}
    (hblocks : openAfter ScopeOp.block? ops = some n)
    (hbs : bs.length = n + 1) : s.Inner ops s' where
  depth := by
    intro n' hn'
    cases hblocks.symm.trans hn'
    rw [Scope.depth, Scope.depth, h.blocks, List.length_append, hbs]
    omega
  declared _ _ := h.resolve_declared
  outer _ := h.resolve_outer
  innermost := by
    intro name v
    rw [Scope.resolve_ok_iff, Scope.find?_eq_opened, List.findSome?_eq_some_iff]
  fresh := by
    intro ty name
    obtain ⟨b, bs, rfl⟩ := List.exists_cons_of_length_eq_add_one hbs
    rw [Scope.addLocal_ok_iff h.blocks]
    simp [h.declared]
  loop := by
    intro l hl
    have hfirst := (h.openLoop 0 l).mp hl
    cases ls with
    | nil => cases hfirst
    | cons l' ls =>
      cases hfirst
      simp [Scope.breakTarget, Scope.continueTarget, h.loops]
  noLoop := by
    intro hnone
    cases ls with
    | nil => simp [Scope.breakTarget, Scope.continueTarget, h.loops]
    | cons l ls => exact absurd ((h.openLoop 0 l).mpr rfl) (hnone l)

end Layered

/-- The cells that are handed out are those of the locals that are added. -/
theorem Scope.cellCount_of_performAll {s s' : Scope} {ops : List ScopeOp}
    {vs : List LocalVar} (h : s.performAll ops = .ok (s', vs))
    (hparams : ∀ ty name, ScopeOp.addParam ty name ∉ ops) :
    s'.cellCount =
      Int64.ofInt (s.cellCount.toInt + (vs.map (·.ty.cells.toInt)).sum) := by
  induction ops generalizing s vs with
  | nil =>
    cases h
    simp
  | cons op ops ih =>
    obtain ⟨mid, v, us, hop, hops, rfl⟩ := of_performAll_cons h
    have hrest :=
      ih hops fun ty name hmem => hparams ty name (List.mem_cons_of_mem _ hmem)
    rcases perform_numbers hop with
        ⟨rfl, -, hmid⟩ | ⟨w, rfl, rfl, -⟩ | ⟨w, rfl, -, -, -, -, hmid⟩
    · rw [hrest, hmid]
      rfl
    · exact absurd List.mem_cons_self (hparams w.ty w.name)
    · rw [hrest, Int64.ofInt_add, Int64.ofInt_toInt, hmid, Option.toList_some,
        List.singleton_append, List.map_cons, List.sum_cons, Int64.ofInt_add,
        Int64.ofInt_toInt, Int64.ofInt_add, Int64.ofInt_toInt, Int64.add_assoc]

/-- For every scope and every well bracketed use without parameters: entering a
block, the use and leaving the block is no misuse, and leaves all as it was but
the number of cells. That has grown by the cells of the locals that were added,
and is not smaller if none of them has a negative number and the sum does not
wrap around. On the way there, after any part of the use, the scope shows what
is declared and entered inside the block and still open. -/
theorem Scope.blocks_restore_the_scope (s : Scope) {ops : List ScopeOp}
    (hops : WellBracketed ops)
    (hparams : ∀ ty name, ScopeOp.addParam ty name ∉ ops) :
    (∃ s' vs, s.performAll (.enter :: ops ++ [.leave]) = .ok (s', vs) ∧
      s' = { s with cellCount := s'.cellCount } ∧ s'.depth = s.depth ∧
      (∀ name, s'.resolve name = s.resolve name) ∧
      s'.breakTarget = s.breakTarget ∧ s'.continueTarget = s.continueTarget ∧
      s'.cellCount =
        Int64.ofInt (s.cellCount.toInt + (vs.map (·.ty.cells.toInt)).sum) ∧
      ((∀ v ∈ vs, 0 ≤ v.ty.cells.toInt) →
        s.cellCount.toInt + (vs.map (·.ty.cells.toInt)).sum < 2 ^ 63 →
        s.cellCount.toInt ≤ s'.cellCount.toInt)) ∧
    ∀ pre, pre <+: ops →
      ∃ s' vs, s.performAll (.enter :: pre) = .ok (s', vs) ∧
        s.Inner pre s' := by
  constructor
  · obtain ⟨s', vs, bs, ls, hrun, hbs, hls, h⟩ :=
      exists_layered s hparams hops.1 hops.2
    obtain ⟨b, rfl⟩ := List.length_eq_one_iff.mp hbs
    obtain rfl := List.length_eq_zero_iff.mp hls
    have hstart : s.enter.cellCount = s.cellCount := rfl
    have hcount := cellCount_of_performAll hrun hparams
    rw [hstart] at hcount
    have hleave : s'.perform .leave = .ok (s'.leave, none) := by
      simp [perform, leaveBlock, h.blocks, Except.map]
    have henter : s.perform .enter = .ok (s.enter, none) := rfl
    have hwhole := performAll_cons henter (performAll_concat hrun hleave)
    rw [Option.toList_none, List.nil_append, List.append_nil] at hwhole
    have hsame : s'.leave = { s with cellCount := s'.cellCount } := by
      obtain ⟨params, blocks, paramCount, cellCount, loops⟩ := s'
      obtain ⟨rfl, rfl, rfl, rfl, -⟩ := h
      rfl
    refine ⟨s'.leave, vs, hwhole, hsame, ?_⟩
    rw [hsame]
    refine ⟨rfl, fun _ => rfl, rfl, rfl, hcount, fun hcells hfits => ?_⟩
    have hsum : 0 ≤ (vs.map (·.ty.cells.toInt)).sum :=
      List.sum_nonneg (by simpa using hcells)
    have hlow : -2 ^ 63 ≤ s.cellCount.toInt := s.cellCount.le_toInt
    have hexact :
        s'.cellCount.toInt =
        s.cellCount.toInt + (vs.map (·.ty.cells.toInt)).sum := by
      rw [hcount]
      exact Int64.toInt_ofInt_of_le (by omega) hfits
    show s.cellCount.toInt ≤ s'.cellCount.toInt
    omega
  · rintro pre ⟨rest, rfl⟩
    obtain ⟨n, hblocks⟩ := of_openAfter_append hops.1
    obtain ⟨m, hloops⟩ := of_openAfter_append hops.2
    obtain ⟨s', vs, bs, ls, hrun, hbs, -, h⟩ :=
      exists_layered s (fun ty name hmem =>
        hparams ty name (List.mem_append_left _ hmem)) hblocks hloops
    exact ⟨s', _, performAll_cons rfl hrun, h.inner hblocks hbs⟩

/-- A name is declared, hidden in an inner block, and there and outside refused
a second time; a loop begins in the inner block and ends behind it. -/
def hiddenAndRefused : List ScopeOp :=
  [.addLocal .int (text "x"), .enter, .addLocal .char (text "x"),
    .addLocal .long (text "x"), .enterLoop { breakTo := 5, continueTo := 4 },
    .leave, .addLocal .long (text "x"), .exitLoop]

/-- The block is entered where `x` is a parameter and a loop is open. Two cells
are handed out; after five operations `x` is the `char`, and `break` leaves the
inner loop. -/
theorem Scope.blocks_restore_the_scope_hiddenAndRefused :
    let x : LocalVar :=
      { ty := .long, name := text "x", isParam := true, slot := 1 }
    let s : Scope :=
      { params := [x], paramCount := 1, cellCount := 3,
        loops := [{ breakTo := 1, continueTo := 0 }] }
    WellBracketed hiddenAndRefused ∧
      (∀ ty name, ScopeOp.addParam ty name ∉ hiddenAndRefused) ∧
      (∃ s' vs, s.performAll (.enter :: hiddenAndRefused ++ [.leave]) =
        .ok (s', vs) ∧ s'.depth = 1 ∧ s'.resolve (text "x") = .ok x ∧
        s'.breakTarget = .ok 1 ∧ s'.continueTarget = .ok 0 ∧
        s.cellCount.toInt ≤ s'.cellCount.toInt ∧ s'.cellCount = 5) ∧ ∃ s' vs,
        s.performAll (.enter :: hiddenAndRefused.take 5) = .ok (s', vs) ∧
        s.Inner (hiddenAndRefused.take 5) s' ∧
        s'.resolve (text "x") =
        .ok { ty := .char, name := text "x", isParam := false, slot := 5 } ∧
        s'.breakTarget = .ok 5 := by
  intro x s
  have hops : WellBracketed hiddenAndRefused := by decide
  have hparams : ∀ ty name, ScopeOp.addParam ty name ∉ hiddenAndRefused := by
    simp [hiddenAndRefused]
  obtain ⟨⟨s', vs, hrun, -, hdepth, hresolve, hbreak, hcontinue, hcount,
      hgrows⟩, hinside⟩ := blocks_restore_the_scope s hops hparams
  have hwhole :
      s.performAll (.enter :: hiddenAndRefused ++ [.leave]) =
      .ok ({ s with cellCount := 5 },
      [{ ty := .int, name := text "x", isParam := false, slot := 4 },
      { ty := .char, name := text "x", isParam := false, slot := 5 }]) := rfl
  cases hrun.symm.trans hwhole
  refine ⟨hops, hparams,
    ⟨_, _, hrun, hdepth, hresolve (text "x"), hbreak, hcontinue, ?_, rfl⟩, ?_⟩
  · exact hgrows (by decide +kernel) (by decide +kernel)
  · obtain ⟨mid, us, hmid, hinner⟩ :=
      hinside (hiddenAndRefused.take 5) (List.take_prefix 5 _)
    refine ⟨mid, us, hmid, hinner, ?_, ?_⟩
    · refine hinner.declared 0
        { ty := .char, name := text "x", isParam := false, slot := 5 }
        ?_ (by simp)
      exact ⟨hiddenAndRefused.take 2, .char, text "x", ⟨_, rfl, rfl⟩, _, _,
        _, rfl, rfl⟩
    · exact (hinner.loop { breakTo := 5, continueTo := 4 }
        ⟨hiddenAndRefused.take 4, _, rfl, rfl⟩).1

/-- A declaration checks no type: an array of negative length gives cells
back. -/
theorem Scope.negative_lengths_take_cells_back :
    let a : LocalVar :=
      { ty := .array .int (-3), name := text "a", isParam := false, slot := 1 }
    Scope.performAll {} [.enter, .addLocal (.array .int (-3)) (text "a"),
      .leave] = .ok ({ cellCount := -3 }, [a]) ∧
      ¬ ({} : Scope).cellCount.toInt ≤
      ({ cellCount := -3 } : Scope).cellCount.toInt :=
  ⟨rfl, by decide⟩

end StackC
