import StackC.Proofs.Acceptance
import StackC.Proofs.Relocation

/-!
The order of functions. A function has the same code wherever it stands: an
address inside it is as far from its start, and calls go to the same functions.
So a program whose functions are listed in another order has the same code at
other addresses, as long as the data of its strings stay in the same order.
-/

namespace StackC

/-- Addresses at the same distance from `base` and `base'`. -/
def Slid (base base' a a' : Nat) : Prop :=
  a + base' = a' + base

structure Link.SameNames (L L' : Link) : Prop where
  signatures : ∀ name,
    L'.signatures.find? (·.name == name) = L.signatures.find? (·.name == name)
  string : L'.string = L.string

/-- Instructions of one function when it starts at `base` and at `base'`. -/
inductive Instr.Slides (L L' : Link) (base base' : Nat) : Instr → Instr → Prop
  | same {i : Instr} (h : i.op.isJump = false) : Slides L L' base base' i i
  | branch {op : Opcode} {c c' : Cell} (hop : op.isBranch = true)
    (h : c + Int64.ofNat base' = c' + Int64.ofNat base) :
    Slides L L' base base' { op, operand := c } { op, operand := c' }
  | call {f : FuncDef} (hf : f ∈ L.signatures) :
    Slides L L' base base' { op := .call, operand := L.entry f.name }
      { op := .call, operand := L'.entry f.name }

/-- Codes of one function when it starts at `base` and at `base'`. -/
def CodeSlides (L L' : Link) (base base' : Nat) :
    List Instr → List Instr → Prop :=
  List.Forall₂ (Instr.Slides L L' base base')

/-- The instructions from `start` up to `stop` are the same at both places. -/
def Link.Slides (L L' : Link) (base base' start stop : Nat) : Prop :=
  ∀ a a', start ≤ a → a < stop → Slid base base' a a' →
    ∃ i i', L.code[a]? = some i ∧ L'.code[a']? = some i' ∧
      i.Slides L L' base base' i'

variable {stop : Nat} {f : Function}

section

variable {L L' : Link} {base base' : Nat}

/-! ### Instructions -/

theorem Slid.add {a a' : Nat} (h : Slid base base' a a') (k : Nat) :
    Slid base base' (a + k) (a' + k) := by
  simp only [Slid] at h ⊢
  omega

theorem Slid.ofNat {a a' : Nat} (h : Slid base base' a a') :
    Int64.ofNat a + Int64.ofNat base' = Int64.ofNat a' + Int64.ofNat base := by
  rw [← Int64.ofNat_add, ← Int64.ofNat_add, h]

theorem Slid.branch {op : Opcode} {a a' : Nat} (h : Slid base base' a a')
    (hop : op.isBranch = true) :
    Instr.Slides L L' base base' { op, operand := Int64.ofNat a }
      { op, operand := Int64.ofNat a' } :=
  .branch hop h.ofNat

theorem codeSlides_same {is : List Instr} (h : ∀ i ∈ is, i.op.isJump = false) :
    CodeSlides L L' base base' is is :=
  List.forall₂_same.mpr fun i hi => .same (h i hi)

theorem codeSlides_one {i i' : Instr} (h : i.Slides L L' base base' i') :
    CodeSlides L L' base base' [i] [i'] :=
  .cons h .nil

variable {is' : List Instr} {target target' : Nat} {ty : Ty}

theorem CodeSlides.append {is js js' : List Instr}
    (h : CodeSlides L L' base base' is is')
    (hrest : CodeSlides L L' base base' js js') :
    CodeSlides L L' base base' (is ++ js) (is' ++ js') :=
  List.rel_append h hrest

namespace Link

theorem slides_self (addr : Nat) : L.Slides L' base base' addr addr := by
  intro a a' hlow hhigh
  omega

theorem Slides.append {start mid : Nat}
    (hfirst : L.Slides L' base base' start mid)
    (hrest : L.Slides L' base base' mid stop) :
    L.Slides L' base base' start stop := by
  intro a a' hlow hhigh hslid
  by_cases h : a < mid
  · exact hfirst a a' hlow h hslid
  · exact hrest a a' (Nat.le_of_not_lt h) hhigh hslid

theorem slides_of_holds {start start' : Nat} {is : List Instr}
    (hcode : L.Holds start is) (hcode' : L'.Holds start' is')
    (hslides : CodeSlides L L' base base' is is')
    (hstart : Slid base base' start start') :
    Slid base base' (start + is.length) (start' + is'.length) ∧
      L.Slides L' base base' start (start + is.length) := by
  have hlength : is.length = is'.length := List.Forall₂.length_eq hslides
  constructor
  · rw [← hlength]
    exact hstart.add _
  · intro a a' hlow hhigh hslid
    have hk : a - start < is.length := by omega
    have hk' : a - start < is'.length := hlength ▸ hk
    refine ⟨is.get ⟨a - start, hk⟩, is'.get ⟨a - start, hk'⟩, ?_, ?_,
      List.Forall₂.get hslides hk hk'⟩
    · have hat := hcode (a - start) _ (List.getElem?_eq_getElem hk)
      rwa [Nat.add_sub_cancel' hlow] at hat
    · have hat := hcode' (a - start) _ (List.getElem?_eq_getElem hk')
      simp only [Slid] at hstart hslid
      rwa [show start' + (a - start) = a' by omega] at hat

theorem slides_jump {addr addr' : Nat}
    (hcode : L.Holds addr [{ op := .jump, operand := Int64.ofNat target }])
    (hcode' : L'.Holds addr' [{ op := .jump, operand := Int64.ofNat target' }])
    (haddr : Slid base base' addr addr')
    (htarget : Slid base base' target target') :
    L.Slides L' base base' addr (addr + 1) :=
  (slides_of_holds hcode hcode' (codeSlides_one (htarget.branch rfl)) haddr).2

end Link

/-! ### Expressions -/

/-- Code that may stand anywhere has no addresses in it. -/
theorem isJump_of_shaped {i : Instr} (h : i.Shaped L 0 0 (fun _ => False) 0) :
    i.op.isJump = false := by
  cases hop : i.op with
  | jump | jumpZero =>
    rw [Instr.Shaped, hop] at h
    obtain ⟨_, hinside, _⟩ := h
    exact hinside.elim
  | call =>
    rw [Instr.Shaped, hop] at h
    obtain ⟨_, _, _, _, hbefore, _⟩ := h
    cases hbefore
  | _ => rfl

theorem codeSlides_convertCode (target source : Ty) :
    CodeSlides L L' base base' (convertCode target source)
      (convertCode target source) :=
  codeSlides_same fun _ hi =>
    isJump_of_shaped (L := L) (shaped_convertCode hi 0)

/-- The code of an operation between its operands. -/
theorem codeSlides_binary {op : Operator} {l r l' r' : Term}
    (hlTy : l'.ty = l.ty) (hrTy : r'.ty = r.ty)
    (hl : CodeSlides L L' base base' (l.code L) (l'.code L'))
    (hr : CodeSlides L L' base base' (r.code L) (r'.code L')) :
    CodeSlides L L' base base' ((Term.binary op l r ty).code L)
      ((Term.binary op l' r' ty).code L') := by
  simp only [Term.code, hlTy, hrTy]
  split
  next hints =>
    obtain ⟨hlInt, hrInt⟩ := Bool.and_eq_true_iff.mp hints
    have hcommon := Ty.isInteger_common hlInt hrInt
    refine (hl.append (codeSlides_convertCode _ _)).append
      ((hr.append (codeSlides_convertCode _ _)).append ?_)
    exact codeSlides_same fun _ hi =>
      isJump_of_shaped (L := L) (shaped_integerCode hcommon hi 0)
  next =>
    refine (hl.append ?_).append ((hr.append ?_).append ?_)
    · exact codeSlides_same fun _ hi =>
        isJump_of_shaped (L := L) (shaped_scaleLeftCode hi 0)
    · exact codeSlides_same fun _ hi =>
        isJump_of_shaped (L := L) (shaped_scaleRightCode hi 0)
    · exact codeSlides_same fun _ hi =>
        isJump_of_shaped (L := L) (shaped_pointerCode hi 0)

/-- An expression has one type and one code, up to the addresses of
functions. -/
theorem Resolves.slides (hL : L.SameNames L') {vars : Name → Option LocalVar}
    {phrase : Phrase}
    (h : Resolves vars L.signatures phrase) :
    match phrase with
    | .one x a => ∀ a', Resolves vars L'.signatures (.one x a') →
      a'.ty = a.ty ∧ CodeSlides L L' base base' (a.code L) (a'.code L')
    | .args ps xs as => ∀ as', Resolves vars L'.signatures (.args ps xs as') →
      CodeSlides L L' base base' (argsCode L ps as) (argsCode L' ps as') := by
  induction h with
  | int v ty =>
    intro a' h'
    cases h'
    exact ⟨rfl, codeSlides_one (.same rfl)⟩
  | str v =>
    intro a' h'
    cases h'
    refine ⟨rfl, ?_⟩
    simp only [Term.code, hL.string]
    exact codeSlides_one (.same rfl)
  | @var name v hv =>
    intro a' h'
    cases h' with
    | var hv' =>
      cases hv.symm.trans hv'
      refine ⟨rfl, codeSlides_one (.same ?_)⟩
      cases v.ty.isArray <;> rfl
  | addrVar hv =>
    intro a' h'
    cases h' with
    | addrVar hv' =>
      cases hv.symm.trans hv'
      exact ⟨rfl, codeSlides_one (.same rfl)⟩
  | binary _ _ hty ihl ihr =>
    intro a' h'
    cases h' with
    | @binary _ _ _ l' r' ty' hl' hr' hty' =>
      obtain ⟨hlTy, hl⟩ := ihl l' hl'
      obtain ⟨hrTy, hr⟩ := ihr r' hr'
      rw [hlTy, hrTy, hty] at hty'
      cases hty'
      exact ⟨rfl, codeSlides_binary hlTy hrTy hl hr⟩
  | @call name args f as hname hf _ ih =>
    intro a' h'
    cases h' with
    | @call _ _ f' as' hname' hf' hargs' =>
      rw [hL.signatures, hf] at hf'
      have herase : f.erase = f'.erase := Option.some.inj hf'
      have hparams : f'.params = f.params :=
        (congrArg FuncDef.params herase).symm
      have hret : f'.ret = f.ret := (congrArg FuncDef.ret herase).symm
      have hsame : f'.name = f.name := hname'.trans hname.symm
      rw [hparams] at hargs'
      refine ⟨hret, ?_⟩
      simp only [Term.code, hparams, hsame]
      refine (ih as' hargs').append (.cons (.same rfl) (codeSlides_one ?_))
      exact .call (f := f.erase) (List.mem_of_find?_eq_some hf)
  | addrDeref _ hty ih =>
    intro a' h'
    cases h' with
    | addrDeref hp' hty' =>
      obtain ⟨hpTy, hp⟩ := ih _ hp'
      rw [hpTy, hty] at hty'
      cases hty'
      exact ⟨rfl, hp⟩
  | deref _ hty ih =>
    intro a' h'
    cases h' with
    | deref hp' hty' =>
      obtain ⟨hpTy, hp⟩ := ih _ hp'
      rw [hpTy, hty] at hty'
      cases hty'
      refine ⟨rfl, ?_⟩
      simp only [Term.code]
      split
      · exact hp
      · exact hp.append (codeSlides_one (.same rfl))
  | nil =>
    intro as' h'
    cases h'
    exact .nil
  | cons _ _ _ ih ihs =>
    intro as' h'
    cases h' with
    | cons ha' _ has' =>
      obtain ⟨haTy, ha⟩ := ih _ ha'
      simp only [argsCode, haTy]
      exact (ha.append (codeSlides_convertCode _ _)).append (ihs _ has')

theorem Printed.slides (hL : L.SameNames L') {vars : Name → Option LocalVar}
    {xs : List Expr} {as as' : List Term} (h : Printed vars L.signatures xs as)
    (h' : Printed vars L'.signatures xs as') :
    CodeSlides L L' base base' (termsCode L as) (termsCode L' as') := by
  induction h generalizing as' with
  | nil =>
    cases h'
    exact .nil
  | cons ha _ _ ih =>
    cases h' with
    | cons ha' _ has' => exact (ha.slides hL _ ha').2.append (ih has')

/-! ### Statements -/

def Scope.SameVars (s s' : Scope) : Prop :=
  s' = { s with loops := s'.loops }

/-- Loops at the same place of a function when it starts at `base` and at
`base'`. -/
def LoopsSlide (base base' : Nat) : List Loop → List Loop → Prop :=
  List.Forall₂ fun l l' => Slid base base' l.breakTo l'.breakTo ∧
    Slid base base' l.continueTo l'.continueTo

namespace Scope.SameVars

variable {s s' t t' : Scope}

theorem find? (h : s.SameVars s') : s'.find? = s.find? := by
  rw [h]
  rfl

theorem enter (h : s.SameVars s') : s.enter.SameVars s'.enter := by
  rw [SameVars, h]
  rfl

theorem enterLoop (h : s.SameVars s') (l l' : Loop) :
    (s.enterLoop l).SameVars (s'.enterLoop l') := by
  rw [SameVars, h]
  rfl

theorem resume (h : s.SameVars s') (hinner : t.SameVars t') :
    (s.resume t).SameVars (s'.resume t') := by
  rw [SameVars, h, hinner]
  rfl

theorem addLocal {ty : Ty} {name : Name} {v v' : LocalVar} (h : s.SameVars s')
    (hadd : s.addLocal ty name = .ok (v, t))
    (hadd' : s'.addLocal ty name = .ok (v', t')) : v' = v ∧ t.SameVars t' := by
  rw [h] at hadd'
  generalize s'.loops = loops at hadd'
  simp only [Scope.addLocal] at hadd hadd'
  obtain ⟨hnew, hadd⟩ := ok_of_else hadd
  have hnew' :
      ¬ (Block.find? ({ s with loops } : Scope).innermost name).isSome = true :=
    hnew
  rw [if_neg hnew'] at hadd'
  cases hadd
  cases hadd'
  refine ⟨rfl, ?_⟩
  simp only [SameVars, put]
  split <;> rfl

end Scope.SameVars

namespace LoopsSlide

variable {s s' : Scope}

theorem breakTarget {a a' : Nat} (h : LoopsSlide base base' s.loops s'.loops)
    (ha : s.breakTarget = .ok a) (ha' : s'.breakTarget = .ok a') :
    Slid base base' a a' := by
  obtain ⟨l, rest, hl, rfl⟩ := Scope.loop_of_breakTarget ha
  obtain ⟨l', rest', hl', rfl⟩ := Scope.loop_of_breakTarget ha'
  rw [hl, hl'] at h
  exact (List.forall₂_cons.mp h).1.1

theorem continueTarget {a a' : Nat} (h : LoopsSlide base base' s.loops s'.loops)
    (ha : s.continueTarget = .ok a) (ha' : s'.continueTarget = .ok a') :
    Slid base base' a a' := by
  obtain ⟨l, rest, hl, rfl⟩ := Scope.loop_of_continueTarget ha
  obtain ⟨l', rest', hl', rfl⟩ := Scope.loop_of_continueTarget ha'
  rw [hl, hl'] at h
  exact (List.forall₂_cons.mp h).1.2

end LoopsSlide

section

variable (hL : L.SameNames L') {s s' : Scope} {x : Expr} {a a' : Term}

include hL

theorem codeSlides_convertedCode (hs : s.SameVars s') (ty : Ty)
    (ha : Resolves s.find? L.signatures (.one x a))
    (ha' : Resolves s'.find? L'.signatures (.one x a')) :
    CodeSlides L L' base base' (convertedCode L ty a)
      (convertedCode L' ty a') := by
  obtain ⟨hty, hcode⟩ := ha.slides hL a' (hs.find? ▸ ha')
  simp only [convertedCode, hty]
  exact hcode.append (codeSlides_convertCode ty a.ty)

theorem codeSlides_testCode (hs : s.SameVars s')
    (ha : Resolves s.find? L.signatures (.one x a))
    (ha' : Resolves s'.find? L'.signatures (.one x a'))
    (htarget : Slid base base' target target') :
    CodeSlides L L' base base' (testCode L a target) (testCode L' a' target') :=
  (ha.slides hL a' (hs.find? ▸ ha')).2.append
    (codeSlides_one (htarget.branch rfl))

/-- The length of a test does not depend on where it goes. -/
theorem slid_testCode {start start' : Nat} (hs : s.SameVars s')
    (ha : Resolves s.find? L.signatures (.one x a))
    (ha' : Resolves s'.find? L'.signatures (.one x a'))
    (hstart : Slid base base' start start') :
    Slid base base' (start + (testCode L a target).length)
      (start' + (testCode L' a' target').length) := by
  have hcode : CodeSlides L L' base base' (a.code L) (a'.code L') :=
    (ha.slides hL a' (hs.find? ▸ ha')).2
  have hlength : (a.code L).length = (a'.code L').length :=
    List.Forall₂.length_eq hcode
  simp only [testCode, List.length_append, hlength]
  exact hstart.add _

end

/-- Wherever else a part is laid out, it ends at the same distance from the
start and leaves the same variables behind. Its code is the same if the loops
around it are: their ends are known only after their bodies. -/
def Part.Slides (L L' : Link) (base base' : Nat) (ret : Ty) (part : Part)
    (s : Scope) (start : Nat) (t : Scope) (stop : Nat) (ends : Bool) : Prop :=
  ∀ {s' t' : Scope} {start' stop' : Nat} {ends' : Bool},
    Laid L' ret part s' start' t' stop' ends' → s.SameVars s' →
    Slid base base' start start' →
    (ends' = ends ∧ t.SameVars t') ∧ Slid base base' stop stop' ∧
      (LoopsSlide base base' s.loops s'.loops →
        L.Slides L' base base' start stop)

namespace Part

variable {ret : Ty} {s t : Scope} {start : Nat} {is : List Instr}

/-- A statement that is one piece of code. -/
theorem slides_piece {loops loops' : List Loop} {start' : Nat}
    (hcode : L.Holds start is) (hcode' : L'.Holds start' is')
    (hstart : Slid base base' start start')
    (hslides : CodeSlides L L' base base' is is') :
    Slid base base' (start + is.length) (start' + is'.length) ∧
      (LoopsSlide base base' loops loops' →
        L.Slides L' base base' start (start + is.length)) := by
  obtain ⟨hstop, hcode⟩ := Link.slides_of_holds hcode hcode' hslides hstart
  exact ⟨hstop, fun _ => hcode⟩

variable {mid stop : Nat} {value : Expr} {a : Term}

theorem slides_cons {stmt : Stmt} {ss : List Stmt} {t' : Scope}
    {before ends after : Bool}
    (hfirst : Laid L ret (.one stmt) s start t mid ends)
    (hslides : Slides L L' base base' ret (.one stmt) s start t mid ends)
    (hrest : Slides L L' base base' ret (.many ends ss) t mid t' stop after) :
    Slides L L' base base' ret (.many before (stmt :: ss)) s start t' stop
      after := by
  intro s' t' start' stop' ends' h' hs hstart
  cases h' with
  | cons hfirst' hrest' =>
    obtain ⟨⟨rfl, ht⟩, hmid, hcode⟩ := hslides hfirst' hs hstart
    obtain ⟨hends, hstop, hcodes⟩ := hrest hrest' ht hmid
    refine ⟨hends, hstop, fun hloops => (hcode hloops).append (hcodes ?_)⟩
    rwa [hfirst.loops, hfirst'.loops]

variable (hL : L.SameNames L')

include hL

theorem slides_init {name : Name} {v : LocalVar}
    (hadd : s.addLocal ty name = .ok (v, t))
    (hvalue : Resolves t.find? L.signatures (.one value a))
    (his : is =
      convertedCode L v.ty a ++ [{ op := .storeLocal, operand := v.operand }])
    (hcode : L.Holds start is) :
    Slides L L' base base' ret (.one (.init ty name value)) s start t
      (start + is.length) false := by
  intro s' t' start' stop' ends' h' hs hstart
  cases h' with
  | init _ hadd' hvalue' _ _ his' hcode' =>
    obtain ⟨rfl, ht⟩ := hs.addLocal hadd hadd'
    refine ⟨⟨rfl, ht⟩, slides_piece hcode hcode' hstart ?_⟩
    rw [his, his']
    exact (codeSlides_convertedCode hL ht _ hvalue hvalue').append
      (codeSlides_one (.same rfl))

theorem slides_assignVar {name : Name} {v : LocalVar}
    (hv : s.find? name = some v)
    (hvalue : Resolves s.find? L.signatures (.one value a))
    (his : is = convertedCode L v.ty a ++
      [{ op := .storeLocal, operand := v.operand }])
    (hcode : L.Holds start is) :
    Slides L L' base base' ret (.one (.assign (.var name) value)) s start s
      (start + is.length) false := by
  intro s' t' start' stop' ends' h' hs hstart
  cases h' with
  | assignVar hv' hvalue' _ his' hcode' =>
    rw [hs.find?, hv] at hv'
    cases hv'
    refine ⟨⟨rfl, hs⟩, slides_piece hcode hcode' hstart ?_⟩
    rw [his, his']
    exact (codeSlides_convertedCode hL hs _ hvalue hvalue').append
      (codeSlides_one (.same rfl))

theorem slides_assignCell {x : Expr} {p : Term}
    (hx : Resolves s.find? L.signatures (.one x p)) (hty : p.ty.deref = .ok ty)
    (hvalue : Resolves s.find? L.signatures (.one value a))
    (his : is = p.code L ++ (convertedCode L ty a ++ [{ op := .store }]))
    (hcode : L.Holds start is) :
    Slides L L' base base' ret (.one (.assign (.deref x) value)) s start s
      (start + is.length) false := by
  intro s' t' start' stop' ends' h' hs hstart
  cases h' with
  | assignCell hx' hty' hvalue' _ his' hcode' =>
    obtain ⟨hpTy, hp⟩ := hx.slides hL _ (hs.find? ▸ hx')
    rw [hpTy, hty] at hty'
    cases hty'
    refine ⟨⟨rfl, hs⟩, slides_piece hcode hcode' hstart ?_⟩
    rw [his, his']
    exact hp.append ((codeSlides_convertedCode hL hs _ hvalue hvalue').append
      (codeSlides_one (.same rfl)))

theorem slides_retSome (hvalue : Resolves s.find? L.signatures (.one value a))
    (his : is = convertedCode L ret a ++ [{ op := .ret }])
    (hcode : L.Holds start is) :
    Slides L L' base base' ret (.one (.ret (some value))) s start s
      (start + is.length) true := by
  intro s' t' start' stop' ends' h' hs hstart
  cases h' with
  | retSome _ hvalue' _ his' hcode' =>
    refine ⟨⟨rfl, hs⟩, slides_piece hcode hcode' hstart ?_⟩
    rw [his, his']
    exact (codeSlides_convertedCode hL hs _ hvalue hvalue').append
      (codeSlides_one (.same rfl))

theorem slides_expr {x : Expr} (hx : Resolves s.find? L.signatures (.one x a))
    (his : is = a.code L ++ [{ op := .pop }]) (hcode : L.Holds start is) :
    Slides L L' base base' ret (.one (.expr x)) s start s (start + is.length)
      false := by
  intro s' t' start' stop' ends' h' hs hstart
  cases h' with
  | expr hx' his' hcode' =>
    refine ⟨⟨rfl, hs⟩, slides_piece hcode hcode' hstart ?_⟩
    rw [his, his']
    exact (hx.slides hL _ (hs.find? ▸ hx')).2.append
      (codeSlides_one (.same rfl))

theorem slides_printf {format : Expr} {args : List Expr} {as : List Term}
    (hformat : Resolves s.find? L.signatures (.one format a))
    (hargs : Printed s.find? L.signatures args as)
    (his : is =
      a.code L ++
      (termsCode L as ++
        [{ op := .printf, operand := Int64.ofNat (args.length + 1) }]))
    (hcode : L.Holds start is) :
    Slides L L' base base' ret (.one (.printf format args)) s start s
      (start + is.length) false := by
  intro s' t' start' stop' ends' h' hs hstart
  cases h' with
  | printf hformat' _ _ hargs' his' hcode' =>
    refine ⟨⟨rfl, hs⟩, slides_piece hcode hcode' hstart ?_⟩
    rw [his, his']
    exact (hformat.slides hL _ (hs.find? ▸ hformat')).2.append
      ((hargs.slides hL (hs.find? ▸ hargs')).append
        (codeSlides_one (.same rfl)))

section

variable {cond : Expr} {body : Stmt} {inner : Scope} {c : Term} {ends : Bool}
  (hcond : Resolves s.find? L.signatures (.one cond c))

include hcond

theorem slides_ifThen (hcode : L.Holds start (testCode L c stop))
    (hbody : Slides L L' base base' ret (.one body) s.enter
      (start + (testCode L c stop).length) inner stop ends) :
    Slides L L' base base' ret (.one (.ifThen cond body)) s start
      (s.resume inner) stop false := by
  intro s' t' start' stop' ends' h' hs hstart
  cases h' with
  | ifThen hcond' _ hcode' hbody' =>
    obtain ⟨⟨-, ht⟩, hstop, hslides⟩ :=
      hbody hbody' hs.enter (slid_testCode hL hs hcond hcond' hstart)
    have htest := codeSlides_testCode hL hs hcond hcond' hstop
    refine ⟨⟨rfl, hs.resume ht⟩, hstop, fun hloops => ?_⟩
    exact (Link.slides_of_holds hcode hcode' htest hstart).2.append
      (hslides hloops)

theorem slides_ifElse {orElse : Stmt} {other : Scope} {between : Nat}
    {otherEnds : Bool} (hcode : L.Holds start (testCode L c between))
    (hbody : Slides L L' base base' ret (.one body) s.enter
      (start + (testCode L c between).length) inner mid ends)
    (hbetween : between = if ends then mid else mid + 1)
    (hjump : ends = false →
      L.Holds mid [{ op := .jump, operand := Int64.ofNat stop }])
    (helse : Slides L L' base base' ret (.one orElse) (s.resume inner).enter
      between other stop otherEnds) :
    Slides L L' base base' ret (.one (.ifElse cond body orElse)) s start
      (s.resume other) stop (ends && otherEnds) := by
  intro s' t' start' stop' ends' h' hs hstart
  cases h' with
  | @ifElse _ _ _ _ _ _ _ _ _ between' _ _ _ hcond' _ hcode' hbody' hbetween'
      hjump' helse' =>
    obtain ⟨⟨rfl, ht⟩, hmid, hslides⟩ :=
      hbody hbody' hs.enter (slid_testCode hL hs hcond hcond' hstart)
    have hslid : Slid base base' between between' := by
      rw [hbetween, hbetween']
      split
      · exact hmid
      · exact hmid.add 1
    obtain ⟨⟨rfl, ht'⟩, hstop, hslidesElse⟩ :=
      helse helse' (hs.resume ht).enter hslid
    have htest := codeSlides_testCode hL hs hcond hcond' hslid
    refine ⟨⟨rfl, hs.resume ht'⟩, hstop, fun hloops => ?_⟩
    refine (Link.slides_of_holds hcode hcode' htest hstart).2.append
      ((hslides hloops).append ?_)
    refine Link.Slides.append ?_ (hslidesElse hloops)
    rw [hbetween]
    split
    next => exact Link.slides_self _
    next hreached =>
      have hreached := Bool.eq_false_iff.mpr hreached
      exact Link.slides_jump (hjump hreached) (hjump' hreached) hmid hstop

theorem slides_whileDo (hcode : L.Holds start (testCode L c (mid + 1)))
    (hbody : Slides L L' base base' ret (.one body)
      (s.enterLoop { breakTo := mid + 1, continueTo := start }).enter
      (start + (testCode L c (mid + 1)).length) inner mid ends)
    (hjump : L.Holds mid [{ op := .jump, operand := Int64.ofNat start }]) :
    Slides L L' base base' ret (.one (.whileDo cond body)) s start
      (s.resume inner) (mid + 1) false := by
  intro s' t' start' stop' ends' h' hs hstart
  cases h' with
  | whileDo hcond' _ hcode' hbody' hjump' =>
    obtain ⟨⟨-, ht⟩, hmid, hslides⟩ := hbody hbody' (hs.enterLoop _ _).enter
      (slid_testCode hL hs hcond hcond' hstart)
    have htest := codeSlides_testCode hL hs hcond hcond' (hmid.add 1)
    refine ⟨⟨rfl, hs.resume ht⟩, hmid.add 1, fun hloops => ?_⟩
    refine (Link.slides_of_holds hcode hcode' htest hstart).2.append
      ((hslides ?_).append ?_)
    · exact .cons ⟨hmid.add 1, hstart⟩ hloops
    · exact Link.slides_jump hjump hjump' hmid hstart

end

end Part

theorem Laid.slides (hL : L.SameNames L') {ret : Ty} {part : Part} {s t : Scope}
    {start : Nat} {ends : Bool}
    (h : Laid L ret part s start t stop ends) :
    part.Slides L L' base base' ret s start t stop ends := by
  induction h with
  | block _ ih =>
    intro s' t' start' stop' ends' h' hs hstart
    cases h' with
    | block hbody' =>
      obtain ⟨⟨hends, ht⟩, hslides⟩ := ih hbody' hs.enter hstart
      exact ⟨⟨hends, hs.resume ht⟩, hslides⟩
  | decl _ hadd =>
    intro s' t' start' stop' ends' h' hs hstart
    cases h' with
    | decl _ hadd' =>
      exact ⟨⟨rfl, (hs.addLocal hadd hadd').2⟩, hstart,
        fun _ => Link.slides_self _⟩
  | init _ hadd hvalue _ _ his hcode =>
    exact Part.slides_init hL hadd hvalue his hcode
  | assignVar hv hvalue _ his hcode =>
    exact Part.slides_assignVar hL hv hvalue his hcode
  | assignCell hx hty hvalue _ his hcode =>
    exact Part.slides_assignCell hL hx hty hvalue his hcode
  | retNone _ hcode =>
    intro s' t' start' stop' ends' h' hs hstart
    cases h' with
    | retNone _ hcode' =>
      refine ⟨⟨rfl, hs⟩,
        Part.slides_piece hcode hcode' hstart (codeSlides_same ?_)⟩
      simp [Emitter.returnZero, Opcode.isJump]
  | retSome _ hvalue _ his hcode =>
    exact Part.slides_retSome hL hvalue his hcode
  | expr hx his hcode => exact Part.slides_expr hL hx his hcode
  | ifThen hcond _ hcode _ ih => exact Part.slides_ifThen hL hcond hcode ih
  | ifElse hcond _ hcode _ hbetween hjump _ ih ihElse =>
    exact Part.slides_ifElse hL hcond hcode ih hbetween hjump ihElse
  | whileDo hcond _ hcode _ hjump ih =>
    exact Part.slides_whileDo hL hcond hcode ih hjump
  | breakLoop htarget hcode =>
    intro s' t' start' stop' ends' h' hs hstart
    cases h' with
    | breakLoop htarget' hcode' =>
      refine ⟨⟨rfl, hs⟩, hstart.add 1, fun hloops => ?_⟩
      exact Link.slides_jump hcode hcode' hstart
        (hloops.breakTarget htarget htarget')
  | continueLoop htarget hcode =>
    intro s' t' start' stop' ends' h' hs hstart
    cases h' with
    | continueLoop htarget' hcode' =>
      refine ⟨⟨rfl, hs⟩, hstart.add 1, fun hloops => ?_⟩
      exact Link.slides_jump hcode hcode' hstart
        (hloops.continueTarget htarget htarget')
  | printf hformat _ _ hargs his hcode =>
    exact Part.slides_printf hL hformat hargs his hcode
  | nil =>
    intro s' t' start' stop' ends' h' hs hstart
    cases h'
    exact ⟨⟨rfl, hs⟩, hstart, fun _ => Link.slides_self _⟩
  | cons hfirst _ ih ihs => exact Part.slides_cons hfirst ih ihs

/-- A function is as long wherever it stands, and has the same code. -/
theorem LaidFunction.slides (hL : L.SameNames L') {f : Function}
    {start start' stop stop' : Nat} (h : LaidFunction L f start stop)
    (h' : LaidFunction L' f start' stop') :
    Slid start start' stop stop' ∧ L.Slides L' start start' start stop := by
  have hstart : Slid start start' start start' := Nat.add_comm start start'
  have hreserve := h.shape.reserve
  have hreserve' := h'.shape.reserve
  have hentry : L.Slides L' start start' start (start + 1) :=
    (Link.slides_of_holds (Link.holds_cons.mpr ⟨hreserve, Link.holds_nil⟩)
      (Link.holds_cons.mpr ⟨hreserve', Link.holds_nil⟩)
      (codeSlides_one (.same rfl)) hstart).2
  cases h with
  | @intro params _ mid _ ends hparams _ _ hbody hreturn hstop =>
    cases h' with
    | @intro params' _ mid' _ ends' hparams' _ _ hbody' hreturn' hstop' =>
      cases hparams.symm.trans hparams'
      obtain ⟨⟨rfl, -⟩, hmid, hslides⟩ :=
        hbody.slides hL hbody' rfl (hstart.add 1)
      have hloops : LoopsSlide start start' params.loops params.loops := by
        rw [paramScope_eq hparams]
        exact .nil
      rw [hstop, hstop']
      cases ends' with
      | true => exact ⟨hmid, hentry.append (hslides hloops)⟩
      | false =>
        obtain ⟨hlast, hreturned⟩ :=
          Link.slides_of_holds (hreturn rfl) (hreturn' rfl)
            (codeSlides_same (by simp [Emitter.returnZero, Opcode.isJump])) hmid
        exact ⟨hlast, (hentry.append (hslides hloops)).append hreturned⟩

end

/-! ### Programs -/

/-- Addresses of the same instruction in two programs that have the same
functions. -/
def Program.SamePlace (p p' : Program) (fs fs' : List Function) (a a' : Nat) :
    Prop :=
  ∃ f ∈ fs, ∃ start stop start' stop', LaidFunction (p.link fs) f start stop ∧
    LaidFunction (p'.link fs') f start' stop' ∧ start ≤ a ∧ a < stop ∧
    Slid start start' a a'

theorem find?_of_perm {ds ds' : List α} (name : α → Name) (hperm : ds.Perm ds')
    (hnames : (ds.map name).Nodup) (other : Name) :
    ds'.find? (name · == other) = ds.find? (name · == other) := by
  have hnames' : (ds'.map name).Nodup := (hperm.map name).nodup_iff.mp hnames
  cases hd : ds.find? (name · == other) with
  | none =>
    rw [List.find?_eq_none] at hd ⊢
    exact fun d hmem => hd d (hperm.mem_iff.mpr hmem)
  | some d =>
    have hname : name d = other := by simpa using List.find?_some hd
    rw [← hname]
    exact find?_of_mem name hnames'
      (hperm.mem_iff.mp (List.mem_of_find?_eq_some hd))

section

variable {p p' : Program} {fs fs' : List Function}

/-- Functions are known by their names, whatever their order. -/
theorem Program.sameNames_link (hp : p.Places fs) (hperm : fs.Perm fs')
    (hpool : stringPool fs' = stringPool fs) :
    (p.link fs).SameNames (p'.link fs') where
  signatures name := by
    have hnames : ((fs.map Function.signature).map (·.name)).Nodup := by
      rw [List.map_map]
      exact hp.names
    exact find?_of_perm (·.name) (hperm.map Function.signature) hnames name
  string := by
    simp only [link, hpool]

/-- A function is entered at the same place of both programs. -/
theorem Program.samePlace_entry (hp : p.Places fs) (hp' : p'.Places fs')
    (hperm : fs.Perm fs') (hsize : p.code.size < 2 ^ 63)
    (hsize' : p'.code.size < 2 ^ 63) (hf : f ∈ fs) :
    ∃ a a' : Nat, p.SamePlace p' fs fs' a a' ∧
      ((p.link fs).entry f.name).toInt = a ∧
      ((p'.link fs').entry f.name).toInt = a' := by
  obtain ⟨start, stop, hlaid⟩ := hp.laid.exists_start hf
  obtain ⟨start', stop', hlaid'⟩ := hp'.laid.exists_start (hperm.mem_iff.mp hf)
  refine ⟨start, start',
    ⟨f, hf, start, stop, start', stop', hlaid, hlaid', Nat.le_refl _, ?_,
      Nat.add_comm _ _⟩, ?_, ?_⟩
  · exact Nat.lt_of_succ_lt hlaid.shape.lt
  · rw [hlaid.entry,
      Int64.toInt_ofNat_of_lt (Nat.lt_trans hlaid.start_lt hsize)]
  · rw [hlaid'.entry,
      Int64.toInt_ofNat_of_lt (Nat.lt_trans hlaid'.start_lt hsize')]

theorem ofNat_inj {a b : Nat} (ha : a < 2 ^ 64) (hb : b < 2 ^ 64)
    (h : Int64.ofNat a = Int64.ofNat b) : a = b := by
  have hmod : a % 2 ^ 64 = b % 2 ^ 64 := by
    simpa using congrArg (fun c : Int64 => c.toBitVec.toNat) h
  rwa [Nat.mod_eq_of_lt ha, Nat.mod_eq_of_lt hb] at hmod

/-- Branches that are as far from the starts of a function go to the same place
of it. -/
theorem Program.samePlace_branch (hf : f ∈ fs) {start start' stop' : Nat}
    (hlaid : LaidFunction (p.link fs) f start stop)
    (hlaid' : LaidFunction (p'.link fs') f start' stop')
    (hsize : p.code.size < 2 ^ 63) (hsize' : p'.code.size < 2 ^ 63)
    {op : Opcode} {c c' : Cell} {a a' : Nat} (hop : op.isBranch = true)
    (hslid : c + Int64.ofNat start' = c' + Int64.ofNat start)
    (hi : Instr.Shaped (p.link fs) f.params.length f.cells (fun t => start < t ∧
      t < stop) a { op, operand := c })
    (hi' : Instr.Shaped (p'.link fs') f.params.length f.cells
      (fun t => start' < t ∧ t < stop') a' { op, operand := c' }) :
    ∃ t t' : Nat, p.SamePlace p' fs fs' t t' ∧ c.toInt = t ∧ c'.toInt = t' := by
  have htarget : ∃ t, (start < t ∧ t < stop) ∧ c = Int64.ofNat t := by
    cases op with
    | jump | jumpZero => exact hi
    | _ => simp [Opcode.isBranch] at hop
  have htarget' : ∃ t, (start' < t ∧ t < stop') ∧ c' = Int64.ofNat t := by
    cases op with
    | jump | jumpZero => exact hi'
    | _ => simp [Opcode.isBranch] at hop
  obtain ⟨t, ⟨hlow, hhigh⟩, rfl⟩ := htarget
  obtain ⟨t', ⟨hlow', hhigh'⟩, rfl⟩ := htarget'
  have hle : stop ≤ p.code.size := hlaid.shape.le
  have hle' : stop' ≤ p'.code.size := hlaid'.shape.le
  rw [← Int64.ofNat_add, ← Int64.ofNat_add] at hslid
  have hsame : t + start' = t' + start := ofNat_inj (by omega) (by omega) hslid
  refine ⟨t, t',
    ⟨f, hf, start, stop, start', stop', hlaid, hlaid', Nat.le_of_lt hlow, hhigh,
      hsame⟩, ?_, ?_⟩
  · exact Int64.toInt_ofNat_of_lt (by omega)
  · exact Int64.toInt_ofNat_of_lt (by omega)

/-- Programs of the same functions in another order have the same code at other
addresses. -/
theorem Program.relocates_of_perm (hp : p.Places fs) (hp' : p'.Places fs')
    (hperm : fs.Perm fs') (hpool : stringPool fs' = stringPool fs)
    (hsize : p.code.size < 2 ^ 63) (hsize' : p'.code.size < 2 ^ 63) :
    p.Relocates (p.SamePlace p' fs fs') p' := by
  have hL : (p.link fs).SameNames (p'.link fs') := sameNames_link hp hperm hpool
  constructor
  · rw [hp.data, hp'.data, hpool]
  · obtain ⟨main, hmain, hname, -⟩ := hp.main
    obtain ⟨a, a', hplace, hentry, hentry'⟩ :=
      samePlace_entry hp hp' hperm hsize hsize' hmain
    rw [hname] at hentry hentry'
    simp only [link, hp.entry, hp'.entry, Option.getD_some] at hentry hentry'
    exact ⟨a, a', hplace, hentry, hentry'⟩
  · rintro a a' ⟨f, hf, start, stop, start', stop', hlaid, hlaid', hlow,
      hhigh, hslid⟩
    obtain ⟨hstop, hslides⟩ := hlaid.slides hL hlaid'
    obtain ⟨i, i', hi, hi', hsame⟩ := hslides a a' hlow hhigh hslid
    refine ⟨i, i', hi, hi', ?_, fun hgoes => ?_⟩
    · -- the operands that are addresses
      cases hsame with
      | same hplain =>
        exact ⟨rfl, fun _ => rfl,
          fun hjump => by rw [hplain] at hjump; cases hjump⟩
      | @branch op c c' hop hc =>
        refine ⟨rfl, fun hplain => ?_, fun _ => ?_⟩
        · cases op <;> simp [Opcode.isBranch, Opcode.isJump] at hop hplain
        · have hne : a ≠ start := by
            rintro rfl
            cases hi.symm.trans hlaid.shape.reserve
            cases hop
          simp only [Slid] at hslid hstop
          obtain ⟨j, hj, hshaped⟩ := hlaid.shape.body a (by omega) hhigh
          obtain ⟨j', hj', hshaped'⟩ :=
            hlaid'.shape.body a' (by omega) (by omega)
          cases hi.symm.trans hj
          cases hi'.symm.trans hj'
          exact samePlace_branch hf hlaid hlaid' hsize hsize' hop hc
            hshaped hshaped'
      | @call d hd =>
        obtain ⟨g, hg, rfl⟩ := List.mem_map.mp hd
        refine ⟨rfl, fun hplain => ?_,
          fun _ => samePlace_entry hp hp' hperm hsize hsize' hg⟩
        cases hplain
    · -- the last instruction of a function returns
      have hne : a + 1 ≠ stop := by
        rintro rfl
        cases hi.symm.trans hlaid.shape.last
        cases hgoes
      exact ⟨f, hf, start, stop, start', stop', hlaid, hlaid',
        Nat.le_succ_of_le hlow, by omega, hslid.add 1⟩

end

/-! ### The order of functions -/

def Function.hasStrings (f : Function) : Bool :=
  !(stmtsStrings f.body).isEmpty

theorem Function.strings_eq_nil (h : f.hasStrings = false) :
    stmtsStrings f.body = [] := by
  simpa [hasStrings] using h

/-- Strings that occur in one function keep their order. -/
theorem stringPool_of_perm {fs fs' : List Function} (hperm : fs.Perm fs')
    (hstrings : fs.countP Function.hasStrings ≤ 1) :
    stringPool fs' = stringPool fs := by
  suffices hflat : (fs'.flatMap fun f => stmtsStrings f.body) =
    fs.flatMap fun f => stmtsStrings f.body by
    rw [stringPool, stringPool, hflat]
  induction hperm with
  | nil => rfl
  | cons f _ ih =>
    have hrest := Nat.le_trans (List.sublist_cons_self f _).countP_le hstrings
    rw [List.flatMap_cons, List.flatMap_cons, ih hrest]
  | swap f g fs =>
    have hone : stmtsStrings f.body = [] ∨ stmtsStrings g.body = [] := by
      cases hf : f.hasStrings with
      | false => exact Or.inl (Function.strings_eq_nil hf)
      | true =>
        cases hg : g.hasStrings with
        | false => exact Or.inr (Function.strings_eq_nil hg)
        | true =>
          rw [List.countP_cons_of_pos hg, List.countP_cons_of_pos hf]
            at hstrings
          omega
    rcases hone with hnone | hnone <;> simp [List.flatMap_cons, hnone]
  | trans hfirst _ ih ih' =>
    rw [ih' (hfirst.countP_eq _ ▸ hstrings), ih hstrings]

theorem WellFormed.of_perm {fs fs' : List Function} (h : WellFormed fs)
    (hperm : fs.Perm fs') : WellFormed fs' := by
  have hdeclared : declared fs' = declared fs := by
    funext name
    exact find?_of_perm (·.name) hperm h.names name
  constructor
  · exact (hperm.map _).nodup_iff.mp h.names
  · obtain ⟨main, hmain, hrest⟩ := h.main
    exact ⟨main, hperm.mem_iff.mp hmain, hrest⟩
  · intro f hf
    rw [hdeclared]
    exact h.functions f (hperm.mem_iff.mpr hf)

theorem nodeCount_of_perm {fs fs' : List Function} (hperm : fs.Perm fs') :
    nodeCount fs' = nodeCount fs := by
  induction hperm with
  | nil => rfl
  | cons f _ ih => rw [nodeCount, nodeCount, ih]
  | swap f g fs =>
    simp only [nodeCount]
    omega
  | trans _ _ hfirst hsecond => exact hsecond.trans hfirst

/-- The order of functions does not matter, if string literals occur in one
function at most: lists of the same functions are accepted together, and their
programs have the same data and run alike, with the same output and number of
steps and the same result or fault. The output may refuse a text at any step, as
long as it does not look at addresses of the code. -/
theorem Program.order_of_functions_is_irrelevant {fs fs' : List Function}
    (hperm : fs.Perm fs') (hstrings : fs.countP Function.hasStrings ≤ 1)
    (hnodes : nodeCount fs < 2 ^ 60) :
    ((∃ p, ofFunctions fs = .ok p) ↔ ∃ p', ofFunctions fs' = .ok p') ∧
      ∀ p p', ofFunctions fs = .ok p → ofFunctions fs' = .ok p' →
        p.data = p'.data ∧
          ∀ (lim : Limits) (sink : Sink), sink.IgnoresControl →
            (p.runInto lim sink).1.output = (p'.runInto lim sink).1.output ∧
              (p.runInto lim sink).1.steps = (p'.runInto lim sink).1.steps ∧
              OutcomesAlike (p.runInto lim sink).2 (p'.runInto lim sink).2 := by
  have hnodes' : nodeCount fs' < 2 ^ 60 := nodeCount_of_perm hperm ▸ hnodes
  have haccept {gs gs' : List Function} (hperm : gs.Perm gs')
      (hnodes : nodeCount gs' < 2 ^ 60) : (∃ p, ofFunctions gs = .ok p) →
      ∃ p', ofFunctions gs' = .ok p' := by
    rintro ⟨p, hp⟩
    obtain ⟨p', hp', -⟩ :=
      ((wellFormed_of_ofFunctions hp).of_perm hperm).exists_program hnodes
    exact ⟨p', hp'⟩
  have hplaces {gs : List Function} {p : Program} (hp : ofFunctions gs = .ok p)
      (hnodes : nodeCount gs < 2 ^ 60) :
      p.Places gs ∧ p.code.size < 2 ^ 63 := by
    obtain ⟨q, hq, hsize⟩ :=
      (wellFormed_of_ofFunctions hp).exists_program hnodes
    cases hp.symm.trans hq
    exact ⟨places_of_ofFunctions hp hsize, hsize⟩
  refine ⟨⟨haccept hperm hnodes', haccept hperm.symm hnodes⟩,
    fun p p' hp hp' => ?_⟩
  obtain ⟨hplaced, hsize⟩ := hplaces hp hnodes
  obtain ⟨hplaced', hsize'⟩ := hplaces hp' hnodes'
  have hmoved :=
    relocates_of_perm hplaced hplaced' hperm (stringPool_of_perm hperm hstrings)
      hsize hsize'
  refine ⟨hmoved.data.symm, fun lim sink hsink => ?_⟩
  obtain ⟨halike, houtcome⟩ := hmoved.runInto lim hsink
  exact ⟨halike.output, halike.steps, houtcome⟩

/-- `main` prints what `twice` gives for 4 and for 1. -/
def printedTwice : List Function :=
  [{ ret := .int, name := mainName, params := []
     body :=
      [.printf (.str (text "%d")) [.call (text "twice") [.int 4 none]],
       .printf (.str (text "%d")) [.call (text "twice") [.int 1 none]],
       .ret (some (.int 0 none))] },
   { ret := .int, name := text "twice",
     params := [{ ty := .int, name := text "n" }]
     body := [.ret (some (.binary .add (.var (text "n")) (.var (text "n"))))] }]

/-- The output takes the first number and refuses the second one, in either
order. -/
theorem Program.order_of_functions_is_irrelevant_printedTwice :
    let sink := Sink.upTo 1
    printedTwice.Perm printedTwice.reverse ∧
      printedTwice.countP Function.hasStrings ≤ 1 ∧
      nodeCount printedTwice < 2 ^ 60 ∧ sink.IgnoresControl ∧
      ∃ p p', ofFunctions printedTwice = .ok p ∧
        ofFunctions printedTwice.reverse = .ok p' ∧ p.entry ≠ p'.entry ∧
        p.data = p'.data ∧ (p'.runInto {} sink).1.output = #[56] ∧
        ∃ e e', (p.runInto {} sink).2 = .error (.fault e) ∧
          (p'.runInto {} sink).2 = .error (.fault e') ∧
          e.fault = .outputClosed ∧ e'.fault = .outputClosed ∧ e.pc ≠ e'.pc ∧
          (p.runInto {} sink).1.steps = (p'.runInto {} sink).1.steps := by
  intro sink
  have hperm : printedTwice.Perm printedTwice.reverse :=
    (List.reverse_perm printedTwice).symm
  have hstrings : printedTwice.countP Function.hasStrings ≤ 1 := by decide
  have hnodes : nodeCount printedTwice < 2 ^ 60 := by decide
  have hsink : sink.IgnoresControl := Sink.ignoresControl_upTo 1
  obtain ⟨p, hp, hfacts⟩ := Option.map_eq_some_iff.mp
    (show (ofFunctions printedTwice).toOption.map (fun p =>
        (p.entry, (p.runInto {} sink).1.output, (p.runInto {} sink).2)) =
      some (0, #[56], .error (.fault { pc := 11, fault := .outputClosed })) by
      decide +kernel)
  obtain ⟨p', hp', hfacts'⟩ := Option.map_eq_some_iff.mp
    (show (ofFunctions printedTwice.reverse).toOption.map (fun p =>
        (p.entry, (p.runInto {} sink).2)) =
      some (5, .error (.fault { pc := 16, fault := .outputClosed })) by
      decide +kernel)
  obtain ⟨hentry, houtput, hfault⟩ :
      p.entry = 0 ∧ (p.runInto {} sink).1.output = #[56] ∧
      (p.runInto {} sink).2 =
      .error (.fault { pc := 11, fault := .outputClosed }) := by
    simpa only [Prod.mk.injEq] using hfacts
  obtain ⟨hentry', hfault'⟩ :
      p'.entry = 5 ∧ (p'.runInto {} sink).2 =
        .error (.fault { pc := 16, fault := .outputClosed }) := by
    simpa only [Prod.mk.injEq] using hfacts'
  obtain ⟨hdata, hruns⟩ :=
    (order_of_functions_is_irrelevant hperm hstrings hnodes).2 p p'
      (ok_of_toOption hp) (ok_of_toOption hp')
  obtain ⟨hsame, hsteps, -⟩ := hruns {} sink hsink
  refine ⟨hperm, hstrings, hnodes, hsink, p, p', ok_of_toOption hp,
    ok_of_toOption hp', ?_, hdata, hsame.symm.trans houtput, _, _, hfault,
    hfault', rfl, rfl, ?_, hsteps⟩
  · rw [hentry, hentry']
    decide
  · decide

end StackC
