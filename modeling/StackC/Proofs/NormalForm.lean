import StackC.Proofs.Derivations
import StackC.Proofs.Tiling

/-!
The trees that the parser makes. Literals have the type that their size gives
them, a type is a base with stars and at most one length behind it, and an `if`
with an `else` has no open `if` in front of the `else`. A number with a sign is
accepted by the parser, but no text has such a token.
-/

namespace StackC

section

variable (signed : Bool)

/-- The type of an integer literal by its value. The values from 2^63 on are
negative in a cell; a literal that is negative itself has a sign. -/
inductive LiteralTy (v : Cell) : Ty → Prop where
  | char : LiteralTy v .char
  | int (hhigh : v.toInt < 2 ^ 31) (hsign : signed = true ∨ 0 ≤ v.toInt) :
    LiteralTy v .int
  | long (hlow : 2 ^ 31 ≤ v.toInt) : LiteralTy v .long
  | unsignedLong (hneg : v.toInt < 0) : LiteralTy v .unsignedLong

inductive Expr.Normal : Expr → Prop where
  | int {v : Cell} {ty : Ty} (h : LiteralTy signed v ty) :
    Expr.Normal (.int v (some ty))
  | str {s : Bytes} : Expr.Normal (.str s)
  | var {name : Name} : Expr.Normal (.var name)
  | binary {op : Operator} {a b : Expr} (hop : op ∈ Operator.defined)
    (ha : Expr.Normal a) (hb : Expr.Normal b) : Expr.Normal (.binary op a b)
  | call {name : Name} {args : List Expr} (hargs : ∀ a ∈ args, Expr.Normal a) :
    Expr.Normal (.call name args)
  | addr {e : Expr} (h : Expr.Normal e) : Expr.Normal (.addr e)
  | deref {e : Expr} (h : Expr.Normal e) : Expr.Normal (.deref e)

/-- The types without a length. -/
inductive Ty.Plain : Ty → Prop where
  | base {b : Base} {unsigned : Bool} (h : b = .void → unsigned = false) :
    Ty.Plain (.base b unsigned)
  | pointer {elem : Ty} (h : Ty.Plain elem) : Ty.Plain (.pointer elem)

inductive Ty.Declared : Ty → Prop where
  | plain {ty : Ty} (h : ty.Plain) : Ty.Declared ty
  | array {elem : Ty} {len : Int64} (h : elem.Plain)
    (hlow : -2 ^ 31 ≤ len.toInt) (hhigh : len.toInt < 2 ^ 31)
    (hsign : signed = true ∨ 0 ≤ len.toInt) : Ty.Declared (.array elem len)

/-- Whether an `else` behind a statement would belong to an `if` at the end of
it. -/
def Stmt.isOpen : Stmt → Bool
  | .ifThen _ _ => true
  | .ifElse _ _ orElse => orElse.isOpen
  | .whileDo _ body => body.isOpen
  | _ => false

inductive Stmt.Normal : Stmt → Prop where
  | block {body : List Stmt} (hbody : ∀ s ∈ body, Stmt.Normal s) :
    Stmt.Normal (.block body)
  | decl {ty : Ty} {name : Name} (hty : ty.Declared signed) :
    Stmt.Normal (.decl ty name)
  | init {ty : Ty} {name : Name} {value : Expr} (hty : ty.Declared signed)
    (hvalue : value.Normal signed) : Stmt.Normal (.init ty name value)
  | assign {target value : Expr} (htarget : target.Normal signed)
    (hvalue : value.Normal signed) : Stmt.Normal (.assign target value)
  | ret {value : Option Expr} (hvalue : ∀ e ∈ value, e.Normal signed) :
    Stmt.Normal (.ret value)
  | expr {e : Expr} (h : e.Normal signed) : Stmt.Normal (.expr e)
  | ifThen {cond : Expr} {body : Stmt} (hcond : cond.Normal signed)
    (hbody : Stmt.Normal body) : Stmt.Normal (.ifThen cond body)
  | ifElse {cond : Expr} {body orElse : Stmt} (hcond : cond.Normal signed)
    (hbody : Stmt.Normal body) (hclosed : body.isOpen = false)
    (horElse : Stmt.Normal orElse) : Stmt.Normal (.ifElse cond body orElse)
  | whileDo {cond : Expr} {body : Stmt} (hcond : cond.Normal signed)
    (hbody : Stmt.Normal body) : Stmt.Normal (.whileDo cond body)
  | breakLoop : Stmt.Normal .breakLoop
  | continueLoop : Stmt.Normal .continueLoop
  | printf {format : Expr} {args : List Expr} (hformat : format.Normal signed)
    (hargs : ∀ a ∈ args, a.Normal signed) : Stmt.Normal (.printf format args)

structure Function.Normal (f : Function) : Prop where
  ret : f.ret.Plain
  params : ∀ p ∈ f.params, p.ty.Plain
  body : ∀ s ∈ f.body, s.Normal signed

end

namespace Grammar

/-- A token that is no number with a minus sign. -/
def NoMinus (t : Token) : Prop :=
  t.kind = .integer → ∀ v, Numeral.Signed Numeral.Unsigned t.lexeme v → 0 ≤ v

/-- Tokens whose numbers have signs only if that is allowed. -/
def SignsAllowed (signed : Bool) (ts : List Token) : Prop :=
  signed = true ∨ ∀ t ∈ ts, NoMinus t

section

variable {signed : Bool}

variable {ts rest : List Token} {t : Token}

theorem SignsAllowed.of_suffix {us : List Token} (h : SignsAllowed signed ts)
    (hus : us <:+ ts) : SignsAllowed signed us :=
  h.imp_right fun h t ht => h t (hus.subset ht)

theorem SignsAllowed.tail (h : SignsAllowed signed (t :: ts)) :
    SignsAllowed signed ts :=
  h.of_suffix (List.suffix_cons t ts)

theorem SignsAllowed.nonneg (h : SignsAllowed signed (t :: ts))
    (hkind : t.kind = .integer) {v : Int}
    (hv : Numeral.Signed Numeral.Unsigned t.lexeme v) : signed = true ∨ 0 ≤ v :=
  h.imp_right fun h => h t List.mem_cons_self hkind v hv

/-- Behind the tokens that a derivation begins with there are as few signs as
with them. -/
theorem Prepends.signsAllowed {f : List Token → List Token} (hf : Prepends f)
    (h : SignsAllowed signed (f rest)) : SignsAllowed signed rest := by
  obtain ⟨ts, -, hf⟩ := hf
  rw [hf] at h
  exact h.of_suffix (List.suffix_append ts rest)

theorem normal_of_literal {e : Expr} (h : Literal t.lexeme e)
    (hkind : t.kind = .integer) (hsigns : SignsAllowed signed (t :: ts)) :
    e.Normal signed := by
  cases h with
  | @signed v h hfits =>
    have hv : (Int64.ofInt v).toInt = v :=
      Int64.toInt_ofInt_of_le hfits.1 hfits.2
    split
    next hhigh =>
      exact .int (.int (hv.symm ▸ hhigh) (hv.symm ▸ hsigns.nonneg hkind h))
    next hlow => exact .int (.long (hv.symm ▸ Int.not_lt.mp hlow))
  | @unsigned n h hlow hhigh =>
    have hv : (Int64.ofNat n).toInt = n - 2 ^ 64 := by
      rw [Int64.toInt_ofNat', Int.bmod_def]
      simp
      omega
    exact .int (.unsignedLong (by rw [hv]; omega))

theorem normal_of_atom {e : Expr} (h : Atom t e)
    (hsigns : SignsAllowed signed (t :: ts)) : e.Normal signed := by
  cases h with
  | integer hkind h => exact normal_of_literal h hkind hsigns
  | character hkind h hfits => exact .int .char
  | string hkind => exact .str
  | name hkind => exact .var

theorem mem_defined_of_operator? {kind : TokenKind} {n : Nat} {op : Operator}
    (h : operator? kind = some (n, op)) : op ∈ Operator.defined := by
  unfold operator? at h
  split at h <;> cases h <;> decide

theorem Front.normal_apply (f : Front) {e : Expr} (h : e.Normal signed) :
    (f.apply e).Normal signed := by
  cases f with
  | address => exact .addr h
  | content => exact .deref h
  | negative =>
    exact .binary (by decide) (.int (.int (by decide) (Or.inr (by decide)))) h

/-- What the meaning of a symbol is like if it is in normal form. -/
def ExprSymbol.NormalMeaning (signed : Bool) :
    (s : ExprSymbol) → s.Meaning → Prop
  | level _, e | operand, e | primary, e => Expr.Normal signed e
  | more _, f | indices, f =>
    ∀ e, Expr.Normal signed e → Expr.Normal signed (f e)
  | args, (es : List Expr) | list, (es : List Expr)
  | moreArgs, (es : List Expr) =>
    ∀ e ∈ es, Expr.Normal signed e

theorem ExprTree.normal {s : ExprSymbol} (d : ExprTree s)
    (h : SignsAllowed signed (d.before rest)) :
    s.NormalMeaning signed d.meaning := by
  induction d generalizing rest with
  | operation first more ihFirst ihMore =>
    exact ihMore (first.prepends.signsAllowed h) _ (ihFirst h)
  | moreNone => exact fun e he => he
  | moreSome t op hop operand more ihOperand ihMore =>
    intro e he
    have hoperand := ihOperand h.tail
    exact ihMore (operand.prepends.signsAllowed h.tail)
      _ (.binary (mem_defined_of_operator? hop) he hoperand)
  | front t f hf operand ih => exact f.normal_apply (ih h.tail)
  | plain operand ih => exact ih h
  | indexed primary indices ihPrimary ihIndices =>
    exact ihIndices (primary.prepends.signsAllowed h) _ (ihPrimary h)
  | call name left args right ih => exact .call (ih h.tail.tail)
  | indicesNone => exact fun e he => he
  | indicesSome left index right more ihIndex ihMore =>
    intro e he
    have hindex := ihIndex h.tail
    exact ihMore (index.prepends.signsAllowed h.tail).tail
      _ (.deref (.binary (by decide) he hindex))
  | atom t e he => exact normal_of_atom he h
  | paren left inner right ih => exact ih h.tail
  | argsNone => exact fun e he => absurd he List.not_mem_nil
  | argsSome given ih => exact ih h
  | list first more ihFirst ihMore =>
    intro e he
    rcases List.mem_cons.mp he with rfl | he
    · exact ihFirst h
    · exact ihMore (first.prepends.signsAllowed h) e he
  | moreArgsNone => exact fun e he => absurd he List.not_mem_nil
  | moreArgsSome comma next more ihNext ihMore =>
    intro e he
    rcases List.mem_cons.mp he with rfl | he
    · exact ihNext h.tail
    · exact ihMore (next.prepends.signsAllowed h.tail) e he

theorem Specifier.plain (s : Specifier) : s.meaning.Plain := by
  have hbase (b : BaseTree) : b.meaning ≠ .void := by
    cases b <;> exact Base.noConfusion
  cases s with
  | sign s => exact .base Base.noConfusion
  | base b => exact .base fun h => absurd h (hbase b)
  | signedBase s b => exact .base fun h => absurd h (hbase b)
  | void word => exact .base fun _ => rfl

theorem plain_stars (stars : List (Terminal .star)) {ty : Ty} (h : ty.Plain) :
    (stars.foldl (fun ty _ => Ty.pointer ty) ty).Plain := by
  induction stars generalizing ty with
  | nil => exact h
  | cons star stars ih => exact ih h.pointer

theorem ParamTree.plain (p : ParamTree) : p.meaning.ty.Plain :=
  plain_stars p.stars p.specifier.plain

theorem ParamsTree.plain (ps : ParamsTree) : ∀ p ∈ ps.meaning, p.ty.Plain := by
  cases ps with
  | void word => exact fun p hp => absurd hp List.not_mem_nil
  | none => exact fun p hp => absurd hp List.not_mem_nil
  | some first more =>
    intro p hp
    rcases List.mem_cons.mp hp with rfl | hp
    · exact first.plain
    · obtain ⟨q, -, rfl⟩ := List.mem_map.mp hp
      exact q.2.plain

theorem declared_sizeMeaning {ty : Ty} (hty : ty.Plain) (size : Option SizeTree)
    (h : SignsAllowed signed (SimpleTree.sizeBefore size rest)) :
    (SimpleTree.sizeMeaning ty size).Declared signed := by
  cases size with
  | none => exact .plain hty
  | some s =>
    obtain ⟨hnumeral, hlow, hhigh⟩ := s.h
    have hlen : (Int64.ofInt s.size).toInt = s.size :=
      Int64.toInt_ofInt_of_le (Int.le_trans (by decide) hlow)
        (Int.lt_of_lt_of_le hhigh (by decide))
    exact .array hty (hlen.symm ▸ hlow) (hlen.symm ▸ hhigh)
      (hlen.symm ▸ h.tail.nonneg s.token.property hnumeral)

theorem signsAllowed_sizeBefore {size : Option SizeTree}
    (h : SignsAllowed signed (SimpleTree.sizeBefore size rest)) :
    SignsAllowed signed rest := by
  cases size with
  | none => exact h
  | some s => exact h.tail.tail.tail

theorem SimpleTree.normal (s : SimpleTree) {rest : List Token}
    (h : SignsAllowed signed (s.before rest)) : s.meaning.Normal signed := by
  cases s with
  | ret word value =>
    cases value with
    | none =>
      refine .ret fun e he => ?_
      cases he
    | some value =>
      refine .ret fun e he => ?_
      cases he
      exact value.normal h.tail
  | leave word s hword =>
    unfold word? at hword
    split at hword <;> cases hword
    · exact .breakLoop
    · exact .continueLoop
  | print word left list right =>
    cases list with
    | list first more =>
      exact .printf (first.normal h.tail.tail)
        (more.normal (first.prepends.signsAllowed h.tail.tail))
  | declare param size value =>
    have hbehind := param.prepends.signsAllowed h
    have hsize := declared_sizeMeaning param.plain size hbehind
    cases value with
    | none => exact .decl hsize
    | some v =>
      exact .init hsize (v.value.normal (signsAllowed_sizeBefore hbehind).tail)
  | assign target value =>
    have htarget := target.normal h
    cases value with
    | none => exact .expr htarget
    | some v =>
      exact .assign htarget
        (v.value.normal (target.prepends.signsAllowed h).tail)

/-- What the meaning of a symbol is like if it is in normal form; the grammar
tells which statements are open. -/
def StmtSymbol.NormalMeaning (signed : Bool) :
    (s : StmtSymbol) → s.Meaning → Prop
  | statement isOpen, (s : Stmt) => s.Normal signed ∧ s.isOpen = isOpen
  | statements, (ss : List Stmt) => ∀ s ∈ ss, s.Normal signed

theorem CondTree.normal (c : CondTree) {rest : List Token}
    (h : SignsAllowed signed (c.before rest)) : c.inner.meaning.Normal signed :=
  c.inner.normal h.tail

theorem SimpleTree.isOpen_meaning (s : SimpleTree) :
    s.meaning.isOpen = false := by
  cases s with
  | ret word value => rfl
  | leave word s hword =>
    unfold word? at hword
    split at hword <;> cases hword <;> rfl
  | print word left list right =>
    cases list with
    | list first more => rfl
  | declare param size value => cases value <;> rfl
  | assign target value => cases value <;> rfl

theorem StmtTree.normal {s : StmtSymbol} (d : StmtTree s) {rest : List Token}
    (h : SignsAllowed signed (d.before rest)) :
    s.NormalMeaning signed d.meaning := by
  induction d generalizing rest with
  | simple s semicolon => exact ⟨s.normal h, s.isOpen_meaning⟩
  | block left body right ih => exact ⟨.block (ih h.tail), rfl⟩
  | ifThen word cond body ih =>
    exact ⟨.ifThen (cond.normal h.tail)
      (ih (cond.prepends.signsAllowed h.tail)).1, rfl⟩
  | ifElse word cond body elseWord orElse ihBody ihElse =>
    have hcond := cond.prepends.signsAllowed h.tail
    obtain ⟨hbody, hclosed⟩ := ihBody hcond
    obtain ⟨helse, hopen⟩ := ihElse (body.prepends.signsAllowed hcond).tail
    exact ⟨.ifElse (cond.normal h.tail) hbody hclosed helse, hopen⟩
  | whileDo word cond body ih =>
    obtain ⟨hbody, hopen⟩ := ih (cond.prepends.signsAllowed h.tail)
    exact ⟨.whileDo (cond.normal h.tail) hbody, hopen⟩
  | nil => exact fun s hs => absurd hs List.not_mem_nil
  | cons first more ihFirst ihMore =>
    intro s hs
    rcases List.mem_cons.mp hs with rfl | hs
    · exact (ihFirst h).1
    · exact ihMore (first.prepends.signsAllowed h) s hs

theorem FunctionTree.normal (f : FunctionTree) {rest : List Token}
    (h : SignsAllowed signed (f.before rest)) : f.meaning.Normal signed where
  ret := f.head.plain
  params := f.params.plain
  body := f.body.normal
    (f.params.prepends.signsAllowed
      (f.head.prepends.signsAllowed h).tail).tail.tail

theorem ProgramTree.normal (p : ProgramTree) {rest : List Token}
    (h : SignsAllowed signed (p.before rest)) :
    ∀ f ∈ p.meaning, f.Normal signed := by
  induction p with
  | nil => exact fun f hf => absurd hf List.not_mem_nil
  | cons f p ih =>
    intro g hg
    rcases List.mem_cons.mp hg with rfl | hg
    · exact f.normal h
    · exact ih (f.prepends.signsAllowed h) g hg

/-- What is read from tokens is in normal form. -/
theorem normal_of_parse {fs : List Function} (h : parse ts = .ok fs)
    (hsigns : SignsAllowed signed ts) : ∀ f ∈ fs, f.Normal signed := by
  obtain ⟨p, rest, rfl, rfl, -⟩ := derived_functions ts (Nat.le_refl _) h
  exact p.normal hsigns

end

/-- A number as it is spelled in a text has no sign. -/
theorem nonneg_of_isNumeral {spelling : List Char} (h : Scan.IsNumeral spelling)
    {v : Int} (hv : Numeral.Signed Numeral.Unsigned (Utf8.encode spelling) v) :
    0 ≤ v := by
  have hminus (s : Bytes) : Utf8.encode spelling ≠ byte '-' :: s := by
    intro heq
    have hchars := congrArg Utf8.chars heq
    rw [Utf8.chars_encode, Utf8.chars_ascii (by decide)] at hchars
    subst hchars
    cases h with
    | decimal hdigits => exact absurd (hdigits _ List.mem_cons_self) (by decide)
  generalize Utf8.encode spelling = s at hv hminus
  cases hv with
  | plain h => exact Int.natCast_nonneg _
  | plus h => exact Int.natCast_nonneg _
  | minus h => exact absurd rfl (hminus _)

/-- The numbers among the tokens of a text have no sign. -/
theorem noMinus_of_lex {src : Bytes} {ts : List Token} (h : lex src = .ok ts) :
    ∀ t ∈ ts, NoMinus t := by
  intro t ht hkind v hv
  rcases ((Scan.scan_eq_iff src ts).mp (lex_eq_ok_iff.mp h)).spells t ht with
      heof | ⟨region, next, hspells⟩
  · cases hkind.symm.trans heof
  · obtain ⟨hlexeme, hnumeral⟩ := hspells.isNumeral hkind
    rw [hlexeme] at hv
    exact nonneg_of_isNumeral hnumeral hv

end Grammar

end StackC
