import StackC.Compile
import StackC.Proofs.Integers
import StackC.Proofs.NormalForm

/-!
Literals and the ranges of their types. A number gets the first of three types
that it fits, and the zero that a minus sign stands for is an `int`. A character
gets the type `char` whatever its code is: the literals of type `char` are the
characters between quotes, in the order of the source, and one that is not ASCII
is outside the range of its type.
-/

namespace StackC

/-! ### The literals of a tree -/

structure IntLiteral where
  value : Cell
  ty : Option Ty
  deriving DecidableEq, Repr

namespace IntLiteral

def Fits (l : IntLiteral) : Prop :=
  ∃ t, l.ty = some t ∧ t.isInteger = true ∧ t.Has (t.number l.value)

/-- The value of a literal of type `char`. -/
def code? (l : IntLiteral) : Option Cell :=
  if l.ty = some .char then some l.value else none

end IntLiteral

mutual

/-- The integer literals of an expression, from left to right. -/
def Expr.literals : Expr → List IntLiteral
  | .int v ty => [⟨v, ty⟩]
  | .binary _ l r => l.literals ++ r.literals
  | .call _ args => exprsLiterals args
  | .addr x | .deref x => x.literals
  | .str _ | .var _ | .hole => []

def exprsLiterals : List Expr → List IntLiteral
  | [] => []
  | x :: xs => x.literals ++ exprsLiterals xs

end

mutual

def Stmt.literals : Stmt → List IntLiteral
  | .block body | .func _ _ _ body => stmtsLiterals body
  | .init _ _ value | .expr value | .ret (some value) => value.literals
  | .assign target value => target.literals ++ value.literals
  | .ifThen cond body | .whileDo cond body => cond.literals ++ body.literals
  | .ifElse cond body orElse =>
    cond.literals ++ body.literals ++ orElse.literals
  | .printf format args => format.literals ++ exprsLiterals args
  | .decl .. | .ret none | .breakLoop | .continueLoop | .hole => []

def stmtsLiterals : List Stmt → List IntLiteral
  | [] => []
  | s :: ss => s.literals ++ stmtsLiterals ss

end

/-- The integer literals of functions, in the order of the source. -/
def programLiterals (fs : List Function) : List IntLiteral :=
  fs.flatMap fun f => stmtsLiterals f.body

variable {l : IntLiteral}

theorem mem_exprsLiterals {xs : List Expr} :
    l ∈ exprsLiterals xs ↔ ∃ x ∈ xs, l ∈ x.literals := by
  induction xs with
  | nil => simp [exprsLiterals]
  | cons x xs ih => simp [exprsLiterals, ih]

theorem mem_stmtsLiterals {ss : List Stmt} :
    l ∈ stmtsLiterals ss ↔ ∃ s ∈ ss, l ∈ s.literals := by
  induction ss with
  | nil => simp [stmtsLiterals]
  | cons s ss ih => simp [stmtsLiterals, ih]

/-! ### Literals in normal form -/

/-- A literal has one of the types that literals get, and its value is of the
size that goes with it. -/
def IntLiteral.Normal (l : IntLiteral) : Prop :=
  ∃ t, l.ty = some t ∧ LiteralTy false l.value t

/-- All literals in normal form but characters are in the range of their
type. -/
theorem IntLiteral.Normal.fits (h : l.Normal) (hchar : l.ty ≠ some .char) :
    l.Fits := by
  obtain ⟨v, ty⟩ := l
  obtain ⟨t, rfl, ht⟩ := h
  refine ⟨t, rfl, ?_⟩
  cases ht with
  | char => exact absurd rfl hchar
  | int hhigh hsign =>
    have hlow : 0 ≤ v.toInt := hsign.resolve_left Bool.false_ne_true
    exact ⟨rfl, Int.le_trans (by decide) hlow, Int.le_of_lt_add_one hhigh⟩
  | long hlow => exact ⟨rfl, v.le_toInt, Int.le_of_lt_add_one v.toInt_lt⟩
  | unsignedLong hneg =>
    have hhigh : (v.toUInt64.toNat : Int) < 2 ^ 64 := by
      exact_mod_cast v.toUInt64.toNat_lt
    exact ⟨rfl, Int.natCast_nonneg _, Int.le_of_lt_add_one hhigh⟩

theorem Expr.Normal.literals {e : Expr} (h : e.Normal false) :
    ∀ l ∈ e.literals, l.Normal := by
  induction h with
  | int h =>
    intro l hl
    cases List.mem_singleton.mp hl
    exact ⟨_, rfl, h⟩
  | str | var => exact fun l hl => absurd hl List.not_mem_nil
  | binary _ _ _ ihLeft ihRight =>
    intro l hl
    exact (List.mem_append.mp hl).elim (ihLeft l) (ihRight l)
  | call _ ih =>
    intro l hl
    obtain ⟨x, hx, hl⟩ := mem_exprsLiterals.mp hl
    exact ih x hx l hl
  | addr _ ih | deref _ ih => exact ih

theorem Stmt.Normal.literals {s : Stmt} (h : s.Normal false) :
    ∀ l ∈ s.literals, l.Normal := by
  induction h with
  | block _ ih =>
    intro l hl
    obtain ⟨s, hs, hl⟩ := mem_stmtsLiterals.mp hl
    exact ih s hs l hl
  | decl | breakLoop | continueLoop =>
    exact fun l hl => absurd hl List.not_mem_nil
  | init _ hvalue => exact hvalue.literals
  | assign htarget hvalue =>
    intro l hl
    exact (List.mem_append.mp hl).elim (htarget.literals l) (hvalue.literals l)
  | @ret value hvalue =>
    cases value with
    | none => exact fun l hl => absurd hl List.not_mem_nil
    | some value => exact (hvalue value rfl).literals
  | expr h => exact h.literals
  | ifThen hcond _ ih | whileDo hcond _ ih =>
    intro l hl
    exact (List.mem_append.mp hl).elim (hcond.literals l) (ih l)
  | ifElse hcond _ _ _ ihBody ihElse =>
    intro l hl
    rcases List.mem_append.mp hl with hl | hl
    · exact (List.mem_append.mp hl).elim (hcond.literals l) (ihBody l)
    · exact ihElse l hl
  | printf hformat hargs =>
    intro l hl
    rcases List.mem_append.mp hl with hl | hl
    · exact hformat.literals l hl
    · obtain ⟨x, hx, hl⟩ := mem_exprsLiterals.mp hl
      exact (hargs x hx).literals l hl

theorem normal_of_mem_programLiterals {fs : List Function}
    (h : ∀ f ∈ fs, f.Normal false) : ∀ l ∈ programLiterals fs, l.Normal := by
  intro l hl
  obtain ⟨f, hf, hl⟩ := List.mem_flatMap.mp hl
  obtain ⟨s, hs, hl⟩ := mem_stmtsLiterals.mp hl
  exact ((h f hf).body s hs).literals l hl

/-! ### Characters -/

def Token.code? (t : Token) : Option Cell :=
  if t.kind = .character then
    (Numeral.readDecimal 64 t.lexeme).toOption.map Int64.ofInt
  else none

def tokenCodes (ts : List Token) : List Cell :=
  ts.filterMap Token.code?

def literalCodes (ls : List IntLiteral) : List Cell :=
  ls.filterMap IntLiteral.code?

theorem literalCodes_append (ls ls' : List IntLiteral) :
    literalCodes (ls ++ ls') = literalCodes ls ++ literalCodes ls' :=
  List.filterMap_append

namespace Grammar

/-- Tokens that are put in front of others have the given codes among them. -/
def Carries (before : List Token → List Token) (cs : List Cell) : Prop :=
  ∀ rest, tokenCodes (before rest) = cs ++ tokenCodes rest

variable {kind : TokenKind}

namespace Carries

variable {f g : List Token → List Token} {cs cs' : List Cell}

theorem nothing : Carries (fun rest => rest) [] :=
  fun _ => rfl

theorem comp (hf : Carries f cs) (hg : Carries g cs') :
    Carries (fun rest => f (g rest)) (cs ++ cs') := by
  intro rest
  rw [hf, hg, List.append_assoc]

theorem token {t : Token} (ht : t.kind ≠ .character) (hf : Carries f cs) :
    Carries (fun rest => t :: f rest) cs := by
  intro rest
  rw [← hf]
  exact List.filterMap_cons_none (if_neg ht)

theorem terminal (t : Terminal kind) (hkind : kind ≠ .character)
    (hf : Carries f cs) : Carries (fun rest => t.val :: f rest) cs :=
  token (t.property.symm ▸ hkind) hf

theorem congr (hf : Carries f cs) (h : cs' = cs) : Carries f cs' :=
  h ▸ hf

/-- A token without a code behind tokens that have some. -/
theorem before_terminal (hf : Carries f cs) (t : Terminal kind)
    (hkind : kind ≠ .character) : Carries (fun rest => f (t.val :: rest)) cs :=
  (hf.comp (nothing.terminal t hkind)).congr (List.append_nil cs).symm

end Carries

/-- A kind that a function knows is no character, if the function does not know
characters. -/
theorem ne_character_of_some {α : Type} {f : TokenKind → Option α} {a : α}
    (h : f kind = some a) (hcharacter : f .character = none) :
    kind ≠ .character := by
  rintro rfl
  cases hcharacter.symm.trans h

/-! ### Characters of expressions -/

abbrev exprCodes (e : Expr) : List Cell :=
  literalCodes e.literals

/-- A token that is an expression carries the characters of the expression. -/
theorem carries_atom {t : Token} {e : Expr} (h : Atom t e) :
    Carries (t :: ·) (exprCodes e) := by
  cases h with
  | integer hkind h =>
    have hnone : Carries (t :: ·) [] :=
      Carries.nothing.token (by rw [hkind]; decide)
    cases h with
    | signed =>
      split
      · exact hnone
      · exact hnone
    | unsigned => exact hnone
  | @character v hkind h hfits =>
    have hread :=
      (Numeral.readDecimal_iff (by decide) t.lexeme v).mpr ⟨h, hfits⟩
    have hcode : t.code? = some (Int64.ofInt v) := by
      rw [Token.code?, if_pos hkind, hread]
      rfl
    exact fun rest => List.filterMap_cons_some hcode
  | string hkind | name hkind =>
    exact Carries.nothing.token (by rw [hkind]; decide)

theorem exprCodes_binary (op : Operator) (l r : Expr) (cs : List Cell) :
    exprCodes (.binary op l r) ++ cs = exprCodes l ++ (exprCodes r ++ cs) := by
  rw [exprCodes, Expr.literals, literalCodes_append, List.append_assoc]

theorem literalCodes_cons (e : Expr) (es : List Expr) :
    literalCodes (exprsLiterals (e :: es)) = exprCodes e ++
      literalCodes (exprsLiterals es) :=
  literalCodes_append e.literals (exprsLiterals es)

theorem Front.exprCodes_apply (f : Front) (e : Expr) :
    exprCodes (f.apply e) = exprCodes e := by
  cases f with
  | address | content | negative => rfl

/-- The characters in the tokens of a derivation and those in its meaning are
the same ones in the same order. What follows an expression adds its own
characters to those of the expression. -/
def ExprSymbol.SameCodes :
    (s : ExprSymbol) → s.Meaning → (List Token → List Token) → Prop
  | level _, (e : Expr), before | operand, (e : Expr), before
  | primary, (e : Expr), before =>
    Carries before (exprCodes e)
  | more _, (f : Expr → Expr), before | indices, (f : Expr → Expr), before =>
    ∃ cs, Carries before cs ∧ ∀ e, exprCodes (f e) = exprCodes e ++ cs
  | args, (es : List Expr), before | list, (es : List Expr), before
  | moreArgs, (es : List Expr), before =>
    Carries before (literalCodes (exprsLiterals es))

theorem ExprTree.sameCodes {s : ExprSymbol} (d : ExprTree s) :
    s.SameCodes d.meaning d.before := by
  induction d with
  | operation first more ihFirst ihMore =>
    obtain ⟨cs, hcs, hmeaning⟩ := ihMore
    exact (ihFirst.comp hcs).congr (hmeaning first.meaning)
  | moreNone | indicesNone =>
    exact ⟨[], .nothing, fun e => (List.append_nil _).symm⟩
  | moreSome t op hop operand more ihOperand ihMore =>
    obtain ⟨cs, hcs, hmeaning⟩ := ihMore
    refine ⟨_, (ihOperand.comp hcs).token (ne_character_of_some hop rfl),
      fun e => ?_⟩
    exact (hmeaning _).trans (exprCodes_binary op e operand.meaning cs)
  | front t f hf operand ih =>
    exact (Carries.token (ne_character_of_some hf rfl) ih).congr
      (f.exprCodes_apply operand.meaning)
  | plain operand ih => exact ih
  | indexed primary indices ihPrimary ihIndices =>
    obtain ⟨cs, hcs, hmeaning⟩ := ihIndices
    exact (ihPrimary.comp hcs).congr (hmeaning primary.meaning)
  | call name left args right ih =>
    exact ((ih.before_terminal right (by decide)).terminal left
      (by decide)).terminal name (by decide)
  | indicesSome left index right more ihIndex ihMore =>
    obtain ⟨cs, hcs, hmeaning⟩ := ihMore
    have hindex := ihIndex.before_terminal right (by decide)
    refine ⟨_, (hindex.comp hcs).terminal left (by decide), fun e => ?_⟩
    exact (hmeaning _).trans (exprCodes_binary .add e index.meaning cs)
  | atom t e he => exact carries_atom he
  | paren left inner right ih =>
    exact (ih.before_terminal right (by decide)).terminal left (by decide)
  | argsNone | moreArgsNone => exact .nothing
  | argsSome given ih => exact ih
  | list first more ihFirst ihMore =>
    exact (ihFirst.comp ihMore).congr
      (literalCodes_cons first.meaning more.meaning)
  | moreArgsSome comma next more ihNext ihMore =>
    exact ((ihNext.comp ihMore).terminal comma (by decide)).congr
      (literalCodes_cons next.meaning more.meaning)

/-! ### Characters of types -/

theorem carries_optional (hkind : kind ≠ .character)
    (o : Option (Terminal kind)) : Carries (optional o) [] := by
  cases o with
  | none => exact .nothing
  | some t => exact Carries.nothing.terminal t hkind

theorem BaseTree.carries (b : BaseTree) : Carries b.before [] := by
  cases b with
  | char word | int word => exact Carries.nothing.terminal word (by decide)
  | short word tail =>
    exact (carries_optional (by decide) tail).terminal word (by decide)
  | long word again tail =>
    exact ((carries_optional (by decide) again).comp
      (carries_optional (by decide) tail)).terminal word (by decide)

theorem Specifier.carries (s : Specifier) : Carries s.before [] := by
  cases s with
  | sign s => exact Carries.nothing.token (ne_character_of_some s.h rfl)
  | base b => exact b.carries
  | signedBase s b => exact b.carries.token (ne_character_of_some s.h rfl)
  | void word => exact Carries.nothing.terminal word (by decide)

theorem ParamTree.carries (p : ParamTree) : Carries p.before [] := by
  have hname : Carries (p.name.val :: ·) [] :=
    Carries.nothing.terminal p.name (by decide)
  refine p.specifier.carries.comp ?_
  induction p.stars with
  | nil => exact hname
  | cons star stars ih => exact ih.terminal star (by decide)

theorem ParamsTree.carries (ps : ParamsTree) : Carries ps.before [] := by
  cases ps with
  | void word => exact Carries.nothing.terminal word (by decide)
  | none => exact .nothing
  | some first more =>
    refine first.carries.comp ?_
    induction more with
    | nil => exact .nothing
    | cons p more ih => exact (p.2.carries.comp ih).terminal p.1 (by decide)

theorem SimpleTree.carries_size (size : Option SizeTree) :
    Carries (sizeBefore size) [] := by
  cases size with
  | none => exact .nothing
  | some s =>
    exact ((Carries.nothing.terminal s.right (by decide)).terminal s.token
      (by decide)).terminal s.left (by decide)

/-! ### Characters of statements and functions -/

abbrev stmtCodes (s : Stmt) : List Cell :=
  literalCodes s.literals

theorem CondTree.carries (c : CondTree) :
    Carries c.before (exprCodes c.inner.meaning) :=
  (c.inner.sameCodes.before_terminal c.right (by decide)).terminal c.left
    (by decide)

theorem SimpleTree.carries (s : SimpleTree) :
    Carries s.before (stmtCodes s.meaning) := by
  cases s with
  | ret word value =>
    cases value with
    | none => exact Carries.nothing.terminal word (by decide)
    | some value => exact Carries.terminal word (by decide) value.sameCodes
  | leave word s hword =>
    have hnone : Carries (word :: ·) [] :=
      Carries.nothing.token (ne_character_of_some hword rfl)
    unfold word? at hword
    split at hword <;> cases hword <;> exact hnone
  | print word left list right =>
    cases list with
    | list first more =>
      have hlist :=
        (first.sameCodes.comp more.sameCodes).congr (literalCodes_append _ _)
      exact ((hlist.before_terminal right (by decide)).terminal left
        (by decide)).terminal word (by decide)
  | declare param size value =>
    have hdeclared := param.carries.comp (carries_size size)
    cases value with
    | none => exact hdeclared
    | some v =>
      exact hdeclared.comp
        (Carries.terminal v.assign (by decide) v.value.sameCodes)
  | assign target value =>
    cases value with
    | none => exact target.sameCodes
    | some v =>
      have hvalue := Carries.terminal v.assign (by decide) v.value.sameCodes
      exact (target.sameCodes.comp hvalue).congr (literalCodes_append _ _)

/-- The same for what is derived inside statements. -/
def StmtSymbol.SameCodes :
    (s : StmtSymbol) → s.Meaning → (List Token → List Token) → Prop
  | statement _, (s : Stmt), before => Carries before (stmtCodes s)
  | statements, (ss : List Stmt), before =>
    Carries before (literalCodes (stmtsLiterals ss))

theorem StmtTree.sameCodes {s : StmtSymbol} (d : StmtTree s) :
    s.SameCodes d.meaning d.before := by
  induction d with
  | simple s semicolon => exact s.carries.before_terminal semicolon (by decide)
  | block left body right ih =>
    exact (ih.before_terminal right (by decide)).terminal left (by decide)
  | ifThen word cond body ih | whileDo word cond body ih =>
    exact ((cond.carries.comp ih).terminal word (by decide)).congr
      (literalCodes_append _ _)
  | ifElse word cond body elseWord orElse ihBody ihElse =>
    have hcond := cond.carries.comp ihBody
    have helse := Carries.terminal elseWord (by decide) ihElse
    refine ((hcond.comp helse).terminal word (by decide)).congr ?_
    exact (literalCodes_append _ _).trans
      (congrArg (· ++ _) (literalCodes_append _ _))
  | nil => exact .nothing
  | cons first more ihFirst ihMore =>
    exact (ihFirst.comp ihMore).congr (literalCodes_append _ _)

theorem FunctionTree.carries (f : FunctionTree) :
    Carries f.before (literalCodes (stmtsLiterals f.meaning.body)) := by
  have hbody :=
    (f.body.sameCodes.before_terminal f.rightBrace (by decide)).terminal
      f.leftBrace (by decide)
  have hparams := f.params.carries.comp (hbody.terminal f.right (by decide))
  exact f.head.carries.comp (hparams.terminal f.left (by decide))

theorem ProgramTree.carries (p : ProgramTree) :
    Carries p.before (literalCodes (programLiterals p.meaning)) := by
  induction p with
  | nil => exact .nothing
  | cons f p ih => exact (f.carries.comp ih).congr (literalCodes_append _ _)

end Grammar

/-! ### Characters of texts -/

namespace Scan

theorem ne_eof_ite {b : Bool} {kind : TokenKind} {other : Option TokenKind}
    (hkind : kind ≠ .eof) (hother : other.getD .identifier ≠ .eof) :
    (if b = true then some kind else other).getD .identifier ≠ .eof := by
  split
  · exact hkind
  · exact hother

variable {t : Token}

theorem Spells.kind_ne_eof {region : List Char} {next : Option Char}
    (h : Spells t region next) : t.kind ≠ .eof := by
  cases h with
  | word =>
    show (TokenKind.ofWord? _).getD .identifier ≠ .eof
    rw [TokenKind.ofWord?]
    repeat refine ne_eof_ite (by decide) ?_
    decide
  | number | string | character => exact TokenKind.noConfusion
  | pair hpair =>
    unfold TokenKind.ofPair? at hpair
    split at hpair <;> cases hpair <;> exact TokenKind.noConfusion
  | mark hmark =>
    unfold TokenKind.ofMark? at hmark
    split at hmark <;> cases hmark <;> exact TokenKind.noConfusion

/-- The end is the last token of a text. -/
theorem Tiles.behind_eof {src : List Char} {pos : Nat} {us vs : List Token}
    (h : Tiles src pos (us ++ t :: vs)) (ht : t.kind = .eof) : vs = [] := by
  generalize hts : us ++ t :: vs = ts at h
  induction h generalizing us with
  | last hpos hgap =>
    have hlength := congrArg List.length hts
    rw [List.length_append, List.length_cons, List.length_singleton] at hlength
    exact List.eq_nil_of_length_eq_zero (by omega)
  | next hstart hstop hend hgap hregion hline hrest ih =>
    cases us with
    | nil =>
      cases hts
      exact absurd ht hregion.kind_ne_eof
    | cons u us => exact ih (List.cons.inj hts).2

/-- The text of a character token is the code of the character between the
quotes. -/
theorem Spells.character_lexeme {region : List Char} {next : Option Char}
    (h : Spells t region next) (hkind : t.kind = .character) :
    ∃ c : Char, t.lexeme = Numeral.decimalNat c.toNat := by
  rcases h.literal_cases (by rw [hkind]; rfl) with
      ⟨hother, -⟩ | hother | ⟨-, hcharacter⟩
  · cases hkind.symm.trans hother
  · cases hkind.symm.trans hother
  · exact hcharacter

end Scan

theorem Numeral.readDecimal_decimalNat {n : Nat} (h : n < 9223372036854775808) :
    readDecimal 64 (decimalNat n) = .ok n := by
  have hpadded : zeroPadded 0 n = decimalNat n := by
    show List.replicate (0 - (decimalNat n).length) _ ++ decimalNat n = _
    rw [Nat.zero_sub]
    rfl
  rw [← hpadded]
  exact readDecimal_zeroPadded h

def characterTexts (ts : List Token) : List Bytes :=
  (ts.filter (·.kind == .character)).map (·.lexeme)

def codeCell (c : Char) : Cell :=
  Int64.ofNat c.toNat

theorem toNat_lt_two_pow (c : Char) : c.toNat < 2 ^ 63 :=
  Nat.lt_trans c.val.toNat_lt (by decide)

theorem toInt_codeCell (c : Char) : (codeCell c).toInt = c.toNat :=
  Int64.toInt_ofNat_of_lt (toNat_lt_two_pow c)

/-- Character tokens whose texts are codes of characters have these codes. -/
theorem exists_characters {ts : List Token}
    (h : ∀ t ∈ ts, t.kind = .character →
      ∃ c : Char, t.lexeme = Numeral.decimalNat c.toNat) :
    ∃ cs : List Char,
      characterTexts ts = cs.map (fun c => Numeral.decimalNat c.toNat) ∧
    tokenCodes ts = cs.map codeCell := by
  induction ts with
  | nil => exact ⟨[], rfl, rfl⟩
  | cons t ts ih =>
    obtain ⟨cs, htexts, hcodes⟩ :=
      ih fun u hu => h u (List.mem_cons_of_mem t hu)
    by_cases hkind : t.kind = .character
    · obtain ⟨c, hc⟩ := h t List.mem_cons_self hkind
      have hcode : t.code? = some (codeCell c) := by
        rw [Token.code?, if_pos hkind, hc,
          Numeral.readDecimal_decimalNat (toNat_lt_two_pow c)]
        exact congrArg some Int64.ofInt_eq_ofNat
      refine ⟨c :: cs, ?_, ?_⟩
      · rw [characterTexts, List.filter_cons_of_pos (by simpa using hkind),
          List.map_cons, hc]
        exact congrArg _ htexts
      · exact (List.filterMap_cons_some hcode).trans (congrArg _ hcodes)
    · have hnone : t.code? = none := if_neg hkind
      refine ⟨cs, ?_, (List.filterMap_cons_none hnone).trans hcodes⟩
      rw [characterTexts, List.filter_cons_of_neg (by simpa using hkind)]
      exact htexts

/-- What is parsed from a text has the characters of the text, in their
order. -/
theorem codes_of_parse {src : Bytes} {ts : List Token} {fs : List Function}
    (hlex : lex src = .ok ts) (hparse : parse ts = .ok fs) :
    literalCodes (programLiterals fs) = tokenCodes ts := by
  obtain ⟨p, rest, rfl, rfl, hend⟩ :=
    Grammar.derived_functions ts (Nat.le_refl _) hparse
  rw [p.carries rest]
  have hnone : tokenCodes rest = [] := by
    cases rest with
    | nil => rfl
    | cons t rest =>
      have htiles := (lex_eq_ok_iff_tiles src _).mp hlex
      obtain ⟨us, -, hbefore⟩ := p.prepends
      have hkind : t.kind = .eof := hend
      rw [hbefore] at htiles
      rw [htiles.behind_eof hkind]
      exact List.filterMap_cons_none (if_neg (by rw [hkind]; decide))
  rw [hnone, List.append_nil]

theorem fits_char_iff (c : Char) :
    IntLiteral.Fits ⟨codeCell c, some .char⟩ ↔ c.toNat < 128 := by
  have hvalue := toInt_codeCell c
  constructor
  · rintro ⟨t, ht, -, hhas⟩
    cases ht
    have hhigh : (codeCell c).toInt ≤ 127 := hhas.2
    omega
  · intro hc
    have hlow : -128 ≤ (codeCell c).toInt := by omega
    have hhigh : (codeCell c).toInt ≤ 127 := by omega
    exact ⟨.char, rfl, rfl, hlow, hhigh⟩

/-- Which literals of a text that is scanned and parsed are in the range of
their types. Those that are not of type `char` are. Those of type `char` are the
characters `cs` between the quotes of the text, in their order, with their codes
as values. So all literals are in the range of their types exactly if every
character between quotes is ASCII. -/
theorem literals_fit_iff_ascii {src : Bytes} {ts : List Token}
    {fs : List Function} (hlex : lex src = .ok ts)
    (hparse : parse ts = .ok fs) :
    (∀ l ∈ programLiterals fs, l.ty ≠ some .char → l.Fits) ∧
      ∃ cs : List Char,
        characterTexts ts = cs.map (fun c => Numeral.decimalNat c.toNat) ∧
      literalCodes (programLiterals fs) = cs.map codeCell ∧
      ((∀ l ∈ programLiterals fs, l.Fits) ↔ ∀ c ∈ cs, c.toNat < 128) := by
  have hnormal : ∀ l ∈ programLiterals fs, l.Normal :=
    normal_of_mem_programLiterals
      (Grammar.normal_of_parse hparse (Or.inr (Grammar.noMinus_of_lex hlex)))
  have hlexemes : ∀ t ∈ ts, t.kind = .character →
      ∃ c : Char, t.lexeme = Numeral.decimalNat c.toNat := by
    intro t ht hkind
    rcases ((lex_eq_ok_iff_tiles src ts).mp hlex).spells t ht with
        heof | ⟨region, next, hspells⟩
    · cases hkind.symm.trans heof
    · exact hspells.character_lexeme hkind
  obtain ⟨cs, htexts, hcodes⟩ := exists_characters hlexemes
  rw [← codes_of_parse hlex hparse] at hcodes
  have hmem (v : Cell) : ⟨v, some .char⟩ ∈ programLiterals fs ↔
      ∃ c ∈ cs, codeCell c = v := by
    rw [← List.mem_map, ← hcodes, literalCodes, List.mem_filterMap]
    constructor
    · exact fun h => ⟨_, h, rfl⟩
    · rintro ⟨⟨w, ty⟩, hl, hcode⟩
      rw [IntLiteral.code?] at hcode
      obtain ⟨hty, hcode⟩ := Option.ite_none_right_eq_some.mp hcode
      cases hcode
      exact hty ▸ hl
  refine ⟨fun l hl hchar => (hnormal l hl).fits hchar, cs, htexts, hcodes,
    fun hall c hc => ?_, fun hascii l hl => ?_⟩
  · exact (fits_char_iff c).mp (hall _ ((hmem _).mpr ⟨c, hc, rfl⟩))
  · by_cases hchar : l.ty = some .char
    · obtain ⟨v, ty⟩ := l
      cases hchar
      obtain ⟨c, hc, rfl⟩ := (hmem v).mp hl
      exact (fits_char_iff c).mpr (hascii c hc)
    · exact (hnormal l hl).fits hchar

/-- The literals of a source text, if it is scanned and parsed. -/
def sourceLiterals? (src : Bytes) : Option (List IntLiteral) := do
  let ts ← (lex src).toOption
  let fs ← (parse ts).toOption
  return programLiterals fs

theorem of_sourceLiterals? {src : Bytes} {ls : List IntLiteral}
    (h : sourceLiterals? src = some ls) :
    ∃ ts fs, lex src = .ok ts ∧ parse ts = .ok fs ∧
      programLiterals fs = ls := by
  obtain ⟨ts, hts, h⟩ := Option.bind_eq_some_iff.mp h
  obtain ⟨fs, hfs, h⟩ := Option.bind_eq_some_iff.mp h
  exact ⟨ts, fs, ok_of_toOption hts, ok_of_toOption hfs, Option.some.inj h⟩

/-- A minus sign, the last visible ASCII character, an escaped one, and the
greatest number of each type. -/
def widestLiterals : Bytes :=
  text "int main() \x7b return -'~' + '\\n' + 2147483647 + " ++
    text "0x7fffffffffffffff + 0xffffffffffffffff; \x7d"

theorem literals_fit_iff_ascii_widestLiterals :
    ∃ ts fs, lex widestLiterals = .ok ts ∧ parse ts = .ok fs ∧
      programLiterals fs = [⟨0, some .int⟩, ⟨126, some .char⟩, ⟨10, some .char⟩,
        ⟨2147483647, some .int⟩, ⟨9223372036854775807, some .long⟩,
        ⟨-1, some .unsignedLong⟩] ∧
      ∀ l ∈ programLiterals fs, l.Fits := by
  obtain ⟨ts, fs, hlex, hparse, hls⟩ :=
    of_sourceLiterals?
      (show sourceLiterals? widestLiterals =
        some [⟨0, some .int⟩, ⟨126, some .char⟩, ⟨10, some .char⟩,
          ⟨2147483647, some .int⟩, ⟨9223372036854775807, some .long⟩,
          ⟨-1, some .unsignedLong⟩] by decide +kernel)
  refine ⟨ts, fs, hlex, hparse, hls, ?_⟩
  obtain ⟨-, cs, -, hcodes, hall⟩ := literals_fit_iff_ascii hlex hparse
  refine hall.mpr fun c hc => ?_
  have hcode : codeCell c ∈ literalCodes (programLiterals fs) :=
    hcodes ▸ List.mem_map_of_mem hc
  have hcodes : literalCodes (programLiterals fs) = [126, 10] := by
    rw [hls]
    decide +kernel
  rw [hcodes, List.mem_pair] at hcode
  have htoNat : (codeCell c).toInt = 126 ∨ (codeCell c).toInt = 10 :=
    hcode.imp (congrArg Int64.toInt) (congrArg Int64.toInt)
  rw [toInt_codeCell] at htoNat
  omega

/-- What is read from a variable of type `char` with the given initial value. -/
def charResult? (value : Bytes) : Option Cell := do
  let p ← (compileExpanded
    (text "int main() \x7b char c = " ++ value ++
      text "; return c; \x7d")).toOption
  (p.run { maxSteps := 100 }).2.toOption

/-- A character that is not ASCII is a literal outside the range of its type. No
conversion is emitted where it becomes the value of a variable of type `char`,
so that the variable holds 233; from the number 233 it gets -23. -/
theorem wide_characters_do_not_fit :
    (∃ ts fs, lex (text "int main() \x7b return 'é'; \x7d") = .ok ts ∧
      parse ts = .ok fs ∧ programLiterals fs = [⟨233, some .char⟩] ∧
      ¬ ∀ l ∈ programLiterals fs, l.Fits) ∧
    charResult? (text "'é'") = some 233 ∧
    charResult? (text "233") = some (-23) := by
  refine ⟨?_, by decide +kernel, by decide +kernel⟩
  obtain ⟨ts, fs, hlex, hparse, hls⟩ :=
    @of_sourceLiterals? (text "int main() \x7b return 'é'; \x7d")
      [⟨233, some .char⟩] (by decide +kernel)
  refine ⟨ts, fs, hlex, hparse, hls, fun hall => ?_⟩
  have hcode : codeCell 'é' = 233 := by decide +kernel
  rw [hls, ← hcode] at hall
  exact absurd ((fits_char_iff 'é').mp (hall _ List.mem_cons_self)) (by decide)

end StackC
