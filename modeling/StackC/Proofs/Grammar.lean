import StackC.Proofs.NumeralSyntax
import StackC.Tree.ParseStmt

/-!
The grammar of programs. A tree shows how tokens are derived: it holds all of
them, and it has a meaning.

    program    = function*
    function   = type IDENTIFIER "(" params ")" block
    params     = "void" | (type IDENTIFIER ("," type IDENTIFIER)*)?
    type       = (sign | sign? base | "void") "*"*
    sign       = "unsigned" | "signed"
    base       = "char" | "short" "int"? | "int" | "long" "long"? "int"?
    block      = "{" statement* "}"
    statement  = block | "if" "(" expression ")" statement ("else" statement)?
               | "while" "(" expression ")" statement | "return" expression? ";"
               | "break" ";" | "continue" ";" | "printf" "(" list ")" ";"
               | type IDENTIFIER ("[" INTEGER "]")? ("=" expression)? ";"
               | expression ("=" expression)? ";"
    list       = expression ("," expression)*
    expression = equality
    equality   = relation (("==" | "!=") relation)*
    relation   = sum (("<" | ">" | "<=" | ">=") sum)*
    sum        = product (("+" | "-") product)*
    product    = unary (("*" | "/" | "%") unary)*
    unary      = ("&" | "*" | "-") unary | operand
    operand    = primary ("[" expression "]")* | IDENTIFIER "(" list? ")"
    primary    = INTEGER | CHARACTER | STRING | IDENTIFIER | "(" expression ")"

An `else` belongs to the nearest `if` that has none: a statement is open if an
`else` behind it would belong to it, and what stands between `if` and `else` is
not open.
-/

namespace StackC

namespace Grammar

abbrev Terminal (kind : TokenKind) : Type :=
  { t : Token // t.kind = kind }

def optional {kind : TokenKind} :
    Option (Terminal kind) → List Token → List Token
  | none, rest => rest
  | some t, rest => t.val :: rest

/-- The value and the type of an integer literal: it is an `int` if it fits,
else a `long`, else an `unsigned long`, and then it has no sign. -/
inductive Literal (s : Bytes) : Expr → Prop
  | signed {v : Int} (h : Numeral.Signed Numeral.Unsigned s v)
    (hfits : Numeral.Fits 64 v) :
    Literal s (.int (Int64.ofInt v) (some (if v < 2 ^ 31 then .int else .long)))
  | unsigned {n : Nat} (h : Numeral.Unsigned s n) (hlow : 2 ^ 63 ≤ n)
    (hhigh : n < 2 ^ 64) : Literal s (.int (Int64.ofNat n) (some .unsignedLong))

/-- A token that is an expression. The text of a character is its code in
decimal. -/
inductive Atom (t : Token) : Expr → Prop
  | integer {e : Expr} (hkind : t.kind = .integer) (h : Literal t.lexeme e) :
    Atom t e
  | character {v : Int} (hkind : t.kind = .character)
    (h : Numeral.Signed Numeral.Decimal t.lexeme v)
    (hfits : Numeral.Fits 64 v) : Atom t (.int (Int64.ofInt v) (some .char))
  | string (hkind : t.kind = .string) : Atom t (.str t.lexeme)
  | name (hkind : t.kind = .identifier) : Atom t (.var t.lexeme)

/-- The operators between operands, with the levels of their operands: those of
level 0 bind tightest. -/
def operator? : TokenKind → Option (Nat × Operator)
  | .star => some (0, .mul)
  | .slash => some (0, .div)
  | .percent => some (0, .mod)
  | .plus => some (1, .add)
  | .minus => some (1, .sub)
  | .less => some (2, .lt)
  | .greater => some (2, .gt)
  | .lessEqual => some (2, .le)
  | .greaterEqual => some (2, .ge)
  | .equal => some (3, .eq)
  | .notEqual => some (3, .ne)
  | _ => none

/-- The operators in front of an operand. -/
inductive Front where
  | address | content | negative

/-- What an operator in front of an operand means; `-x` is `0 - x`. -/
def Front.apply : Front → Expr → Expr
  | address, e => .addr e
  | content, e => .deref e
  | negative, e => .binary .sub (.int 0 (some .int)) e

def front? : TokenKind → Option Front
  | .ampersand => some .address
  | .star => some .content
  | .minus => some .negative
  | _ => none

/-- What is derived inside expressions. Level 0 is `unary`, and the operators of
level `n` stand between operands of level `n`; with them they are of level `n +
1`. -/
inductive ExprSymbol where
  | level (n : Nat)
  | more (n : Nat)
  | operand
  | indices
  | primary
  | args
  | list
  | moreArgs

namespace ExprSymbol

/-- Expressions: their operators are of all four levels. -/
abbrev expression : ExprSymbol :=
  .level 4

/-- What a symbol means. Operators and operands that follow an expression change
its meaning. -/
def Meaning : ExprSymbol → Type
  | level _ | operand | primary => Expr
  | more _ | indices => Expr → Expr
  | args | list | moreArgs => List Expr

end ExprSymbol

inductive ExprTree : ExprSymbol → Type
  | operation {n : Nat} (first : ExprTree (.level n))
    (more : ExprTree (.more n)) : ExprTree (.level (n + 1))
  | moreNone {n : Nat} : ExprTree (.more n)
  | moreSome {n : Nat} (t : Token) (op : Operator)
    (h : operator? t.kind = some (n, op)) (operand : ExprTree (.level n))
    (more : ExprTree (.more n)) : ExprTree (.more n)
  | front (t : Token) (f : Front) (h : front? t.kind = some f)
    (operand : ExprTree (.level 0)) : ExprTree (.level 0)
  | plain (operand : ExprTree .operand) : ExprTree (.level 0)
  | indexed (primary : ExprTree .primary) (indices : ExprTree .indices) :
    ExprTree .operand
  | call (name : Terminal .identifier) (left : Terminal .lparen)
    (args : ExprTree .args) (right : Terminal .rparen) : ExprTree .operand
  | indicesNone : ExprTree .indices
  | indicesSome (left : Terminal .lbracket) (index : ExprTree .expression)
    (right : Terminal .rbracket) (more : ExprTree .indices) : ExprTree .indices
  | atom (t : Token) (e : Expr) (h : Atom t e) : ExprTree .primary
  | paren (left : Terminal .lparen) (inner : ExprTree .expression)
    (right : Terminal .rparen) : ExprTree .primary
  | argsNone : ExprTree .args
  | argsSome (given : ExprTree .list) : ExprTree .args
  | list (first : ExprTree .expression) (more : ExprTree .moreArgs) :
    ExprTree .list
  | moreArgsNone : ExprTree .moreArgs
  | moreArgsSome (comma : Terminal .comma) (next : ExprTree .expression)
    (more : ExprTree .moreArgs) : ExprTree .moreArgs

namespace ExprTree

def before {s : ExprSymbol} : ExprTree s → List Token → List Token
  | operation first more, rest => first.before (more.before rest)
  | moreNone, rest => rest
  | moreSome t _ _ operand more, rest => t :: operand.before (more.before rest)
  | front t _ _ operand, rest => t :: operand.before rest
  | plain operand, rest => operand.before rest
  | indexed primary indices, rest => primary.before (indices.before rest)
  | call name left args right, rest =>
    name.val :: left.val :: args.before (right.val :: rest)
  | indicesNone, rest => rest
  | indicesSome left index right more, rest =>
    left.val :: index.before (right.val :: more.before rest)
  | atom t _ _, rest => t :: rest
  | paren left inner right, rest => left.val :: inner.before (right.val :: rest)
  | argsNone, rest => rest
  | argsSome given, rest => given.before rest
  | list first more, rest => first.before (more.before rest)
  | moreArgsNone, rest => rest
  | moreArgsSome comma next more, rest =>
    comma.val :: next.before (more.before rest)

/-- What a derivation means. Operators associate to the left, and `a[i]` is `*(a
+ i)`. -/
def meaning {s : ExprSymbol} : ExprTree s → s.Meaning
  | operation first more => more.meaning first.meaning
  | moreNone => id
  | moreSome _ op _ operand more =>
    fun left => more.meaning (.binary op left operand.meaning)
  | front _ f _ operand => f.apply operand.meaning
  | plain operand => operand.meaning
  | indexed primary indices => indices.meaning primary.meaning
  | call name _ args _ => .call name.val.lexeme args.meaning
  | indicesNone => id
  | indicesSome _ index _ more =>
    fun e => more.meaning (.deref (.binary .add e index.meaning))
  | atom _ e _ => e
  | paren _ inner _ => inner.meaning
  | argsNone => []
  | argsSome given => given.meaning
  | list first more => first.meaning :: more.meaning
  | moreArgsNone => []
  | moreArgsSome _ next more => next.meaning :: more.meaning

end ExprTree

/-- The signs of types; the answer tells whether it is `unsigned`. -/
def sign? : TokenKind → Option Bool
  | .unsigned => some true
  | .signed => some false
  | _ => none

/-- `unsigned` or `signed`. -/
structure Sign where
  token : Token
  unsigned : Bool
  h : sign? token.kind = some unsigned

/-- The spellings of integer types. -/
inductive BaseTree where
  | char (word : Terminal .char)
  | short (word : Terminal .short) (tail : Option (Terminal .int))
  | int (word : Terminal .int)
  | long (word : Terminal .long) (again : Option (Terminal .long))
    (tail : Option (Terminal .int))

namespace BaseTree

def before : BaseTree → List Token → List Token
  | char word, rest => word.val :: rest
  | short word tail, rest => word.val :: optional tail rest
  | int word, rest => word.val :: rest
  | long word again tail, rest =>
    word.val :: optional again (optional tail rest)

def meaning : BaseTree → Base
  | char _ => .char
  | short _ _ => .short
  | int _ => .int
  | long _ _ _ => .long

end BaseTree

/-- A type without stars: a sign, a base or both; `void` has no sign. -/
inductive Specifier where
  | sign (s : Sign)
  | base (b : BaseTree)
  | signedBase (s : Sign) (b : BaseTree)
  | void (word : Terminal .void)

namespace Specifier

def before : Specifier → List Token → List Token
  | sign s, rest => s.token :: rest
  | base b, rest => b.before rest
  | signedBase s b, rest => s.token :: b.before rest
  | void word, rest => word.val :: rest

def meaning : Specifier → Ty
  | sign s => .base .int s.unsigned
  | base b => .base b.meaning false
  | signedBase s b => .base b.meaning s.unsigned
  | void _ => .void

end Specifier

structure ParamTree where
  specifier : Specifier
  stars : List (Terminal .star)
  name : Terminal .identifier

namespace ParamTree

def before (p : ParamTree) (rest : List Token) : List Token :=
  p.specifier.before (p.stars.map Subtype.val ++ p.name.val :: rest)

def meaning (p : ParamTree) : Param where
  ty := p.stars.foldl (fun ty _ => .pointer ty) p.specifier.meaning
  name := p.name.val.lexeme

end ParamTree

inductive ParamsTree where
  | void (word : Terminal .void)
  | none
  | some (first : ParamTree) (more : List (Terminal .comma × ParamTree))

namespace ParamsTree

def moreBefore (more : List (Terminal .comma × ParamTree)) (rest : List Token) :
    List Token :=
  more.foldr (fun p rest => p.1.val :: p.2.before rest) rest

def before : ParamsTree → List Token → List Token
  | void word, rest => word.val :: rest
  | none, rest => rest
  | some first more, rest => first.before (moreBefore more rest)

def meaning : ParamsTree → List Param
  | void _ | none => []
  | some first more => first.meaning :: more.map fun p => p.2.meaning

end ParamsTree

structure SizeTree where
  left : Terminal .lbracket
  token : Terminal .integer
  size : Int
  h : Numeral.Signed Numeral.Unsigned token.val.lexeme size ∧
    Numeral.Fits 32 size
  right : Terminal .rbracket

structure ValueTree where
  assign : Terminal .assign
  value : ExprTree .expression

structure CondTree where
  left : Terminal .lparen
  inner : ExprTree .expression
  right : Terminal .rparen

def CondTree.before (c : CondTree) (rest : List Token) : List Token :=
  c.left.val :: c.inner.before (c.right.val :: rest)

def word? : TokenKind → Option Stmt
  | .breakWord => some .breakLoop
  | .continueWord => some .continueLoop
  | _ => none

/-- Statements without statements in them, up to the semicolon. -/
inductive SimpleTree where
  | ret (word : Terminal .returnWord) (value : Option (ExprTree .expression))
  | leave (word : Token) (s : Stmt) (h : word? word.kind = some s)
  | print (word : Terminal .printf) (left : Terminal .lparen)
    (list : ExprTree .list) (right : Terminal .rparen)
  | declare (param : ParamTree) (size : Option SizeTree)
    (value : Option ValueTree)
  | assign (target : ExprTree .expression) (value : Option ValueTree)

namespace SimpleTree

def valueBefore : Option ValueTree → List Token → List Token
  | none, rest => rest
  | some v, rest => v.assign.val :: v.value.before rest

def sizeBefore : Option SizeTree → List Token → List Token
  | none, rest => rest
  | some s, rest => s.left.val :: s.token.val :: s.right.val :: rest

def before : SimpleTree → List Token → List Token
  | ret word none, rest => word.val :: rest
  | ret word (some value), rest => word.val :: value.before rest
  | leave word _ _, rest => word :: rest
  | print word left list right, rest =>
    word.val :: left.val :: list.before (right.val :: rest)
  | declare param size value, rest =>
    param.before (sizeBefore size (valueBefore value rest))
  | assign target value, rest => target.before (valueBefore value rest)

def sizeMeaning (ty : Ty) : Option SizeTree → Ty
  | none => ty
  | some s => .array ty (Int64.ofInt s.size)

def meaning : SimpleTree → Stmt
  | ret _ value => .ret (value.map ExprTree.meaning)
  | leave _ s _ => s
  | print _ _ (.list first more) _ => .printf first.meaning more.meaning
  | declare param size none =>
    .decl (sizeMeaning param.meaning.ty size) param.meaning.name
  | declare param size (some v) =>
    .init (sizeMeaning param.meaning.ty size) param.meaning.name
      v.value.meaning
  | assign target none => .expr target.meaning
  | assign target (some v) => .assign target.meaning v.value.meaning

end SimpleTree

inductive StmtSymbol where
  | statement (isOpen : Bool)
  | statements

namespace StmtSymbol

def Meaning : StmtSymbol → Type
  | statement _ => Stmt
  | statements => List Stmt

end StmtSymbol

inductive StmtTree : StmtSymbol → Type
  | simple (s : SimpleTree) (semicolon : Terminal .semicolon) :
    StmtTree (.statement false)
  | block (left : Terminal .lbrace) (body : StmtTree .statements)
    (right : Terminal .rbrace) : StmtTree (.statement false)
  | ifThen {isOpen : Bool} (word : Terminal .ifWord) (cond : CondTree)
    (body : StmtTree (.statement isOpen)) : StmtTree (.statement true)
  | ifElse {isOpen : Bool} (word : Terminal .ifWord) (cond : CondTree)
    (body : StmtTree (.statement false)) (elseWord : Terminal .elseWord)
    (orElse : StmtTree (.statement isOpen)) : StmtTree (.statement isOpen)
  | whileDo {isOpen : Bool} (word : Terminal .whileWord) (cond : CondTree)
    (body : StmtTree (.statement isOpen)) : StmtTree (.statement isOpen)
  | nil : StmtTree .statements
  | cons {isOpen : Bool} (first : StmtTree (.statement isOpen))
    (more : StmtTree .statements) : StmtTree .statements

namespace StmtTree

def before {s : StmtSymbol} : StmtTree s → List Token → List Token
  | simple s semicolon, rest => s.before (semicolon.val :: rest)
  | block left body right, rest => left.val :: body.before (right.val :: rest)
  | ifThen word cond body, rest => word.val :: cond.before (body.before rest)
  | ifElse word cond body elseWord orElse, rest =>
    word.val :: cond.before (body.before (elseWord.val :: orElse.before rest))
  | whileDo word cond body, rest => word.val :: cond.before (body.before rest)
  | nil, rest => rest
  | cons first more, rest => first.before (more.before rest)

def meaning {s : StmtSymbol} : StmtTree s → s.Meaning
  | simple s _ => s.meaning
  | block _ body _ => Stmt.block body.meaning
  | ifThen _ cond body => Stmt.ifThen cond.inner.meaning body.meaning
  | ifElse _ cond body _ orElse =>
    Stmt.ifElse cond.inner.meaning body.meaning orElse.meaning
  | whileDo _ cond body => Stmt.whileDo cond.inner.meaning body.meaning
  | nil => []
  | cons first more => first.meaning :: more.meaning

/-- A token does not go on with a statement: an open one is not followed by
`else`. -/
def Closed (isOpen : Bool) (kind : TokenKind) : Prop :=
  isOpen = true → kind ≠ .elseWord

end StmtTree

structure FunctionTree where
  head : ParamTree
  left : Terminal .lparen
  params : ParamsTree
  right : Terminal .rparen
  leftBrace : Terminal .lbrace
  body : StmtTree .statements
  rightBrace : Terminal .rbrace

namespace FunctionTree

def before (f : FunctionTree) (rest : List Token) : List Token :=
  f.head.before
    (f.left.val :: f.params.before
      (f.right.val :: f.leftBrace.val :: f.body.before
        (f.rightBrace.val :: rest)))

def meaning (f : FunctionTree) : Function where
  ret := f.head.meaning.ty
  name := f.head.meaning.name
  params := f.params.meaning
  body := f.body.meaning

end FunctionTree

abbrev ProgramTree : Type :=
  List FunctionTree

namespace ProgramTree

def before (p : ProgramTree) (rest : List Token) : List Token :=
  p.foldr FunctionTree.before rest

def tokens (p : ProgramTree) : List Token :=
  p.before []

def meaning (p : ProgramTree) : List Function :=
  p.map FunctionTree.meaning

end ProgramTree

/-- A function puts tokens in front of others, always the same ones, and the end
is not among them. -/
def Prepends (f : List Token → List Token) : Prop :=
  ∃ ts : List Token, (∀ t ∈ ts, t.kind ≠ .eof) ∧ ∀ rest, f rest = ts ++ rest

variable {kind : TokenKind}

namespace Prepends

variable {f g : List Token → List Token}

theorem nothing : Prepends fun rest => rest :=
  ⟨[], by simp, fun _ => rfl⟩

theorem comp (hf : Prepends f) (hg : Prepends g) :
    Prepends fun rest => f (g rest) := by
  obtain ⟨ts, hts, hf⟩ := hf
  obtain ⟨us, hus, hg⟩ := hg
  refine ⟨ts ++ us, ?_, fun rest => by simp only [hf, hg, List.append_assoc]⟩
  intro t ht
  exact (List.mem_append.mp ht).elim (hts t) (hus t)

theorem token {t : Token} (ht : t.kind ≠ .eof) (hf : Prepends f) :
    Prepends fun rest => t :: f rest :=
  comp ⟨[t], by simpa using ht, fun _ => rfl⟩ hf

theorem terminal (t : Terminal kind) (hkind : kind ≠ .eof) (hf : Prepends f) :
    Prepends fun rest => t.val :: f rest :=
  token (t.property.symm ▸ hkind) hf

theorem subset (hf : Prepends f) (rest : List Token) : rest ⊆ f rest := by
  obtain ⟨ts, -, h⟩ := hf
  rw [h]
  exact List.subset_append_right ts rest

theorem length_le (hf : Prepends f) (rest : List Token) :
    rest.length ≤ (f rest).length := by
  obtain ⟨ts, -, hf⟩ := hf
  rw [hf, List.length_append]
  exact Nat.le_add_left _ _

/-- There is a token in front if the end is not all that is read. -/
theorem length_lt (hf : Prepends f) (hnext : Parser.nextKind (f []) ≠ .eof)
    (rest : List Token) : rest.length < (f rest).length := by
  obtain ⟨ts, -, hf⟩ := hf
  rw [hf] at hnext ⊢
  cases ts with
  | nil => exact absurd rfl hnext
  | cons t ts =>
    rw [List.length_append, List.length_cons]
    omega

end Prepends

theorem Atom.kind_ne_eof {t : Token} {e : Expr} (h : Atom t e) :
    t.kind ≠ .eof := by
  cases h with
  | integer hkind | character hkind | string hkind | name hkind =>
    rw [hkind]; decide

/-- A kind that a function knows is not the end, if the function does not know
the end. -/
theorem ne_eof_of_some {α : Type} {f : TokenKind → Option α} {a : α}
    (h : f kind = some a) (heof : f .eof = none) : kind ≠ .eof := by
  rintro rfl
  cases heof.symm.trans h

theorem ExprTree.prepends {s : ExprSymbol} (d : ExprTree s) :
    Prepends d.before := by
  induction d with
  | operation _ _ ihFirst ihMore => exact ihFirst.comp ihMore
  | moreNone | indicesNone | argsNone | moreArgsNone => exact .nothing
  | moreSome t op h _ _ ihOperand ihMore =>
    exact (ihOperand.comp ihMore).token (ne_eof_of_some h rfl)
  | front t f h _ ih => exact ih.token (ne_eof_of_some h rfl)
  | plain _ ih => exact ih
  | indexed _ _ ihPrimary ihIndices => exact ihPrimary.comp ihIndices
  | call name left _ right ih =>
    exact ((ih.comp (Prepends.nothing.terminal right (by decide))).terminal left
      (by decide)).terminal name (by decide)
  | indicesSome left _ right _ ihIndex ihMore =>
    exact (ihIndex.comp (ihMore.terminal right (by decide))).terminal left
      (by decide)
  | atom t e h => exact Prepends.nothing.token h.kind_ne_eof
  | paren left _ right ih =>
    exact (ih.comp (Prepends.nothing.terminal right (by decide))).terminal left
      (by decide)
  | argsSome _ ih => exact ih
  | list _ _ ihFirst ihMore => exact ihFirst.comp ihMore
  | moreArgsSome comma _ _ ihNext ihMore =>
    exact (ihNext.comp ihMore).terminal comma (by decide)

theorem prepends_optional (hkind : kind ≠ .eof) (o : Option (Terminal kind)) :
    Prepends (optional o) := by
  cases o with
  | none => exact .nothing
  | some t => exact Prepends.nothing.terminal t hkind

theorem BaseTree.prepends (b : BaseTree) : Prepends b.before := by
  cases b with
  | char word | int word => exact Prepends.nothing.terminal word (by decide)
  | short word tail =>
    exact (prepends_optional (by decide) tail).terminal word (by decide)
  | long word again tail =>
    exact ((prepends_optional (by decide) again).comp
      (prepends_optional (by decide) tail)).terminal word (by decide)

theorem Specifier.prepends (s : Specifier) : Prepends s.before := by
  cases s with
  | sign s => exact Prepends.nothing.token (ne_eof_of_some s.h rfl)
  | base b => exact b.prepends
  | signedBase s b => exact b.prepends.token (ne_eof_of_some s.h rfl)
  | void word => exact Prepends.nothing.terminal word (by decide)

theorem ParamTree.prepends_type (p : ParamTree) :
    Prepends fun rest =>
      p.specifier.before (p.stars.map Subtype.val ++ rest) := by
  refine p.specifier.prepends.comp ⟨_, fun t ht => ?_, fun _ => rfl⟩
  obtain ⟨star, -, rfl⟩ := List.mem_map.mp ht
  rw [star.property]
  decide

theorem ParamTree.prepends (p : ParamTree) : Prepends p.before :=
  p.prepends_type.comp (Prepends.nothing.terminal p.name (by decide))

theorem ParamTree.length_lt (p : ParamTree) (rest : List Token) :
    rest.length < (p.before rest).length :=
  p.prepends_type.length_le (p.name.val :: rest)

theorem ParamsTree.prepends (ps : ParamsTree) : Prepends ps.before := by
  cases ps with
  | void word => exact Prepends.nothing.terminal word (by decide)
  | none => exact .nothing
  | some first more =>
    refine first.prepends.comp ?_
    induction more with
    | nil => exact .nothing
    | cons p more ih => exact (p.2.prepends.comp ih).terminal p.1 (by decide)

theorem CondTree.prepends (c : CondTree) : Prepends c.before :=
  (c.inner.prepends.comp
    (Prepends.nothing.terminal c.right (by decide))).terminal c.left (by decide)

theorem SimpleTree.prepends (s : SimpleTree) : Prepends s.before := by
  have hvalue (v : Option ValueTree) : Prepends (valueBefore v) := by
    cases v with
    | none => exact .nothing
    | some v => exact v.value.prepends.terminal v.assign (by decide)
  cases s with
  | ret word value =>
    cases value with
    | none => exact Prepends.nothing.terminal word (by decide)
    | some value => exact value.prepends.terminal word (by decide)
  | leave word s h => exact Prepends.nothing.token (ne_eof_of_some h rfl)
  | print word left list right =>
    exact ((list.prepends.comp
      (Prepends.nothing.terminal right (by decide))).terminal left
      (by decide)).terminal word (by decide)
  | declare param size value =>
    refine param.prepends.comp (Prepends.comp ?_ (hvalue value))
    cases size with
    | none => exact .nothing
    | some s =>
      exact ((Prepends.nothing.terminal s.right (by decide)).terminal s.token
        (by decide)).terminal s.left (by decide)
  | assign target value => exact target.prepends.comp (hvalue value)

theorem StmtTree.prepends {s : StmtSymbol} (d : StmtTree s) :
    Prepends d.before := by
  induction d with
  | simple s semicolon =>
    exact s.prepends.comp (Prepends.nothing.terminal semicolon (by decide))
  | block left _ right ih =>
    exact (ih.comp (Prepends.nothing.terminal right (by decide))).terminal left
      (by decide)
  | ifThen word cond _ ih | whileDo word cond _ ih =>
    exact (cond.prepends.comp ih).terminal word (by decide)
  | ifElse word cond _ elseWord _ ihBody ihElse =>
    exact (cond.prepends.comp
      (ihBody.comp (ihElse.terminal elseWord (by decide)))).terminal word
      (by decide)
  | nil => exact .nothing
  | cons _ _ ihFirst ihMore => exact ihFirst.comp ihMore

theorem FunctionTree.prepends_behind (f : FunctionTree) :
    Prepends fun rest =>
      f.left.val :: f.params.before
      (f.right.val :: f.leftBrace.val :: f.body.before
        (f.rightBrace.val :: rest)) := by
  have hbody :=
    f.body.prepends.comp (Prepends.nothing.terminal f.rightBrace (by decide))
  have hparams :=
    f.params.prepends.comp
      ((hbody.terminal f.leftBrace (by decide)).terminal f.right (by decide))
  exact hparams.terminal f.left (by decide)

theorem FunctionTree.prepends (f : FunctionTree) : Prepends f.before :=
  f.head.prepends.comp f.prepends_behind

theorem FunctionTree.length_lt (f : FunctionTree) (rest : List Token) :
    rest.length < (f.before rest).length :=
  Nat.lt_of_le_of_lt (f.prepends_behind.length_le rest) (f.head.length_lt _)

theorem ProgramTree.prepends (p : ProgramTree) : Prepends p.before := by
  induction p with
  | nil => exact .nothing
  | cons f p ih => exact f.prepends.comp ih

/-- The names of functions come from tokens. -/
theorem ProgramTree.exists_name {p : ProgramTree} {f : Function}
    (hf : f ∈ p.meaning) (rest : List Token) :
    ∃ t ∈ p.before rest, t.kind = .identifier ∧ t.lexeme = f.name := by
  induction p with
  | nil => cases hf
  | cons g p ih =>
    rcases List.mem_cons.mp hf with rfl | hf
    · refine ⟨g.head.name.val, ?_, g.head.name.property, rfl⟩
      exact g.head.prepends_type.subset _ List.mem_cons_self
    · obtain ⟨t, ht, hname⟩ := ih hf
      exact ⟨t, g.prepends.subset _ ht, hname⟩

end Grammar

end StackC
