import StackC.Proofs.NormalForm
import StackC.Proofs.Parsing

/-!
Trees written as tokens. An expression has parentheses around it only where it
binds more loosely than the place it stands in: an operand on the right of an
operator, or in front of one that binds tighter. Two kinds of trees can be
written in two ways, `*(a + i)` as `a[i]` and `0 - x` as `-x`, and it does not
matter which of them is chosen. The parser makes of the tokens the trees they
were written from.
-/

namespace StackC

/-! ### Tokens -/

/-- A token that is spelled in one way only. -/
def Token.fixed (kind : TokenKind) (s : String) : Token :=
  ⟨kind, text s, 1⟩

def Token.name (s : Name) : Token :=
  ⟨.identifier, s, 1⟩

def Token.number (v : Cell) : Token :=
  ⟨.integer, Cell.decimal v, 1⟩

def Token.literal (v : Cell) : Option Ty → Token
  | some (.base .char false) => ⟨.character, Cell.decimal v, 1⟩
  | some (.base .long true) =>
    ⟨.integer, Numeral.decimalNat v.toUInt64.toNat, 1⟩
  | _ => .number v

namespace Operator

def kind : Operator → TokenKind
  | add => .plus
  | sub => .minus
  | mul => .star
  | div => .slash
  | mod => .percent
  | eq => .equal
  | ne => .notEqual
  | lt => .less
  | le => .lessEqual
  | gt => .greater
  | ge => .greaterEqual
  | other n => .other n

/-- How loosely an operator binds. -/
def level : Operator → Nat
  | mul | div | mod => 0
  | add | sub => 1
  | lt | le | gt | ge => 2
  | eq | ne => 3
  | other _ => 0

def token (op : Operator) : Token :=
  ⟨op.kind, op.spelling, 1⟩

end Operator

/-! ### Expressions -/

/-- Which trees are written in the shorter of two ways. -/
structure Style where
  /-- Whether `*(a + i)` is written `a[i]`. -/
  index : Expr → Expr → Bool
  /-- Whether `0 - x` is written `-x`. -/
  minus : Expr → Bool

def parens (needed : Bool) (ts : List Token) : List Token :=
  if needed then .fixed .lparen "(" :: (ts ++ [.fixed .rparen ")"]) else ts

def commas (items : List (List Token)) : List Token :=
  [Token.fixed .comma ","].intercalate items

/-- Whether an expression is the literal that a minus sign stands for. -/
def Expr.isIntZero : Expr → Bool
  | .int v (some (.base .int false)) => v == 0
  | _ => false

mutual

/-- An expression at a place that has room for some operators: for indices only
if `room` is 0, for those in front of an operand if it is 1, and for those
between operands up to level `n` if it is `n + 2`. -/
def Expr.print (style : Style) : Expr → (room : Nat) → List Token
  | .int v ty, _ => [.literal v ty]
  | .str s, _ => [⟨.string, s, 1⟩]
  | .var name, _ => [.name name]
  | .call name args, room =>
    parens (room < 1)
      (.name name :: .fixed .lparen "(" ::
        (commas (Expr.printItems style args) ++ [.fixed .rparen ")"]))
  | .addr e, room =>
    parens (room < 1) (.fixed .ampersand "&" :: e.print style 1)
  | .deref e, room =>
    (e.printIndexed style).getD
      (parens (room < 1) (.fixed .star "*" :: e.print style 1))
  | .binary op a b, room =>
    if op = .sub ∧ a.isIntZero ∧ style.minus b then
      parens (room < 1) (.fixed .minus "-" :: b.print style 1)
    else parens (room < op.level + 2)
      (a.print style (op.level + 2) ++ op.token :: b.print style (op.level + 1))
  | .hole, _ => []

/-- The contents of an address, if they are written with an index. -/
def Expr.printIndexed (style : Style) : Expr → Option (List Token)
  | .binary .add a i =>
    if style.index a i then
      some (a.print style 0 ++ .fixed .lbracket "[" ::
        (i.print style 5 ++ [.fixed .rbracket "]"]))
    else none
  | _ => none

def Expr.printItems (style : Style) : List Expr → List (List Token)
  | [] => []
  | e :: es => e.print style 5 :: Expr.printItems style es

end

/-! ### Types -/

def Base.token : Base → Token
  | void => .fixed .void "void"
  | char => .fixed .char "char"
  | short => .fixed .short "short"
  | int => .fixed .int "int"
  | long => .fixed .long "long"

namespace Ty

/-- A type in front of a name; the length of an array stands behind it. -/
def print : Ty → List Token
  | base b unsigned =>
    (if unsigned then [.fixed .unsigned "unsigned"] else []) ++ [b.token]
  | pointer elem => elem.print ++ [.fixed .star "*"]
  | array elem _ => elem.print

def printLength : Ty → List Token
  | array _ len => [.fixed .lbracket "[", .number len, .fixed .rbracket "]"]
  | _ => []

end Ty

def Param.print (p : Param) : List Token :=
  p.ty.print ++ [.name p.name]

/-! ### Statements and functions -/

mutual

def Stmt.print (style : Style) : Stmt → List Token
  | .block body =>
    .fixed .lbrace "\x7b" ::
      (Stmt.printAll style body ++ [.fixed .rbrace "\x7d"])
  | .decl ty name =>
    Param.print ⟨ty, name⟩ ++ (ty.printLength ++ [.fixed .semicolon ";"])
  | .init ty name value =>
    Param.print ⟨ty, name⟩ ++
      (ty.printLength ++ .fixed .assign "=" ::
        (value.print style 5 ++ [.fixed .semicolon ";"]))
  | .assign target value =>
    target.print style 5 ++ .fixed .assign "=" ::
      (value.print style 5 ++ [.fixed .semicolon ";"])
  | .ret none => [.fixed .returnWord "return", .fixed .semicolon ";"]
  | .ret (some e) =>
    .fixed .returnWord "return" ::
      (e.print style 5 ++ [.fixed .semicolon ";"])
  | .expr e => e.print style 5 ++ [.fixed .semicolon ";"]
  | .ifThen cond body =>
    .fixed .ifWord "if" :: .fixed .lparen "(" ::
      (cond.print style 5 ++ .fixed .rparen ")" :: body.print style)
  | .ifElse cond body orElse =>
    .fixed .ifWord "if" :: .fixed .lparen "(" ::
      (cond.print style 5 ++ .fixed .rparen ")" ::
        (body.print style ++ .fixed .elseWord "else" :: orElse.print style))
  | .whileDo cond body =>
    .fixed .whileWord "while" :: .fixed .lparen "(" ::
      (cond.print style 5 ++ .fixed .rparen ")" :: body.print style)
  | .breakLoop => [.fixed .breakWord "break", .fixed .semicolon ";"]
  | .continueLoop => [.fixed .continueWord "continue", .fixed .semicolon ";"]
  | .printf format args =>
    .fixed .printf "printf" :: .fixed .lparen "(" ::
      (commas (Expr.printItems style (format :: args)) ++
        [.fixed .rparen ")", .fixed .semicolon ";"])
  | .func .. => []
  | .hole => []

def Stmt.printAll (style : Style) : List Stmt → List Token
  | [] => []
  | s :: ss => s.print style ++ Stmt.printAll style ss

end

def Function.print (style : Style) (f : Function) : List Token :=
  Param.print ⟨f.ret, f.name⟩ ++ .fixed .lparen "(" ::
    (commas (f.params.map Param.print) ++ .fixed .rparen ")" :: .fixed .lbrace
      "\x7b" :: (Stmt.printAll style f.body ++ [.fixed .rbrace "\x7d"]))

def unparse (style : Style) (fs : List Function) : List Token :=
  fs.flatMap (Function.print style)

/-! ### Derivations -/

namespace Grammar

def Derives (s : ExprSymbol) (ts : List Token) (m : s.Meaning) : Prop :=
  ∃ d : ExprTree s, (∀ rest, d.before rest = ts ++ rest) ∧ d.meaning = m

def fixed (kind : TokenKind) (s : String) : Terminal kind :=
  ⟨.fixed kind s, rfl⟩

/-- Operators and operands with one more of them at the end. -/
theorem exists_snocMore {n : Nat} {t : Token} {op : Operator}
    (h : operator? t.kind = some (n, op)) (operand : ExprTree (.level n)) :
    (more : ExprTree (.more n)) →
      ∃ more' : ExprTree (.more n),
        (∀ rest, more'.before rest = more.before (t :: operand.before rest)) ∧
      ∀ left, more'.meaning left = Expr.binary op (more.meaning left)
        operand.meaning
  | .moreNone =>
    ⟨.moreSome t op h operand .moreNone, fun _ => rfl, fun _ => rfl⟩
  | .moreSome t' op' h' operand' more => by
    obtain ⟨more', hbefore, hmeaning⟩ := exists_snocMore h operand more
    exact ⟨.moreSome t' op' h' operand' more',
      fun rest => congrArg (fun ts => t' :: operand'.before ts) (hbefore rest),
      fun left => hmeaning _⟩

/-- Indices with one more of them at the end. -/
theorem exists_snocIndex (left : Terminal .lbracket)
    (index : ExprTree .expression) (right : Terminal .rbracket) :
    (indices : ExprTree .indices) →
      ∃ indices' : ExprTree .indices,
        (∀ rest, indices'.before rest =
          indices.before (left.val :: index.before (right.val :: rest))) ∧
      ∀ e, indices'.meaning e =
        Expr.deref (.binary .add (indices.meaning e) index.meaning)
  | .indicesNone =>
    ⟨.indicesSome left index right .indicesNone, fun _ => rfl, fun _ => rfl⟩
  | .indicesSome left' index' right' more => by
    obtain ⟨more', hbefore, hmeaning⟩ := exists_snocIndex left index right more
    exact ⟨.indicesSome left' index' right' more',
      fun rest =>
      congrArg (fun ts => left'.val :: index'.before (right'.val :: ts))
      (hbefore rest), fun e => hmeaning _⟩

/-- Tokens that are derived as an expression where there is some room. -/
def FitsIn : (room : Nat) → List Token → Expr → Prop
  | 0, ts, e =>
    ∃ (primary : ExprTree .primary) (indices : ExprTree .indices),
      (∀ rest, primary.before (indices.before rest) = ts ++ rest) ∧
      indices.meaning primary.meaning = e
  | n + 1, ts, e => Derives (.level n) ts e

variable {rank : Nat} {op : Operator} {ty : Ty}

section

variable {ts us : List Token} {a b e : Expr}

theorem FitsIn.mono {room room' : Nat} (hle : room ≤ room')
    (h : FitsIn room ts e) : FitsIn room' ts e := by
  induction hle with
  | refl => exact h
  | @step m hle ih =>
    cases m with
    | zero =>
      obtain ⟨primary, indices, hbefore, hmeaning⟩ := ih
      exact ⟨.plain (.indexed primary indices), hbefore, hmeaning⟩
    | succ n =>
      obtain ⟨d, hbefore, hmeaning⟩ := ih
      exact ⟨.operation d .moreNone, hbefore, hmeaning⟩

theorem FitsIn.paren (h : FitsIn 5 ts e) : FitsIn 0 (parens true ts) e := by
  obtain ⟨d, hbefore, hmeaning⟩ := h
  refine ⟨.paren (fixed .lparen "(") d (fixed .rparen ")"), .indicesNone,
    fun rest => ?_, hmeaning⟩
  show Token.fixed .lparen "(" :: d.before (Token.fixed .rparen ")" :: rest) = _
  rw [hbefore]
  simp [parens]

/-- Tokens that are derived as an expression with an outermost operator of some
rank, so that they need the room for it: none or indices for rank 0, a call or
an operator in front of an operand for 1, and one between operands of level `n`
for `n + 2`. -/
def Binds : (rank : Nat) → List Token → Expr → Prop
  | 0, ts, e => FitsIn 0 ts e
  | 1, ts, e =>
    ∃ d : ExprTree (.level 0),
      (∀ primary indices, d ≠ .plain (.indexed primary indices)) ∧
      (∀ rest, d.before rest = ts ++ rest) ∧ d.meaning = e
  | n + 2, ts, e =>
    ∃ (first : ExprTree (.level n)) (more : ExprTree (.more n)),
      more ≠ .moreNone ∧
      (∀ rest, first.before (more.before rest) = ts ++ rest) ∧
      more.meaning first.meaning = e

theorem Binds.fitsIn (h : Binds rank ts e) : FitsIn rank ts e := by
  rcases rank with _ | _ | n
  · exact h
  · obtain ⟨d, -, hd⟩ := h
    exact ⟨d, hd⟩
  · obtain ⟨first, more, -, hd⟩ := h
    exact ⟨.operation first more, hd⟩

theorem endsLevel_eof (n : Nat) : EndsLevel n .eof := by
  simp [EndsLevel, operator?]

/-- With less room the tokens are not derived at all: they have only one
derivation. -/
theorem Binds.not_fitsIn {room : Nat} (h : Binds rank ts e)
    (hroom : room < rank) (e' : Expr) : ¬ FitsIn room ts e' := by
  intro hfits
  rcases rank with _ | _ | n
  · exact absurd hroom (Nat.not_lt_zero room)
  · obtain ⟨primary, indices, hbefore, -⟩ : FitsIn 0 ts e' :=
      hfits.mono (Nat.le_of_lt_succ hroom)
    obtain ⟨d, hne, hd, -⟩ := h
    have htokens :
        d.before [] = (ExprTree.plain (.indexed primary indices)).before [] :=
      (hd []).trans (hbefore []).symm
    exact hne primary indices
      (ExprTree.unique htokens (endsLevel_eof 0) (endsLevel_eof 0)).1
  · obtain ⟨d, hbefore, -⟩ : FitsIn (n + 1) ts e' :=
      hfits.mono (Nat.le_of_lt_succ hroom)
    obtain ⟨first, more, hne, hd, -⟩ := h
    have htokens :
        (ExprTree.operation first more).before [] =
        (ExprTree.operation d .moreNone).before [] :=
      (hd []).trans (hbefore []).symm
    cases (ExprTree.unique htokens (endsLevel_eof (n + 1))
      (endsLevel_eof (n + 1))).1
    exact hne rfl

theorem binds_atom {t : Token} (h : Atom t e) : Binds 0 [t] e :=
  ⟨.atom t e h, .indicesNone, fun _ => rfl, rfl⟩

theorem Binds.index (ha : FitsIn 0 ts a) (hb : FitsIn 5 us b) :
    Binds 0 (ts ++ .fixed .lbracket "[" :: (us ++ [.fixed .rbracket "]"]))
      (.deref (.binary .add a b)) := by
  obtain ⟨primary, indices, hbefore, rfl⟩ := ha
  obtain ⟨index, hindex, rfl⟩ := hb
  obtain ⟨indices', hbefore', hmeaning⟩ :=
    exists_snocIndex (fixed .lbracket "[") index (fixed .rbracket "]") indices
  refine ⟨primary, indices', fun rest => ?_, hmeaning _⟩
  rw [hbefore', hbefore, hindex]
  simp [fixed]

theorem Binds.front {t : Token} {f : Front} (hf : front? t.kind = some f)
    (h : FitsIn 1 ts e) : Binds 1 (t :: ts) (f.apply e) := by
  obtain ⟨d, hbefore, rfl⟩ := h
  refine ⟨.front t f hf d, fun primary indices heq => ?_,
    fun rest => congrArg (t :: ·) (hbefore rest), rfl⟩
  cases heq

theorem Binds.call {name : Name} {es : List Expr} (h : Derives .args ts es) :
    Binds 1 (.name name :: .fixed .lparen "(" :: (ts ++ [.fixed .rparen ")"]))
      (.call name es) := by
  obtain ⟨args, hbefore, rfl⟩ := h
  refine ⟨.plain
    (.call ⟨.name name, rfl⟩ (fixed .lparen "(") args (fixed .rparen ")")),
    fun primary indices heq => ?_, fun rest => ?_, rfl⟩
  · cases heq
  · show Token.name name :: Token.fixed .lparen "(" :: args.before
      (Token.fixed .rparen ")" :: rest) = _
    rw [hbefore]
    simp

theorem Binds.binary {t : Token} {n : Nat}
    (hop : operator? t.kind = some (n, op)) (ha : FitsIn (n + 2) ts a)
    (hb : FitsIn (n + 1) us b) :
    Binds (n + 2) (ts ++ t :: us) (.binary op a b) := by
  obtain ⟨d, hbefore, rfl⟩ := ha
  obtain ⟨operand, hoperand, rfl⟩ := hb
  cases d with
  | operation first more =>
    obtain ⟨more', hbefore', hmeaning⟩ := exists_snocMore hop operand more
    refine ⟨first, more', fun hnone => ?_, fun rest => ?_, hmeaning _⟩
    · have hlength := more.prepends.length_le (t :: operand.before [])
      rw [← hbefore', hnone] at hlength
      exact absurd hlength (Nat.not_succ_le_zero _)
    · have hfirst : first.before (more.before (t :: operand.before rest)) =
          ts ++ t :: operand.before rest := hbefore _
      rw [hbefore', hfirst, hoperand]
      simp

end

/-! ### Literals -/

theorem decimal_decimalNat {n : Nat} (h : n < 2 ^ 64) :
    Numeral.Decimal (Numeral.decimalNat n) n := by
  have hread :
      Numeral.readDecimalUnsigned 64 (Numeral.decimalNat n) = .ok n := by
    rw [Numeral.readDecimalUnsigned,
      if_neg (by simp [Numeral.decimalNat, Nat.toDigits_ne_nil])]
    exact Numeral.digits_decimalNat n (Numeral.le_greatest_iff.mpr h)
  exact ((Numeral.readDecimalUnsigned_iff _ n).mp hread).1

theorem fits_toInt (v : Cell) : Numeral.Fits 64 v.toInt :=
  ⟨v.le_toInt, v.toInt_lt⟩

theorem signed_decimal (v : Cell) :
    Numeral.Signed Numeral.Decimal (Cell.decimal v) v.toInt := by
  obtain ⟨hlow, hhigh⟩ := fits_toInt v
  rw [Cell.decimal]
  generalize v.toInt = x at hlow hhigh
  cases x with
  | ofNat n => exact .plain (decimal_decimalNat (by norm_num at hhigh; omega))
  | negSucc n => exact .minus (decimal_decimalNat (by norm_num at hlow; omega))

theorem signed_unsigned (v : Cell) :
    Numeral.Signed Numeral.Unsigned (Cell.decimal v) v.toInt :=
  ((Numeral.readInt_iff (by decide) _ _).mp (Numeral.readInt_decimal v)).1

theorem toNat_of_neg {v : Cell} (h : v.toInt < 0) :
    2 ^ 63 ≤ v.toUInt64.toNat := by
  have hcond : v.toInt =
      if 2 * v.toUInt64.toNat < 2 ^ 64 then (v.toUInt64.toNat : Int)
      else v.toUInt64.toNat - 2 ^ 64 :=
    BitVec.toInt_eq_toNat_cond v.toBitVec
  split at hcond <;> omega

theorem ofNat_toUInt64 (v : Cell) : Int64.ofNat v.toUInt64.toNat = v := by
  apply Int64.toBitVec_inj.mp
  simp

/-- A literal is printed as a token that means it. -/
theorem atom_literal {signed : Bool} {v : Cell} (h : LiteralTy signed v ty) :
    Atom (.literal v (some ty)) (.int v (some ty)) := by
  have hsigned := Literal.signed (signed_unsigned v) (fits_toInt v)
  rw [Int64.ofInt_toInt] at hsigned
  cases h with
  | char =>
    have hatom : Atom (.literal v (some .char)) _ :=
      .character rfl (signed_decimal v) (fits_toInt v)
    rw [Int64.ofInt_toInt] at hatom
    exact hatom
  | int hhigh _ =>
    rw [if_pos hhigh] at hsigned
    exact .integer rfl hsigned
  | long hlow =>
    rw [if_neg (Int.not_lt.mpr hlow)] at hsigned
    exact .integer rfl hsigned
  | unsignedLong hneg =>
    have hhigh : v.toUInt64.toNat < 2 ^ 64 := v.toUInt64.toNat_lt
    have hread : Numeral.readUnsigned 64 (Numeral.decimalNat v.toUInt64.toNat) =
        .ok v.toUInt64.toNat :=
      Numeral.readUnsigned_decimalNat (by rw [Nat.shiftLeft_eq]; omega)
    have hliteral :=
      Literal.unsigned ((Numeral.readUnsigned_iff _ _).mp hread).1
        (toNat_of_neg hneg) hhigh
    rw [ofNat_toUInt64] at hliteral
    exact .integer rfl hliteral

/-! ### Expressions -/

theorem operator?_kind (h : op ∈ Operator.defined) :
    operator? op.token.kind = some (op.level, op) := by
  revert op
  decide

theorem level_le (h : op ∈ Operator.defined) : op.level ≤ 3 := by
  revert op
  decide

theorem eq_of_isIntZero {e : Expr} (h : e.isIntZero = true) :
    e = .int 0 (some .int) := by
  unfold Expr.isIntZero at h
  split at h
  · rw [beq_iff_eq.mp h]
  · cases h

theorem commas_cons (item next : List Token) (items : List (List Token)) :
    commas (item :: next :: items) = item ++ .fixed .comma "," ::
      commas (next :: items) := by
  simp [commas, List.intercalate_cons_cons]

theorem derives_list (style : Style) {e : Expr} {es : List Expr}
    (h : ∀ a ∈ e :: es, FitsIn 5 (a.print style 5) a) :
    Derives .list (commas (Expr.printItems style (e :: es))) (e :: es) := by
  induction es generalizing e with
  | nil =>
    obtain ⟨d, hbefore, rfl⟩ := h e List.mem_cons_self
    refine ⟨.list d .moreArgsNone, fun rest => ?_, rfl⟩
    rw [show commas (Expr.printItems style [d.meaning]) =
      Expr.print style d.meaning 5 from List.intercalate_singleton]
    exact hbefore rest
  | cons e' es ih =>
    obtain ⟨d, hbefore, rfl⟩ := h e List.mem_cons_self
    obtain ⟨list, hlist, hmeaning⟩ :=
      ih fun a ha => h a (List.mem_cons_of_mem _ ha)
    cases list with
    | list first more =>
      refine ⟨.list d (.moreArgsSome (fixed .comma ",") first more),
        fun rest => ?_, congrArg (d.meaning :: ·) hmeaning⟩
      show d.before
        (Token.fixed .comma "," :: (ExprTree.list first more).before rest) = _
      rw [hbefore, hlist]
      simp [Expr.printItems, commas_cons]

theorem derives_args (style : Style) {es : List Expr}
    (h : ∀ a ∈ es, FitsIn 5 (a.print style 5) a) :
    Derives .args (commas (Expr.printItems style es)) es := by
  cases es with
  | nil => exact ⟨.argsNone, fun _ => rfl, rfl⟩
  | cons e es =>
    obtain ⟨d, hbefore, hmeaning⟩ := derives_list style h
    exact ⟨.argsSome d, hbefore, hmeaning⟩

theorem exists_of_printIndexed {style : Style} {e : Expr} {ts : List Token}
    (h : e.printIndexed style = some ts) :
    ∃ a i, e = .binary .add a i ∧
      ts = a.print style 0 ++ .fixed .lbracket "[" ::
        (i.print style 5 ++ [.fixed .rbracket "]"]) := by
  unfold Expr.printIndexed at h
  split at h
  · obtain ⟨-, h⟩ := Option.ite_none_right_eq_some.mp h
    cases h
    exact ⟨_, _, rfl, rfl⟩
  · cases h

/-- An expression is printed in one way, and in parentheses where there is too
little room for it. -/
def IsPrinted (style : Style) (e : Expr) : Prop :=
  ∃ rank ≤ 5, Binds rank (e.print style 5) e ∧
    ∀ room, e.print style room = parens (room < rank) (e.print style 5)

theorem isPrinted_of_binds {style : Style} {e : Expr} {ts : List Token}
    (hrank : rank ≤ 5)
    (hprint : ∀ room, e.print style room = parens (room < rank) ts)
    (h : Binds rank ts e) : IsPrinted style e := by
  have hbare : e.print style 5 = ts := by
    rw [hprint, decide_eq_false (Nat.not_lt.mpr hrank)]
    rfl
  refine ⟨rank, hrank, ?_, fun room => ?_⟩
  · rw [hbare]
    exact h
  · rw [hbare]
    exact hprint room

theorem IsPrinted.fitsIn {style : Style} {e : Expr} (h : IsPrinted style e)
    (room : Nat) : FitsIn room (e.print style room) e := by
  obtain ⟨rank, hrank, hbinds, hprint⟩ := h
  rw [hprint]
  by_cases hroom : room < rank
  · rw [decide_eq_true hroom]
    exact (hbinds.fitsIn.mono hrank).paren.mono (Nat.zero_le room)
  · rw [decide_eq_false hroom]
    exact hbinds.fitsIn.mono (Nat.not_lt.mp hroom)

/-- What is printed is derived, at any place. An address that is written with an
index is not printed as the sum it is, so the induction goes along with what it
is printed as there. -/
theorem isPrinted_of_normal (style : Style) {signed : Bool} {e : Expr}
    (h : e.Normal signed) :
    IsPrinted style e ∧
      ∀ ts, e.printIndexed style = some ts → Binds 0 ts (.deref e) := by
  induction h with
  | int h =>
    refine ⟨isPrinted_of_binds (Nat.zero_le 5) (fun _ => rfl)
      (binds_atom (atom_literal h)), fun ts hts => ?_⟩
    cases hts
  | str =>
    refine ⟨isPrinted_of_binds (Nat.zero_le 5) (fun _ => rfl)
      (binds_atom (.string rfl)), fun ts hts => ?_⟩
    cases hts
  | var =>
    refine ⟨isPrinted_of_binds (Nat.zero_le 5) (fun _ => rfl)
      (binds_atom (.name rfl)), fun ts hts => ?_⟩
    cases hts
  | @binary op a b hop ha hb iha ihb =>
    refine ⟨?_, fun ts hts => ?_⟩
    · by_cases hminus : op = .sub ∧ a.isIntZero ∧ style.minus b
      · have hfront :=
          Binds.front (t := .fixed .minus "-") (f := .negative) rfl
            (ihb.1.fitsIn 1)
        obtain ⟨rfl, hzero, -⟩ := id hminus
        rw [eq_of_isIntZero hzero] at hminus ⊢
        exact isPrinted_of_binds (by decide)
          (fun room => by rw [Expr.print, if_pos hminus]) hfront
      · have hlevel := level_le hop
        exact isPrinted_of_binds (by omega)
          (fun room => by rw [Expr.print, if_neg hminus])
          (.binary (operator?_kind hop) (iha.1.fitsIn _) (ihb.1.fitsIn _))
    · obtain ⟨a, i, heq, rfl⟩ := exists_of_printIndexed hts
      cases heq
      exact .index (iha.1.fitsIn 0) (ihb.1.fitsIn 5)
  | call hargs ih =>
    refine ⟨isPrinted_of_binds (show 1 ≤ 5 by decide)
      (fun room => by rw [Expr.print]) (.call ?_), fun ts hts => ?_⟩
    · exact derives_args style fun a ha => (ih a ha).1.fitsIn 5
    · cases hts
  | addr h ih =>
    refine ⟨isPrinted_of_binds (show 1 ≤ 5 by decide)
      (fun room => by rw [Expr.print]) ?_, fun ts hts => ?_⟩
    · exact .front (f := .address) rfl (ih.1.fitsIn 1)
    · cases hts
  | @deref e h ih =>
    refine ⟨?_, fun ts hts => ?_⟩
    · cases hindexed : e.printIndexed style with
      | some ts =>
        exact isPrinted_of_binds (Nat.zero_le 5)
          (fun room => by rw [Expr.print, hindexed]; rfl) (ih.2 ts hindexed)
      | none =>
        exact isPrinted_of_binds (by decide)
          (fun room => by rw [Expr.print, hindexed]; rfl)
          (.front (f := .content) rfl (ih.1.fitsIn 1))
    · cases hts

theorem derives_print (style : Style) {signed : Bool} {e : Expr}
    (h : e.Normal signed) : Derives .expression (e.print style 5) e :=
  (isPrinted_of_normal style h).1.fitsIn 5

/-! ### Types -/

theorem exists_specifier {b : Base} {unsigned : Bool}
    (h : b = .void → unsigned = false) :
    ∃ s : Specifier,
      (∀ rest, s.before rest = (Ty.base b unsigned).print ++ rest) ∧
    s.meaning = .base b unsigned := by
  have hbase (hvoid : b ≠ .void) : ∃ t : BaseTree,
      (∀ rest, t.before rest = b.token :: rest) ∧ t.meaning = b := by
    cases b with
    | void => exact absurd rfl hvoid
    | char => exact ⟨.char (fixed .char "char"), fun _ => rfl, rfl⟩
    | short => exact ⟨.short (fixed .short "short") none, fun _ => rfl, rfl⟩
    | int => exact ⟨.int (fixed .int "int"), fun _ => rfl, rfl⟩
    | long => exact ⟨.long (fixed .long "long") none none, fun _ => rfl, rfl⟩
  by_cases hvoid : b = .void
  · obtain rfl := h hvoid
    subst hvoid
    exact ⟨.void (fixed .void "void"), fun _ => rfl, rfl⟩
  · obtain ⟨t, hbefore, rfl⟩ := hbase hvoid
    cases unsigned with
    | false => exact ⟨.base t, hbefore, rfl⟩
    | true =>
      exact ⟨.signedBase ⟨.fixed .unsigned "unsigned", true, rfl⟩ t,
        fun rest => congrArg (_ :: ·) (hbefore rest), rfl⟩

theorem exists_type (h : ty.Plain) :
    ∃ (s : Specifier) (stars : List (Terminal .star)),
      (∀ rest, s.before (stars.map Subtype.val ++ rest) = ty.print ++ rest) ∧
    stars.foldl (fun ty _ => .pointer ty) s.meaning = ty := by
  induction h with
  | base h =>
    obtain ⟨s, hbefore, hmeaning⟩ := exists_specifier h
    exact ⟨s, [], hbefore, hmeaning⟩
  | pointer h ih =>
    obtain ⟨s, stars, hbefore, hmeaning⟩ := ih
    refine ⟨s, stars ++ [fixed .star "*"], fun rest => ?_, ?_⟩
    · rw [List.map_append, List.append_assoc, hbefore, Ty.print,
        List.append_assoc]
      rfl
    · rw [List.foldl_append, hmeaning]
      rfl

theorem exists_param {p : Param} (h : p.ty.Plain) :
    ∃ d : ParamTree, (∀ rest, d.before rest = p.print ++ rest) ∧
      d.meaning = p := by
  obtain ⟨s, stars, hbefore, hmeaning⟩ := exists_type h
  refine ⟨⟨s, stars, ⟨.name p.name, rfl⟩⟩, fun rest => ?_, ?_⟩
  · rw [ParamTree.before, hbefore, Param.print, List.append_assoc]
    rfl
  · rw [ParamTree.meaning, hmeaning]
    rfl

/-- A variable that is declared: its type, its name and the length behind it. -/
theorem exists_declared {signed : Bool} (h : ty.Declared signed) (name : Name) :
    ∃ (d : ParamTree) (size : Option SizeTree),
      (∀ rest, d.before (SimpleTree.sizeBefore size rest) =
        Param.print ⟨ty, name⟩ ++ (ty.printLength ++ rest)) ∧
    SimpleTree.sizeMeaning d.meaning.ty size = ty ∧ d.meaning.name = name := by
  cases h with
  | plain h =>
    obtain ⟨d, hbefore, hmeaning⟩ := exists_param (p := ⟨ty, name⟩) h
    refine ⟨d, none, fun rest => ?_, congrArg Param.ty hmeaning,
      congrArg Param.name hmeaning⟩
    cases h with
    | base h => exact hbefore rest
    | pointer h => exact hbefore rest
  | @array elem len h hlow hhigh hsign =>
    obtain ⟨d, hbefore, hmeaning⟩ := exists_param (p := ⟨elem, name⟩) h
    let size : SizeTree :=
      ⟨fixed .lbracket "[", ⟨.number len, rfl⟩, len.toInt,
        ⟨signed_unsigned len, hlow, hhigh⟩, fixed .rbracket "]"⟩
    refine ⟨d, some size, fun rest => hbefore _, ?_,
      congrArg Param.name hmeaning⟩
    rw [SimpleTree.sizeMeaning, hmeaning, Int64.ofInt_toInt]

/-! ### Statements -/

def IsStatement (isOpen : Bool) (ts : List Token) (s : Stmt) : Prop :=
  ∃ d : StmtTree (.statement isOpen), (∀ rest, d.before rest = ts ++ rest) ∧
    d.meaning = s

/-- A statement without statements in it ends with a semicolon. -/
theorem isStatement_simple (d : SimpleTree) {ts : List Token} {s : Stmt}
    (hbefore : ∀ rest, d.before (.fixed .semicolon ";" :: rest) = ts ++ rest)
    (hmeaning : d.meaning = s) : IsStatement s.isOpen ts s := by
  rw [← hmeaning, d.isOpen_meaning]
  exact ⟨.simple d (fixed .semicolon ";"), hbefore, rfl⟩

theorem exists_cond (style : Style) {signed : Bool} {cond : Expr}
    (h : cond.Normal signed) :
    ∃ c : CondTree,
      (∀ rest,
        c.before rest = .fixed .lparen "(" ::
        (cond.print style 5 ++ .fixed .rparen ")" :: rest)) ∧
    c.inner.meaning = cond := by
  obtain ⟨d, hbefore, hmeaning⟩ := derives_print style h
  exact ⟨⟨fixed .lparen "(", d, fixed .rparen ")"⟩,
    fun rest => congrArg (_ :: ·) (hbefore _), hmeaning⟩

/-- The value behind an equals sign. -/
theorem exists_value (style : Style) {signed : Bool} {e : Expr}
    (h : e.Normal signed) :
    ∃ v : ValueTree,
      (∀ rest, SimpleTree.valueBefore (some v) rest = .fixed .assign "=" ::
        (e.print style 5 ++ rest)) ∧
    v.value.meaning = e := by
  obtain ⟨d, hbefore, hmeaning⟩ := derives_print style h
  exact ⟨⟨fixed .assign "=", d⟩, fun rest => congrArg (_ :: ·) (hbefore rest),
    hmeaning⟩

theorem exists_statements {style : Style} {ss : List Stmt}
    (h : ∀ s ∈ ss, IsStatement s.isOpen (s.print style) s) :
    ∃ d : StmtTree .statements,
      (∀ rest, d.before rest = Stmt.printAll style ss ++ rest) ∧
    d.meaning = ss := by
  induction ss with
  | nil => exact ⟨.nil, fun _ => rfl, rfl⟩
  | cons s ss ih =>
    rw [List.forall_mem_cons] at h
    obtain ⟨⟨first, hfirst, hmeaning⟩, h⟩ := h
    obtain ⟨more, hmore, hmeaning'⟩ := ih h
    refine ⟨.cons first more, fun rest => ?_, ?_⟩
    · rw [StmtTree.before, hmore, hfirst, Stmt.printAll, List.append_assoc]
    · exact congrArg₂ List.cons hmeaning hmeaning'

section

variable {style : Style} {signed : Bool} {cond : Expr} {isOpen : Bool}
  {body orElse : Stmt}

theorem IsStatement.ifThen (h : IsStatement isOpen (body.print style) body)
    (hcond : cond.Normal signed) :
    IsStatement true ((Stmt.ifThen cond body).print style)
      (.ifThen cond body) := by
  obtain ⟨c, hcond, rfl⟩ := exists_cond style hcond
  obtain ⟨d, hbefore, hmeaning⟩ := h
  refine ⟨.ifThen (fixed .ifWord "if") c d, fun rest => ?_,
    congrArg (Stmt.ifThen c.inner.meaning) hmeaning⟩
  simp [StmtTree.before, hcond, hbefore, Stmt.print, fixed]

theorem IsStatement.ifElse (h : IsStatement false (body.print style) body)
    (hcond : cond.Normal signed)
    (horElse : IsStatement isOpen (orElse.print style) orElse) :
    IsStatement isOpen ((Stmt.ifElse cond body orElse).print style)
      (.ifElse cond body orElse) := by
  obtain ⟨c, hcond, rfl⟩ := exists_cond style hcond
  obtain ⟨d, hbefore, rfl⟩ := h
  obtain ⟨d', hbefore', hmeaning⟩ := horElse
  refine ⟨.ifElse (fixed .ifWord "if") c d (fixed .elseWord "else") d',
    fun rest => ?_, congrArg (Stmt.ifElse c.inner.meaning d.meaning) hmeaning⟩
  simp [StmtTree.before, hcond, hbefore, hbefore', Stmt.print, fixed]

theorem IsStatement.whileDo (h : IsStatement isOpen (body.print style) body)
    (hcond : cond.Normal signed) :
    IsStatement isOpen ((Stmt.whileDo cond body).print style)
      (.whileDo cond body) := by
  obtain ⟨c, hcond, rfl⟩ := exists_cond style hcond
  obtain ⟨d, hbefore, hmeaning⟩ := h
  refine ⟨.whileDo (fixed .whileWord "while") c d, fun rest => ?_,
    congrArg (Stmt.whileDo c.inner.meaning) hmeaning⟩
  simp [StmtTree.before, hcond, hbefore, Stmt.print, fixed]

end

theorem isStatement_print (style : Style) {signed : Bool} {s : Stmt}
    (h : s.Normal signed) : IsStatement s.isOpen (s.print style) s := by
  induction h with
  | block hbody ih =>
    obtain ⟨body, hbefore, rfl⟩ := exists_statements ih
    refine ⟨.block (fixed .lbrace "\x7b") body (fixed .rbrace "\x7d"),
      fun rest => ?_, rfl⟩
    simp [StmtTree.before, hbefore, Stmt.print, fixed]
  | @decl ty name hty =>
    obtain ⟨d, size, hbefore, hmeaning, hname⟩ := exists_declared hty name
    refine isStatement_simple (.declare d size none) (fun rest => ?_) ?_
    · simp [SimpleTree.before, SimpleTree.valueBefore, hbefore, Stmt.print]
    · rw [SimpleTree.meaning, hmeaning, hname]
  | @init ty name value hty hvalue =>
    obtain ⟨d, size, hbefore, hmeaning, hname⟩ := exists_declared hty name
    obtain ⟨v, hvalueBefore, rfl⟩ := exists_value style hvalue
    refine isStatement_simple (.declare d size (some v)) (fun rest => ?_) ?_
    · simp [SimpleTree.before, hbefore, hvalueBefore, Stmt.print]
    · rw [SimpleTree.meaning, hmeaning, hname]
  | assign htarget hvalue =>
    obtain ⟨d, hbefore, rfl⟩ := derives_print style htarget
    obtain ⟨v, hvalueBefore, rfl⟩ := exists_value style hvalue
    refine isStatement_simple (.assign d (some v)) (fun rest => ?_) rfl
    simp [SimpleTree.before, hbefore, hvalueBefore, Stmt.print]
  | @ret value hvalue =>
    cases value with
    | none =>
      exact isStatement_simple (.ret (fixed .returnWord "return") none)
        (fun _ => rfl) rfl
    | some e =>
      obtain ⟨d, hbefore, rfl⟩ := derives_print style (hvalue e rfl)
      refine isStatement_simple (.ret (fixed .returnWord "return") (some d))
        (fun rest => ?_) rfl
      simp [SimpleTree.before, hbefore, Stmt.print, fixed]
  | expr h =>
    obtain ⟨d, hbefore, rfl⟩ := derives_print style h
    refine isStatement_simple (.assign d none) (fun rest => ?_) rfl
    simp [SimpleTree.before, SimpleTree.valueBefore, hbefore, Stmt.print]
  | ifThen hcond hbody ih => exact ih.ifThen hcond
  | ifElse hcond hbody hclosed horElse ihBody ihElse =>
    rw [hclosed] at ihBody
    exact ihBody.ifElse hcond ihElse
  | whileDo hcond hbody ih => exact ih.whileDo hcond
  | breakLoop =>
    exact isStatement_simple (.leave (.fixed .breakWord "break") .breakLoop rfl)
      (fun _ => rfl) rfl
  | continueLoop =>
    exact isStatement_simple
      (.leave (.fixed .continueWord "continue") .continueLoop rfl)
      (fun _ => rfl) rfl
  | @printf format args hformat hargs =>
    have hall : ∀ a ∈ format :: args, FitsIn 5 (a.print style 5) a := by
      intro a ha
      rcases List.mem_cons.mp ha with rfl | ha
      · exact derives_print style hformat
      · exact derives_print style (hargs a ha)
    obtain ⟨d, hbefore, hmeaning⟩ := derives_list style hall
    cases d with
    | list first more =>
      cases hmeaning
      refine isStatement_simple
        (.print (fixed .printf "printf") (fixed .lparen "(") (.list first more)
          (fixed .rparen ")")) (fun rest => ?_) rfl
      simp [SimpleTree.before, hbefore, Stmt.print, fixed]

/-! ### Functions -/

theorem exists_moreParams {p : Param} {ps : List Param}
    (h : ∀ q ∈ p :: ps, q.ty.Plain) :
    ∃ (first : ParamTree) (more : List (Terminal .comma × ParamTree)),
      (∀ rest, first.before (ParamsTree.moreBefore more rest) =
        commas ((p :: ps).map Param.print) ++ rest) ∧
    first.meaning = p ∧ more.map (fun q => q.2.meaning) = ps := by
  induction ps generalizing p with
  | nil =>
    obtain ⟨first, hbefore, hmeaning⟩ := exists_param (h p List.mem_cons_self)
    refine ⟨first, [], fun rest => ?_, hmeaning, rfl⟩
    rw [show commas ([p].map Param.print) = p.print
      from List.intercalate_singleton]
    exact hbefore rest
  | cons q ps ih =>
    obtain ⟨first, hbefore, hmeaning⟩ := exists_param (h p List.mem_cons_self)
    obtain ⟨next, more, hnext, rfl, rfl⟩ :=
      ih fun r hr => h r (List.mem_cons_of_mem p hr)
    refine ⟨first, (fixed .comma ",", next) :: more, fun rest => ?_,
      hmeaning, rfl⟩
    show first.before
      (Token.fixed .comma "," :: next.before
        (ParamsTree.moreBefore more rest)) = _
    rw [hbefore, hnext]
    simp [commas_cons]

theorem exists_params {ps : List Param} (h : ∀ p ∈ ps, p.ty.Plain) :
    ∃ d : ParamsTree,
      (∀ rest, d.before rest = commas (ps.map Param.print) ++ rest) ∧
    d.meaning = ps := by
  cases ps with
  | nil => exact ⟨.none, fun _ => rfl, rfl⟩
  | cons p ps =>
    obtain ⟨first, more, hbefore, hfirst, hmore⟩ := exists_moreParams h
    exact ⟨.some first more, hbefore, congrArg₂ List.cons hfirst hmore⟩

theorem exists_function (style : Style) {signed : Bool} {f : Function}
    (h : f.Normal signed) :
    ∃ d : FunctionTree, (∀ rest, d.before rest = f.print style ++ rest) ∧
      d.meaning = f := by
  obtain ⟨head, hhead, hmeaning⟩ := exists_param (p := ⟨f.ret, f.name⟩) h.ret
  obtain ⟨params, hparams, hmeaning'⟩ := exists_params h.params
  obtain ⟨body, hbody, hmeaning''⟩ :=
    exists_statements fun s hs => isStatement_print style (h.body s hs)
  refine ⟨⟨head, fixed .lparen "(", params, fixed .rparen ")",
    fixed .lbrace "\x7b", body, fixed .rbrace "\x7d"⟩, fun rest => ?_, ?_⟩
  · simp [FunctionTree.before, hhead, hparams, hbody, Function.print, fixed]
  · rw [FunctionTree.meaning, hmeaning, hmeaning', hmeaning'']

theorem exists_program (style : Style) {signed : Bool} {fs : List Function}
    (h : ∀ f ∈ fs, f.Normal signed) :
    ∃ p : ProgramTree, (∀ rest, p.before rest = unparse style fs ++ rest) ∧
      p.meaning = fs := by
  induction fs with
  | nil => exact ⟨[], fun _ => rfl, rfl⟩
  | cons f fs ih =>
    rw [List.forall_mem_cons] at h
    obtain ⟨d, hbefore, rfl⟩ := exists_function style h.1
    obtain ⟨p, hbefore', rfl⟩ := ih h.2
    refine ⟨d :: p, fun rest => ?_, rfl⟩
    show d.before (ProgramTree.before p rest) = _
    rw [hbefore', hbefore, unparse, unparse, List.flatMap_cons,
      List.append_assoc]

end Grammar

/-- Programs in normal form are what the parser makes of the tokens they are
printed as, in every style. They are printed with parentheses around an
expression only where its tokens alone are no expression. All that the parser
makes of tokens is in normal form, and without signs if the tokens are those of
a text. -/
theorem parse_unparse (style : Style) :
    (∀ (signed : Bool) (fs : List Function) (last : Token),
      (∀ f ∈ fs, f.Normal signed) →
      last.kind = .eof → parse (unparse style fs ++ [last]) = .ok fs) ∧
    (∀ (signed : Bool) (e : Expr) (room : Nat), e.Normal signed →
      e.print style room = e.print style 5 ∨
        e.print style room = parens true (e.print style 5) ∧
          ∀ e', ¬ Grammar.FitsIn room (e.print style 5) e') ∧
    (∀ (ts : List Token) (fs : List Function), parse ts = .ok fs →
      ∀ f ∈ fs, f.Normal true) ∧
    ∀ (src : Bytes) (ts : List Token) (fs : List Function), lex src = .ok ts →
      parse ts = .ok fs → ∀ f ∈ fs, f.Normal false := by
  refine ⟨fun signed fs last hnormal hlast => ?_, fun signed e room hnormal =>
    ?_, fun ts fs hparse => ?_, fun src ts fs hlex hparse => ?_⟩
  · obtain ⟨p, hbefore, hmeaning⟩ := Grammar.exists_program style hnormal
    rw [← hbefore, ← hmeaning, parse]
    exact Grammar.reads_functions p hlast (Nat.le_refl _)
  · obtain ⟨⟨rank, -, hbinds, hprint⟩, -⟩ :=
      Grammar.isPrinted_of_normal style hnormal
    rw [hprint room]
    by_cases hroom : room < rank
    · rw [decide_eq_true hroom]
      exact Or.inr ⟨rfl, hbinds.not_fitsIn hroom⟩
    · rw [decide_eq_false hroom]
      exact Or.inl rfl
  · exact Grammar.normal_of_parse hparse (Or.inl rfl)
  · exact Grammar.normal_of_parse hparse (Or.inr (Grammar.noMinus_of_lex hlex))

/-- A program with more parentheses than it needs. -/
def roundabout : Bytes :=
  text "int f(int *a) \x7b return (*(a + 0)) - (1 - (2 * 3)); \x7d"

/-- It is printed with an index and without the parentheses that are not
needed. -/
theorem parse_unparse_roundabout :
    let style : Style := ⟨fun _ _ => true, fun _ => true⟩
    ∃ ts fs, lex roundabout = .ok ts ∧ parse ts = .ok fs ∧
      (text " ").intercalate ((unparse style fs).map Token.lexeme) =
      text "int f ( int * a ) \x7b return a [ 0 ] - ( 1 - 2 * 3 ) ; \x7d" ∧
      parse (unparse style fs ++ [⟨.eof, [], 1⟩]) = .ok fs ∧ ∀ e',
      ¬ Grammar.FitsIn 2
      (Expr.print style (.binary .sub (.var (text "a")) (.var (text "b"))) 5)
      e' := by
  intro style
  have hprinted : ((parse (scan roundabout).1).map fun fs =>
      (text " ").intercalate ((unparse style fs).map Token.lexeme)).toOption =
        some (text
          "int f ( int * a ) \x7b return a [ 0 ] - ( 1 - 2 * 3 ) ; \x7d") := by
            decide +kernel
  have hnone : (scan roundabout).2 = none := by decide +kernel
  rcases hscan : scan roundabout with ⟨ts, e⟩
  rw [hscan] at hnone hprinted
  subst hnone
  have hlex := lex_eq_ok_iff.mpr hscan
  obtain ⟨hparse, hparens, -, hlexed⟩ := parse_unparse style
  have hneeded :=
    hparens false (.binary .sub (.var (text "a")) (.var (text "b"))) 2
      (.binary (by decide) .var .var)
  rcases hfs : parse ts with e | fs
  · rw [hfs] at hprinted
    cases hprinted
  · rw [hfs] at hprinted
    refine ⟨ts, fs, hlex, hfs, Option.some.inj hprinted,
      hparse false fs _ (hlexed roundabout ts fs hlex hfs) rfl, ?_⟩
    exact (hneeded.resolve_left (by decide +kernel)).2

end StackC
