import StackC.Proofs.Unambiguous
import StackC.Proofs.WellFormed

/-!
What is derived is read. A reader of tokens that are those of a derivation takes
all of them and gives what the derivation means, if the token behind them does
not go on with it. Together with the converse: the functions that are read from
tokens are those that the grammar derives from them.
-/

namespace StackC

namespace Grammar

open StackC.Parser (nextKind)

/-! ### Tokens -/

variable {kind : TokenKind} {t : Token}

theorem expect_terminal (t : Terminal kind) (rest : List Token) :
    Parser.expect kind (t.val :: rest) = .ok (t.val, rest) :=
  if_pos t.property

/-- The token in front has the kind that is looked for. -/
theorem nextKind_terminal (t : Terminal kind) (rest : List Token) :
    nextKind (t.val :: rest) = kind :=
  t.property

theorem endsLevel_terminal (t : Terminal kind) (h : closes kind = true)
    (rest : List Token) : EndsLevel 4 (nextKind (t.val :: rest)) :=
  endsLevel_of_closes (closes_terminal t h) 4

theorem ExprTree.length_lt {n : Nat} (d : ExprTree (.level n))
    (rest : List Token) : rest.length < (d.before rest).length :=
  d.prepends.length_lt (d.nextKind_ne [] Bool.false_ne_true) rest

section

variable {α : Type} {item : Parser α} {rounds ts us rest : List Token} {a : α}
  {as : List α}

theorem commaSeparated_one (h : item ts = .ok (a, rest))
    (hrest : nextKind rest ≠ .comma) :
    Parser.commaSeparated item rounds ts = .ok ([a], rest) := by
  cases rounds with
  | nil => exact bind_ok h rfl
  | cons b rounds => exact bind_ok h (if_neg hrest)

theorem commaSeparated_more {b : Token} {comma : Terminal .comma}
    (h : item ts = .ok (a, comma.val :: us))
    (hmore : Parser.commaSeparated item rounds us = .ok (as, rest)) :
    Parser.commaSeparated item (b :: rounds) ts = .ok (a :: as, rest) :=
  bind_ok h ((if_pos (nextKind_terminal comma us)).trans (bind_ok hmore rfl))

end

/-! ### Expressions -/

/-- A reader takes the tokens of every derivation of a level, as long as there
are not more tokens than `size`. -/
def ReadsLevel (n : Nat) (read : Parser Expr) (size : Nat) : Prop :=
  ∀ (d : ExprTree (.level n)) {rest : List Token},
    EndsLevel n (nextKind rest) →
  (d.before rest).length ≤ size → read (d.before rest) = .ok (d.meaning, rest)

section

variable {n size : Nat} {op? : TokenKind → Option Operator}
  {operand expression : Parser Expr} {rest : List Token}

theorem none_of_endsLevel (hop : OperatorsOf n op?)
    (h : EndsLevel (n + 1) kind) : op? kind = none := by
  cases hfound : op? kind with
  | none => rfl
  | some op => exact absurd h (not_endsLevel ((hop kind op).mp hfound))

variable {ts us : List Token} {left right e e' : Expr}

variable {rounds : List Token}

theorem chainMore_stop (h : op? (nextKind ts) = none) :
    Parser.chainMore op? operand rounds left ts = .ok (left, ts) := by
  cases rounds with
  | nil => rfl
  | cons b rounds => rw [Parser.chainMore, h]

theorem chainMore_step {b : Token} {op : Operator} (hop : op? t.kind = some op)
    (hright : operand ts = .ok (right, us))
    (hmore : Parser.chainMore op? operand rounds (.binary op left right) us =
      .ok (e, rest)) :
    Parser.chainMore op? operand (b :: rounds) left (t :: ts) =
      .ok (e, rest) := by
  have hfound : op? (nextKind (t :: ts)) = some op := hop
  rw [Parser.chainMore, hfound]
  exact bind_ok hright hmore

/-- Operators and operands are read one after the other; every round takes a
token of the bound. -/
theorem reads_chainMore (hop : OperatorsOf n op?)
    (hoperand : ReadsLevel n operand size) (d : ExprTree (.more n))
    (left : Expr) {rounds : List Token}
    (hends : EndsLevel (n + 1) (nextKind rest))
    (hsize : (d.before rest).length ≤ size)
    (hrounds : (d.before rest).length ≤ rounds.length) :
    Parser.chainMore op? operand rounds left (d.before rest) =
      .ok (d.meaning left, rest) := by
  match d with
  | .moreNone => exact chainMore_stop (none_of_endsLevel hop hends)
  | .moreSome t op h first more =>
    obtain ⟨b, rounds, rfl⟩ :=
      List.exists_cons_of_length_pos (Nat.zero_lt_of_lt hrounds)
    have hmore := first.prepends.length_le (more.before rest)
    have hfirst := hoperand first (more.ends_more hends) (Nat.le_of_lt hsize)
    exact chainMore_step ((hop t.kind op).mpr h) hfirst
      (reads_chainMore hop hoperand more _ hends
        (hmore.trans (Nat.le_of_lt hsize))
        (hmore.trans (Nat.le_of_succ_le_succ hrounds)))

theorem reads_chain (hop : OperatorsOf n op?)
    (hoperand : ReadsLevel n operand size) :
    ReadsLevel (n + 1) (Parser.chain op? operand) size := by
  intro d rest hends hsize
  cases d with
  | operation first more =>
    have hmore := first.prepends.length_le (more.before rest)
    have hfirst := hoperand first (more.ends_more hends) hsize
    exact bind_ok hfirst
      (reads_chainMore hop hoperand more _ hends (hmore.trans hsize)
        (Nat.le_refl _))

theorem reads_expressionOf {unary : Parser Expr}
    (hunary : ReadsLevel 0 unary size) :
    ReadsLevel 4 (Parser.expressionOf unary) size :=
  reads_chain operatorsOf_equality
    (reads_chain operatorsOf_relation
      (reads_chain operatorsOf_additive
        (reads_chain operatorsOf_multiplicative hunary)))

theorem primaryOf_atom (h : Atom t e) (rest : List Token) :
    Parser.primaryOf expression (t :: rest) = .ok (e, rest) := by
  rw [Parser.primaryOf]
  cases h with
  | integer hkind h =>
    simp only [hkind]
    exact bind_ok ((integer_iff t e).mpr h) rfl
  | character hkind h hfits =>
    simp only [hkind]
    exact bind_ok ((character_iff t _).mpr ⟨_, rfl, h, hfits⟩) rfl
  | string hkind | name hkind => simp only [hkind]

theorem primaryOf_paren (left : Terminal .lparen) {right : Terminal .rparen}
    (h : expression ts = .ok (e, right.val :: rest)) :
    Parser.primaryOf expression (left.val :: ts) = .ok (e, rest) := by
  rw [Parser.primaryOf]
  simp only [left.property]
  exact bind_ok h (bind_ok (expect_terminal right rest) rfl)

/-- A token stands in front of an expression in parentheses. -/
theorem reads_primaryOf (hexpression : ReadsLevel 4 expression size)
    (d : ExprTree .primary) (hsize : (d.before rest).length ≤ size + 1) :
    Parser.primaryOf expression (d.before rest) = .ok (d.meaning, rest) := by
  cases d with
  | atom t e h => exact primaryOf_atom h rest
  | paren left inner right =>
    have hinner :=
      hexpression inner (endsLevel_terminal right rfl rest)
        (Nat.le_of_succ_le_succ hsize)
    exact primaryOf_paren left hinner

theorem indicesOf_stop (h : nextKind ts ≠ .lbracket) :
    Parser.indicesOf expression rounds e ts = .ok (e, ts) := by
  cases rounds with
  | nil => rfl
  | cons b rounds => exact if_neg h

theorem indicesOf_step (bracket : Terminal .lbracket)
    {close : Terminal .rbracket} {b : Token} {index : Expr}
    (hindex : expression ts = .ok (index, close.val :: us))
    (hmore : Parser.indicesOf expression rounds (.deref (.binary .add e index))
      us = .ok (e', rest)) :
    Parser.indicesOf expression (b :: rounds) e (bracket.val :: ts) =
      .ok (e', rest) :=
  (if_pos (nextKind_terminal bracket ts)).trans
    (bind_ok hindex (bind_ok (expect_terminal close us) hmore))

theorem reads_indicesOf (hexpression : ReadsLevel 4 expression size)
    (d : ExprTree .indices) (e : Expr) {rounds : List Token}
    (hstops : ExprSymbol.indices.Stops (nextKind rest))
    (hsize : (d.before rest).length ≤ size + 1)
    (hrounds : (d.before rest).length ≤ rounds.length) :
    Parser.indicesOf expression rounds e (d.before rest) =
      .ok (d.meaning e, rest) := by
  match d with
  | .indicesNone => exact indicesOf_stop hstops.1
  | .indicesSome bracket index close more =>
    obtain ⟨b, rounds, rfl⟩ :=
      List.exists_cons_of_length_pos (Nat.zero_lt_of_lt hrounds)
    have hmore :=
      Nat.le_of_lt (index.prepends.length_le (close.val :: more.before rest))
    have hindex :=
      hexpression index (endsLevel_terminal close rfl _)
        (Nat.le_of_succ_le_succ hsize)
    exact indicesOf_step bracket hindex
      (reads_indicesOf hexpression more _ hstops
        (hmore.trans (Nat.le_of_lt hsize))
        (hmore.trans (Nat.le_of_succ_le_succ hrounds)))

/-- The first expression of a list has been read. -/
theorem reads_moreArgs (hexpression : ReadsLevel 4 expression size)
    (d : ExprTree .moreArgs) {rounds ts : List Token} {e : Expr}
    (hrest : nextKind rest = .rparen)
    (hsize : (d.before rest).length ≤ size)
    (hrounds : (d.before rest).length ≤ rounds.length)
    (hfirst : expression ts = .ok (e, d.before rest)) :
    Parser.commaSeparated expression rounds ts =
      .ok (e :: d.meaning, rest) := by
  match d with
  | .moreArgsNone => exact commaSeparated_one hfirst (hrest ▸ by decide)
  | .moreArgsSome comma next more =>
    obtain ⟨b, rounds, rfl⟩ :=
      List.exists_cons_of_length_pos (Nat.zero_lt_of_lt hrounds)
    have hmore := next.prepends.length_le (more.before rest)
    have hnext :=
      hexpression next (more.ends_moreArgs hrest) (Nat.le_of_lt hsize)
    exact commaSeparated_more hfirst
      (reads_moreArgs hexpression more hrest (hmore.trans (Nat.le_of_lt hsize))
        (hmore.trans (Nat.le_of_succ_le_succ hrounds)) hnext)

theorem reads_commaSeparated (hexpression : ReadsLevel 4 expression size)
    (d : ExprTree .list) (hrest : nextKind rest = .rparen)
    (hsize : (d.before rest).length ≤ size)
    (hrounds : (d.before rest).length ≤ rounds.length) :
    Parser.commaSeparated expression rounds (d.before rest) =
      .ok (d.meaning, rest) := by
  cases d with
  | list first more =>
    have hlength := first.prepends.length_le (more.before rest)
    have hfirst := hexpression first (more.ends_moreArgs hrest) hsize
    exact reads_moreArgs hexpression more hrest (hlength.trans hsize)
      (hlength.trans hrounds) hfirst

theorem reads_argumentsOf (hexpression : ReadsLevel 4 expression size)
    (d : ExprTree .args) {right : Terminal .rparen}
    (hsize : (d.before (right.val :: rest)).length ≤ size) :
    Parser.argumentsOf expression (d.before (right.val :: rest)) =
      .ok (d.meaning, rest) := by
  cases d with
  | argsNone =>
    exact (if_pos (nextKind_terminal right rest)).trans
      (bind_ok (expect_terminal right rest) rfl)
  | argsSome given =>
    have hnot : nextKind (given.before (right.val :: rest)) ≠ .rparen :=
      given.nextKind_ne _ Bool.false_ne_true
    have hgiven :=
      reads_commaSeparated hexpression given (nextKind_terminal right rest)
        hsize (Nat.le_refl _)
    exact (if_neg hnot).trans
      (bind_ok hgiven (bind_ok (expect_terminal right rest) rfl))

/-- A token stands in front of each expression inside an operand. -/
theorem reads_operandOf (hexpression : ReadsLevel 4 expression size)
    (d : ExprTree .operand)
    (hstops : ExprSymbol.operand.Stops (nextKind rest))
    (hsize : (d.before rest).length ≤ size + 1) :
    Parser.operandOf expression (d.before rest) = .ok (d.meaning, rest) := by
  cases d with
  | indexed primary indices =>
    have hcall :
        ¬ (nextKind (primary.before (indices.before rest)) =
        .identifier ∧
        nextKind ((primary.before (indices.before rest)).drop 1) =
        .lparen) := by
      rintro ⟨hname, hleft⟩
      obtain ⟨name, us, hus⟩ := exists_cons_of_kind hname (by decide)
      rw [hus] at hleft
      obtain ⟨left, vs, rfl⟩ := exists_cons_of_kind hleft (by decide)
      exact ExprTree.indexed_ne_call hstops.2 hus
    have hindices :=
      (primary.prepends.length_le (indices.before rest)).trans hsize
    have hfirst := reads_primaryOf hexpression primary hsize
    have hread :=
      reads_indicesOf hexpression indices primary.meaning hstops hindices
        (Nat.le_refl _)
    exact (if_neg hcall).trans
      (bind_ok hfirst (bind_ok hread (if_neg hstops.2)))
  | call name left args right =>
    have hargs :=
      reads_argumentsOf hexpression args
        (Nat.le_of_lt (Nat.le_of_succ_le_succ hsize))
    exact (if_pos ⟨name.property, left.property⟩).trans (bind_ok hargs rfl)

end

theorem unary_front {b : Token} {f : Front} (h : front? t.kind = some f)
    (bound ts : List Token) :
    Parser.unary (b :: bound) (t :: ts) = Parser.unary bound ts >>= fun r =>
      .ok (f.apply r.1, r.2) := by
  obtain ⟨kind, lexeme, line⟩ := t
  cases kind <;> simp only [front?, Option.some.injEq, reduceCtorEq] at h
    <;> subst h <;> rfl

theorem unary_operand {b : Token} {ts : List Token}
    (h : startsOperand (nextKind ts) = true) (bound : List Token) :
    Parser.unary (b :: bound) ts =
      Parser.operandOf (Parser.expressionOf (Parser.unary bound)) ts := by
  rw [Parser.unary]
  split
  next hkind =>
    rw [hkind] at h
    cases h
  next hkind =>
    rw [hkind] at h
    cases h
  next hkind =>
    rw [hkind] at h
    cases h
  next => rfl

theorem reads_unary (bound : List Token) :
    ReadsLevel 0 (Parser.unary bound) bound.length := by
  induction bound with
  | nil =>
    intro d rest _ hsize
    exact absurd hsize (Nat.not_le.mpr (Nat.zero_lt_of_lt (d.length_lt rest)))
  | cons b bound ih =>
    intro d rest hends hsize
    cases d with
    | front t f hf operand =>
      have hoperand := ih operand hends (Nat.le_of_succ_le_succ hsize)
      exact (unary_front hf bound _).trans (bind_ok hoperand rfl)
    | plain operand =>
      have hoperand :=
        reads_operandOf (reads_expressionOf ih) operand hends.2 hsize
      exact (unary_operand (operand.starts rest) bound).trans hoperand

theorem reads_expression (size : Nat) :
    ReadsLevel 4 Parser.expression size := by
  intro d rest hends _
  exact reads_expressionOf (reads_unary (d.before rest)) d hends (Nat.le_refl _)

/-! ### Types -/

theorem skip_optional (o : Option (Terminal kind)) {rest : List Token}
    (hrest : nextKind rest ≠ kind) :
    Parser.skip kind (optional o rest) = rest := by
  cases o with
  | some t => exact if_pos t.property
  | none =>
    cases rest with
    | nil => rfl
    | cons t rest => exact if_neg hrest

theorem stars_eq (stars : List (Terminal .star)) (ty : Ty) {rest : List Token}
    (hrest : nextKind rest ≠ .star) :
    Parser.stars ty (stars.map Subtype.val ++ rest) =
      (stars.foldl (fun ty _ => .pointer ty) ty, rest) := by
  induction stars generalizing ty with
  | nil =>
    cases rest with
    | nil => rfl
    | cons t rest => exact if_neg hrest
  | cons star stars ih => exact (if_pos star.property).trans (ih (.pointer ty))

section

variable {rest : List Token}

theorem reads_base (b : BaseTree) (start : Token) (sign : Option Bool)
    (hrest : (nextKind rest).startsType = false) :
    Parser.base start sign (b.before rest) =
      .ok (.base b.meaning (sign == some true), rest) := by
  have hint : nextKind rest ≠ .int := nextKind_ne_of_startsType rfl hrest
  have hlong : nextKind rest ≠ .long :=
    nextKind_ne_of_startsType rfl hrest
  cases b with
  | char word | int word =>
    simp only [BaseTree.before, Parser.base, nextKind_terminal]
    rfl
  | short word tail =>
    simp only [BaseTree.before, Parser.base, nextKind_terminal,
      List.drop_succ_cons, List.drop_zero, skip_optional tail hint]
    rfl
  | long word again tail =>
    have hagain := nextKind_optional_ne tail (by decide) hlong
    simp only [BaseTree.before, Parser.base, nextKind_terminal,
      List.drop_succ_cons, List.drop_zero, skip_optional again hagain,
      skip_optional tail hint]
    rfl

/-- A sign alone stands for a signed or unsigned `int`. -/
theorem base_sign (start : Token) (unsigned : Bool)
    (hrest : (nextKind rest).startsType = false) :
    Parser.base start (some unsigned) rest =
      .ok (.base .int (some unsigned == some true), rest) := by
  rw [Parser.base]
  split <;> simp_all [TokenKind.startsType]

theorem type_sign (s : Sign) (ts : List Token) :
    Parser.type (s.token :: ts) = Parser.base s.token (some s.unsigned) ts >>=
      fun r => .ok (Parser.stars r.1 r.2) := by
  obtain ⟨⟨kind, lexeme, line⟩, unsigned, h⟩ := s
  cases kind <;> simp only [sign?, Option.some.injEq, reduceCtorEq] at h
    <;> subst h <;> rfl

theorem type_plain {ts : List Token} (h : sign? (nextKind ts) = none) :
    Parser.type ts = Parser.base (Parser.next ts) none ts >>= fun r =>
      .ok (Parser.stars r.1 r.2) := by
  rw [Parser.type]
  split
  next hkind =>
    rw [hkind] at h
    cases h
  next hkind =>
    rw [hkind] at h
    cases h
  next => rfl

theorem reads_type (s : Specifier)
    (hrest : (nextKind rest).startsType = false) :
    Parser.type (s.before rest) = .ok (Parser.stars s.meaning rest) := by
  cases s with
  | sign s =>
    rw [Specifier.before, type_sign, base_sign s.token s.unsigned hrest,
      Option.some_beq_some, beq_true]
    rfl
  | base b =>
    have hsign : sign? (nextKind (b.before rest)) = none := by
      cases b with
      | char word | short word | int word | long word =>
        exact congrArg sign? word.property
    rw [Specifier.before, type_plain hsign, reads_base b _ none hrest]
    rfl
  | signedBase s b =>
    rw [Specifier.before, type_sign, reads_base b _ _ hrest,
      Option.some_beq_some, beq_true]
    rfl
  | void word =>
    have hsign : sign? (nextKind (word.val :: rest)) = none :=
      congrArg sign? word.property
    rw [Specifier.before, type_plain hsign, Parser.base]
    simp only [nextKind_terminal]
    rfl

theorem reads_param (p : ParamTree) :
    Parser.param (p.before rest) = .ok (p.meaning, rest) := by
  have htype :=
    reads_type p.specifier (ParamTree.startsType_behind p.stars p.name rest)
  have hname : nextKind (p.name.val :: rest) ≠ .star :=
    (nextKind_terminal p.name rest).symm ▸ by decide
  rw [stars_eq p.stars _ hname] at htype
  exact bind_ok htype (bind_ok (expect_terminal p.name rest) rfl)

theorem reads_moreParams (more : List (Terminal .comma × ParamTree))
    {p : ParamTree} {rounds : List Token}
    (hrest : nextKind rest = .rparen)
    (hrounds : (ParamsTree.moreBefore more rest).length ≤ rounds.length) :
    Parser.commaSeparated Parser.param rounds
      (p.before (ParamsTree.moreBefore more rest)) =
      .ok (p.meaning :: more.map fun p => p.2.meaning, rest) := by
  induction more generalizing p rounds with
  | nil => exact commaSeparated_one (reads_param p) (hrest.symm ▸ by decide)
  | cons q more ih =>
    obtain ⟨comma, q⟩ := q
    obtain ⟨b, rounds, rfl⟩ :=
      List.exists_cons_of_length_pos (Nat.zero_lt_of_lt hrounds)
    have hlength := q.prepends.length_le (ParamsTree.moreBefore more rest)
    exact commaSeparated_more (reads_param p)
      (ih (hlength.trans (Nat.le_of_succ_le_succ hrounds)))

theorem reads_params (ps : ParamsTree) {right : Terminal .rparen} :
    Parser.params (ps.before (right.val :: rest)) = .ok (ps.meaning, rest) := by
  have hright := expect_terminal right rest
  cases ps with
  | void word =>
    exact (if_pos ⟨word.property, right.property⟩).trans (bind_ok hright rfl)
  | none =>
    have hvoid :
        ¬ (nextKind (right.val :: rest) = .void ∧
        nextKind rest = .rparen) := by
      rintro ⟨hkind, -⟩
      cases hkind.symm.trans right.property
    exact (if_neg hvoid).trans
      ((if_pos right.property).trans (bind_ok hright rfl))
  | some first more =>
    have hread :=
      reads_moreParams more (p := first) (nextKind_terminal right rest)
        (first.prepends.length_le
          (ParamsTree.moreBefore more (right.val :: rest)))
    rw [ParamsTree.before, Parser.params, if_neg, if_neg]
    · exact bind_ok hread (bind_ok hright rfl)
    · exact first.nextKind_ne _ rfl
    · rintro ⟨hkind, hclose⟩
      obtain ⟨word, us, hus⟩ := exists_cons_of_kind hkind (by decide)
      rw [hus] at hclose
      exact first.before_ne_void word hclose hus

end

/-! ### Statements -/

section

variable {rest : List Token}

theorem reads_declarator (size : Option SizeTree) (ty : Ty)
    (hrest : closes (nextKind rest) = true) :
    Parser.declarator ty (SimpleTree.sizeBefore size rest) =
      .ok (SimpleTree.sizeMeaning ty size, rest) := by
  cases size with
  | none =>
    refine if_neg fun hkind => ?_
    rw [SimpleTree.sizeBefore] at hkind
    rw [hkind] at hrest
    cases hrest
  | some s =>
    have hsize :=
      (Numeral.readInt_iff (by decide) s.token.val.lexeme s.size).mpr s.h
    have hlength : Parser.arrayLength (s.token.val :: s.right.val :: rest) =
        .ok (Int64.ofInt s.size, rest) := by
      refine bind_ok (expect_terminal s.token _) ?_
      simp only [hsize]
      exact bind_ok (expect_terminal s.right rest) rfl
    exact (if_pos s.left.property).trans (bind_ok hlength rfl)

variable {semicolon : Terminal .semicolon}

/-- An expression that ends a statement. -/
theorem reads_value (d : ExprTree .expression) :
    Parser.expression (d.before (semicolon.val :: rest)) =
      .ok (d.meaning, semicolon.val :: rest) :=
  reads_expression _ d (endsLevel_terminal semicolon rfl rest) (Nat.le_refl _)

theorem not_assign_semicolon :
    ¬ nextKind (semicolon.val :: rest) = .assign := by
  intro hkind
  cases hkind.symm.trans semicolon.property

theorem reads_declaration (param : ParamTree) (size : Option SizeTree)
    (value : Option ValueTree) :
    Parser.declaration
      ((SimpleTree.declare param size value).before (semicolon.val :: rest)) =
      .ok ((SimpleTree.declare param size value).meaning, rest) := by
  have hsemicolon := expect_terminal semicolon rest
  have hcloses :=
    SimpleTree.closes_valueBefore value (nextKind_terminal semicolon rest)
  refine bind_ok (reads_param param)
    (bind_ok (reads_declarator size param.meaning.ty hcloses) ?_)
  cases value with
  | none => exact (if_neg not_assign_semicolon).trans (bind_ok hsemicolon rfl)
  | some v =>
    exact (if_pos v.assign.property).trans
      (bind_ok (reads_value v.value) (bind_ok hsemicolon rfl))

theorem reads_assignment (target : ExprTree .expression)
    (value : Option ValueTree) :
    Parser.assignment
      ((SimpleTree.assign target value).before (semicolon.val :: rest)) =
      .ok ((SimpleTree.assign target value).meaning, rest) := by
  have hsemicolon := expect_terminal semicolon rest
  have hcloses :=
    SimpleTree.closes_valueBefore value (nextKind_terminal semicolon rest)
  refine bind_ok
    (reads_expression _ target (endsLevel_of_closes hcloses 4)
      (Nat.le_refl _)) ?_
  cases value with
  | none => exact (if_neg not_assign_semicolon).trans (bind_ok hsemicolon rfl)
  | some v =>
    exact (if_pos v.assign.property).trans
      (bind_ok (reads_value v.value) (bind_ok hsemicolon rfl))

theorem reads_returned_some (d : ExprTree .expression) :
    Parser.returned (d.before (semicolon.val :: rest)) =
      .ok (.ret (some d.meaning), rest) := by
  have hnot : nextKind (d.before (semicolon.val :: rest)) ≠ .semicolon :=
    d.nextKind_ne _ Bool.false_ne_true
  exact (if_neg hnot).trans
    (bind_ok (reads_value d) (bind_ok (expect_terminal semicolon rest) rfl))

theorem reads_printed (left : Terminal .lparen) (first : ExprTree .expression)
    (more : ExprTree .moreArgs) (right : Terminal .rparen) :
    Parser.printed
      (left.val :: (ExprTree.list first more).before
        (right.val :: semicolon.val :: rest)) =
        .ok (.printf first.meaning more.meaning, rest) := by
  have hargs :=
    reads_argumentsOf (reads_expression _) (.argsSome (.list first more))
      (Nat.le_refl
        ((ExprTree.list first more).before
          (right.val :: semicolon.val :: rest)).length)
  exact bind_ok (expect_terminal left _)
    (bind_ok hargs (bind_ok (expect_terminal semicolon rest) rfl))

theorem reads_condition (c : CondTree) :
    Parser.condition (c.before rest) = .ok (c.inner.meaning, rest) := by
  have hinner :=
    reads_expression _ c.inner (endsLevel_terminal c.right rfl rest)
      (Nat.le_refl _)
  exact bind_ok (expect_terminal c.left _)
    (bind_ok hinner (bind_ok (expect_terminal c.right rest) rfl))

variable {b : Token} {bound ts : List Token}

/-! The first token chooses the reader. -/

theorem statement_block (left : Terminal .lbrace) :
    Parser.statement (b :: bound) (left.val :: ts) = Parser.blockOf
      (Parser.statement bound) ts >>= fun r => .ok (.block r.1, r.2) := by
  simp only [Parser.statement, nextKind_terminal]
  rfl

theorem statement_ifOf (word : Terminal .ifWord) :
    Parser.statement (b :: bound) (word.val :: ts) =
      Parser.ifOf (Parser.statement bound) ts := by
  simp only [Parser.statement, nextKind_terminal, List.drop_succ_cons,
    List.drop_zero]

theorem statement_whileOf (word : Terminal .whileWord) :
    Parser.statement (b :: bound) (word.val :: ts) =
      Parser.whileOf (Parser.statement bound) ts := by
  simp only [Parser.statement, nextKind_terminal, List.drop_succ_cons,
    List.drop_zero]

theorem statement_returned (word : Terminal .returnWord) :
    Parser.statement (b :: bound) (word.val :: ts) = Parser.returned ts := by
  simp only [Parser.statement, nextKind_terminal, List.drop_succ_cons,
    List.drop_zero]

theorem statement_printed (word : Terminal .printf) :
    Parser.statement (b :: bound) (word.val :: ts) = Parser.printed ts := by
  simp only [Parser.statement, nextKind_terminal, List.drop_succ_cons,
    List.drop_zero]

theorem statement_declaration (h : (nextKind ts).startsType = true) :
    Parser.statement (b :: bound) ts = Parser.declaration ts := by
  rw [Parser.statement]
  split <;> simp_all [TokenKind.startsType]

theorem statement_assignment (h : startsExpr (nextKind ts) = true) :
    Parser.statement (b :: bound) ts = Parser.assignment ts := by
  have htype : (nextKind ts).startsType = false := by
    cases hstarts : (nextKind ts).startsType with
    | false => rfl
    | true =>
      cases (form?_of_startsType hstarts).symm.trans (form?_of_startsExpr h)
  rw [Parser.statement]
  split <;> simp_all [startsExpr, startsOperand, front?]

theorem statement_word {word : Token} {s : Stmt}
    (h : word? word.kind = some s) :
    Parser.statement (b :: bound) (word :: semicolon.val :: rest) =
      .ok (s, rest) := by
  obtain ⟨kind, lexeme, line⟩ := word
  cases kind <;> simp only [word?, Option.some.injEq, reduceCtorEq] at h
    <;> subst h <;> exact bind_ok (expect_terminal semicolon rest) rfl

theorem reads_simple (s : SimpleTree) :
    Parser.statement (b :: bound) (s.before (semicolon.val :: rest)) =
      .ok (s.meaning, rest) := by
  cases s with
  | ret word value =>
    cases value with
    | none => exact (statement_returned word).trans (if_pos semicolon.property)
    | some d => exact (statement_returned word).trans (reads_returned_some d)
  | leave word s h => exact statement_word h
  | print word left list right =>
    cases list with
    | list first more =>
      exact (statement_printed word).trans (reads_printed left first more right)
  | declare param size value =>
    exact (statement_declaration (param.startsType _)).trans
      (reads_declaration param size value)
  | assign target value =>
    exact (statement_assignment (target.starts _)).trans
      (reads_assignment target value)

end

/-- A reader takes the tokens of every statement, as long as there are not more
tokens than `size`. -/
def ReadsStatement (read : Parser Stmt) (size : Nat) : Prop :=
  ∀ {isOpen : Bool} (d : StmtTree (.statement isOpen)) {rest : List Token},
    StmtTree.Closed isOpen (nextKind rest) →
  (d.before rest).length ≤ size → read (d.before rest) = .ok (d.meaning, rest)

theorem StmtTree.length_lt {isOpen : Bool} (d : StmtTree (.statement isOpen))
    (rest : List Token) : rest.length < (d.before rest).length :=
  d.prepends.length_lt (d.nextKind_ne [] rfl) rest

section

variable {statement : Parser Stmt} {size : Nat} {rest : List Token}

theorem reads_statementsOf (hstatement : ReadsStatement statement size)
    (d : StmtTree .statements) {rounds : List Token}
    (hrest : nextKind rest = .rbrace)
    (hsize : (d.before rest).length ≤ size)
    (hrounds : (d.before rest).length ≤ rounds.length) :
    Parser.statementsOf statement rounds (d.before rest) =
      .ok (d.meaning, rest) := by
  match d with
  | .nil =>
    cases rounds with
    | nil => rfl
    | cons b rounds => exact if_pos (Or.inl hrest)
  | .cons first more =>
    have hlength := first.length_lt (more.before rest)
    obtain ⟨b, rounds, rfl⟩ :=
      List.exists_cons_of_length_pos
        (Nat.zero_lt_of_lt (hlength.trans_le hrounds))
    have hfirst := hstatement first (more.closed_statements hrest _) hsize
    have hmore :=
      reads_statementsOf hstatement more hrest (hlength.le.trans hsize)
        (Nat.le_of_lt_succ (hlength.trans_le hrounds))
    refine (if_neg ?_).trans (bind_ok hfirst (bind_ok hmore rfl))
    rintro (hkind | hkind)
    · exact first.nextKind_ne _ rfl hkind
    · exact first.nextKind_ne _ rfl hkind

theorem reads_blockOf (hstatement : ReadsStatement statement size)
    (d : StmtTree .statements) (right : Terminal .rbrace)
    (hsize : (d.before (right.val :: rest)).length ≤ size) :
    Parser.blockOf statement (d.before (right.val :: rest)) =
      .ok (d.meaning, rest) := by
  have hbody :=
    reads_statementsOf hstatement d (nextKind_terminal right rest) hsize
      (Nat.le_refl _)
  exact bind_ok hbody (bind_ok (expect_terminal right rest) rfl)

variable {isOpen : Bool}

theorem reads_ifThen (hstatement : ReadsStatement statement size)
    (cond : CondTree) (body : StmtTree (.statement isOpen))
    (hclosed : nextKind rest ≠ .elseWord)
    (hsize : (body.before rest).length ≤ size) :
    Parser.ifOf statement (cond.before (body.before rest)) =
      .ok (.ifThen cond.inner.meaning body.meaning, rest) := by
  have hbody := hstatement body (fun _ => hclosed) hsize
  exact bind_ok (reads_condition cond) (bind_ok hbody (if_neg hclosed))

theorem reads_ifElse (hstatement : ReadsStatement statement size)
    (cond : CondTree) (body : StmtTree (.statement false))
    (elseWord : Terminal .elseWord) (orElse : StmtTree (.statement isOpen))
    (hclosed : StmtTree.Closed isOpen (nextKind rest))
    (hsize : (body.before (elseWord.val :: orElse.before rest)).length ≤ size) :
    Parser.ifOf statement
      (cond.before (body.before (elseWord.val :: orElse.before rest))) =
      .ok (.ifElse cond.inner.meaning body.meaning orElse.meaning, rest) := by
  have hbody := hstatement body (fun hopen => by cases hopen) hsize
  have hlength := body.length_lt (elseWord.val :: orElse.before rest)
  rw [List.length_cons] at hlength
  have helse := hstatement orElse hclosed (show _ ≤ size by omega)
  refine bind_ok (reads_condition cond) (bind_ok hbody ?_)
  exact (if_pos (nextKind_terminal elseWord _)).trans (bind_ok helse rfl)

theorem reads_whileOf (hstatement : ReadsStatement statement size)
    (cond : CondTree) (body : StmtTree (.statement isOpen))
    (hclosed : StmtTree.Closed isOpen (nextKind rest))
    (hsize : (body.before rest).length ≤ size) :
    Parser.whileOf statement (cond.before (body.before rest)) =
      .ok (.whileDo cond.inner.meaning body.meaning, rest) :=
  bind_ok (reads_condition cond) (bind_ok (hstatement body hclosed hsize) rfl)

end

theorem reads_statement (bound : List Token) :
    ReadsStatement (Parser.statement bound) bound.length := by
  induction bound with
  | nil =>
    intro isOpen d rest _ hsize
    exact absurd hsize (Nat.not_le.mpr (Nat.zero_lt_of_lt (d.length_lt rest)))
  | cons b bound ih =>
    intro isOpen d rest hclosed hsize
    -- Behind the first word the bound is one token shorter, and so are the
    -- tokens.
    have hbehind (cond : CondTree) (ts : List Token)
        (h : (cond.before ts).length + 1 ≤ (b :: bound).length) :
        ts.length ≤ bound.length :=
      (cond.prepends.length_le ts).trans (Nat.le_of_succ_le_succ h)
    cases d with
    | simple s semicolon => exact reads_simple s
    | block left body right =>
      have hbody := reads_blockOf ih body right (Nat.le_of_succ_le_succ hsize)
      exact (statement_block left).trans (bind_ok hbody rfl)
    | ifThen word cond body =>
      exact (statement_ifOf word).trans
        (reads_ifThen ih cond body (hclosed rfl) (hbehind cond _ hsize))
    | ifElse word cond body elseWord orElse =>
      exact (statement_ifOf word).trans
        (reads_ifElse ih cond body elseWord orElse hclosed
          (hbehind cond _ hsize))
    | whileDo word cond body =>
      exact (statement_whileOf word).trans
        (reads_whileOf ih cond body hclosed (hbehind cond _ hsize))

/-! ### Programs -/

theorem reads_function (f : FunctionTree) (rest : List Token) :
    Parser.function (f.before rest) = .ok (f.meaning, rest) := by
  have hbody :=
    reads_blockOf (reads_statement (f.body.before (f.rightBrace.val :: rest)))
      f.body f.rightBrace (Nat.le_refl _)
  refine bind_ok (reads_param f.head)
    ((if_pos (nextKind_terminal f.left _)).trans ?_)
  exact bind_ok (reads_params f.params)
    (bind_ok (expect_terminal f.leftBrace _) (bind_ok hbody rfl))

theorem reads_functions (p : ProgramTree) {bound rest : List Token}
    (hrest : nextKind rest = .eof)
    (hbound : (p.before rest).length ≤ bound.length) :
    Parser.functions bound (p.before rest) = .ok p.meaning := by
  induction p generalizing bound with
  | nil =>
    cases bound with
    | nil => rfl
    | cons b bound => exact if_pos hrest
  | cons f p ih =>
    have hlength := f.length_lt (ProgramTree.before p rest)
    obtain ⟨b, bound, rfl⟩ :=
      List.exists_cons_of_length_pos
        (Nat.zero_lt_of_lt (hlength.trans_le hbound))
    have hmore :=
      ih (show _ ≤ bound.length
        from Nat.le_of_lt_succ (hlength.trans_le hbound))
    have hstarts :
        (nextKind (ProgramTree.before (f :: p) rest)).startsType =
        true := f.head.startsType _
    have heof : nextKind (ProgramTree.before (f :: p) rest) ≠ .eof :=
      f.head.nextKind_ne _ rfl
    exact (if_neg heof).trans
      ((if_pos hstarts).trans
        (bind_ok (reads_function f _) (bind_ok hmore rfl)))

/-- The tokens in front of the first end. -/
def beforeEnd (ts : List Token) : List Token :=
  ts.takeWhile fun t => t.kind != .eof

theorem exists_beforeEnd (ts : List Token) :
    ∃ rest, ts = beforeEnd ts ++ rest ∧ nextKind rest = .eof := by
  refine ⟨ts.dropWhile fun t => t.kind != .eof,
    List.takeWhile_append_dropWhile.symm, ?_⟩
  induction ts with
  | nil => rfl
  | cons t ts ih =>
    rw [List.dropWhile_cons]
    split
    next => exact ih
    next hkind =>
      have heof : t.kind = .eof := by simpa using hkind
      exact heof

theorem beforeEnd_append {ts rest : List Token} (hts : ∀ t ∈ ts, t.kind ≠ .eof)
    (hrest : nextKind rest = .eof) : beforeEnd (ts ++ rest) = ts := by
  have hend : beforeEnd rest = [] := by
    cases rest with
    | nil => rfl
    | cons t rest =>
      have heof : t.kind = .eof := hrest
      exact List.takeWhile_cons_of_neg (by simp [heof])
  rw [beforeEnd, List.takeWhile_append_of_pos (by simpa using hts)]
  rw [beforeEnd] at hend
  rw [hend, List.append_nil]

/-- A program stands in front of the end if the tokens there are its tokens. -/
theorem eq_before_iff (p : ProgramTree) (ts : List Token) :
    (∃ rest, ts = p.before rest ∧ nextKind rest = .eof) ↔
      p.tokens = beforeEnd ts := by
  obtain ⟨us, hus, hbefore⟩ := p.prepends
  have htokens : p.tokens = us := by
    rw [ProgramTree.tokens, hbefore, List.append_nil]
  rw [htokens]
  constructor
  · rintro ⟨rest, rfl, hrest⟩
    rw [hbefore, beforeEnd_append hus hrest]
  · rintro rfl
    obtain ⟨rest, hts, hrest⟩ := exists_beforeEnd ts
    exact ⟨rest, by rw [hbefore, ← hts], hrest⟩

/-- The functions that are read from tokens are those that the grammar derives
from all the tokens in front of the end, and tokens have at most one
derivation. -/
theorem parse_accepts_exactly (ts : List Token) (fs : List Function) :
    (parse ts = .ok fs ↔
      ∃ p : ProgramTree, p.tokens = beforeEnd ts ∧ p.meaning = fs) ∧
    Function.Injective ProgramTree.tokens := by
  refine ⟨⟨fun h => ?_, ?_⟩, fun p p' h => ProgramTree.eq_of_tokens_eq h⟩
  · obtain ⟨p, rest, hts, hmeaning, hrest⟩ :=
      derived_functions ts (Nat.le_refl _) h
    exact ⟨p, (eq_before_iff p ts).mp ⟨rest, hts, hrest⟩, hmeaning⟩
  · rintro ⟨p, htokens, rfl⟩
    obtain ⟨rest, rfl, hrest⟩ := (eq_before_iff p ts).mpr htokens
    exact reads_functions p hrest (Nat.le_refl _)

end Grammar

end StackC
