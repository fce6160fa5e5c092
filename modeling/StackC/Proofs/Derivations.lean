import StackC.Proofs.Grammar

/-!
What is read is derived. Whenever a reader of tokens succeeds, the tokens it has
taken are those of a derivation, and its result is what the derivation means.
-/

namespace StackC

namespace Grammar

theorem integer_iff (t : Token) (e : Expr) :
    Parser.integer t = .ok e ↔ Literal t.lexeme e := by
  have hint := Numeral.readInt_iff (show 0 < 64 by decide) t.lexeme
  have hnat := @Numeral.readUnsigned_iff 64 t.lexeme
  rw [Parser.integer]
  cases hread : Numeral.readInt 64 t.lexeme with
  | ok v =>
    obtain ⟨h, hfits⟩ := (hint v).mp hread
    constructor
    · rintro ⟨⟩
      exact .signed h hfits
    · intro hliteral
      cases hliteral with
      | signed h' =>
        cases h.unique h'
        rfl
      | unsigned h' hlow =>
        cases h.unique (.plain h')
        have hhigh := hfits.2
        norm_num at hhigh
        omega
  | error failure =>
    have hnone : ∀ v,
        ¬ (Numeral.Signed Numeral.Unsigned t.lexeme v ∧ Numeral.Fits 64 v) := by
      intro v hv
      cases hread.symm.trans ((hint v).mpr hv)
    cases hread' : Numeral.readUnsigned 64 t.lexeme with
    | ok n =>
      obtain ⟨h, hhigh⟩ := (hnat n).mp hread'
      constructor
      · rintro ⟨⟩
        refine .unsigned h ?_ hhigh
        by_contra hlow
        exact hnone n ⟨.plain h, by norm_num, by norm_num; omega⟩
      · intro hliteral
        cases hliteral with
        | signed h' hfits => exact absurd ⟨h', hfits⟩ (hnone _)
        | unsigned h' =>
          cases h.unique h'
          rfl
    | error failure' =>
      constructor
      · intro h
        cases h
      · intro hliteral
        cases hliteral with
        | signed h' hfits => exact absurd ⟨h', hfits⟩ (hnone _)
        | unsigned h' _ hhigh =>
          cases hread'.symm.trans ((hnat _).mpr ⟨h', hhigh⟩)

theorem character_iff (t : Token) (e : Expr) :
    Parser.character t = .ok e ↔
      ∃ v, e = .int (Int64.ofInt v) (some .char) ∧
        Numeral.Signed Numeral.Decimal t.lexeme v ∧ Numeral.Fits 64 v := by
  have hiff := Numeral.readDecimal_iff (show 0 < 64 by decide) t.lexeme
  simp only [← hiff, Parser.character]
  cases Numeral.readDecimal 64 t.lexeme with
  | ok v =>
    constructor
    · rintro ⟨⟩
      exact ⟨v, rfl, rfl⟩
    · rintro ⟨w, rfl, hw⟩
      cases hw
      rfl
  | error failure =>
    constructor
    · intro h
      cases h
    · rintro ⟨w, -, hw⟩
      cases hw

variable {ts : List Token} {e : Expr} {expression : Parser Expr} {ty : Ty}
  {read : Parser Stmt}

theorem of_expect {kind : TokenKind} {rest : List Token} {t : Token}
    (h : Parser.expect kind ts = .ok (t, rest)) :
    ts = t :: rest ∧ t.kind = kind := by
  cases ts with
  | nil => cases h
  | cons first ts =>
    rw [Parser.expect] at h
    obtain ⟨hkind, h⟩ := ok_of_then h
    cases h
    exact ⟨rfl, hkind⟩

/-- A token that has been looked at is there, unless it is the end. -/
theorem exists_cons_of_nextKind (h : Parser.nextKind ts ≠ .eof) :
    ∃ t us, ts = t :: us := by
  cases ts with
  | nil => exact absurd rfl h
  | cons t us => exact ⟨t, us, rfl⟩

theorem exists_cons_of_kind {kind : TokenKind} (h : Parser.nextKind ts = kind)
    (hkind : kind ≠ .eof) :
    ∃ (t : Terminal kind) (us : List Token), ts = t.val :: us := by
  obtain ⟨t, us, rfl⟩ := exists_cons_of_nextKind (h ▸ hkind)
  exact ⟨⟨t, h⟩, us, rfl⟩

/-! ### Expressions -/

def Derived (s : ExprSymbol) (read : Parser s.Meaning) : Prop :=
  ∀ {ts : List Token} {a : s.Meaning} {rest : List Token},
    read ts = .ok (a, rest) →
  ∃ d : ExprTree s, ts = d.before rest ∧ d.meaning = a

/-- A function tells the operators of one level. -/
def OperatorsOf (n : Nat) (op? : TokenKind → Option Operator) : Prop :=
  ∀ kind op, op? kind = some op ↔ operator? kind = some (n, op)

theorem operatorsOf_multiplicative : OperatorsOf 0 Parser.multiplicative? := by
  intro kind op
  cases kind <;> simp [Parser.multiplicative?, operator?]

theorem operatorsOf_additive : OperatorsOf 1 Parser.additive? := by
  intro kind op
  cases kind <;> simp [Parser.additive?, operator?]

theorem operatorsOf_relation : OperatorsOf 2 Parser.relation? := by
  intro kind op
  cases kind <;> simp [Parser.relation?, operator?]

theorem operatorsOf_equality : OperatorsOf 3 Parser.equality? := by
  intro kind op
  cases kind <;> simp [Parser.equality?, operator?]

theorem derived_chainMore {n : Nat} {op? : TokenKind → Option Operator}
    {operand : Parser Expr} (hop : OperatorsOf n op?)
    (hoperand : Derived (.level n) operand) (bound : List Token) {left : Expr}
    {rest : List Token}
    (h : Parser.chainMore op? operand bound left ts = .ok (e, rest)) :
    ∃ d : ExprTree (.more n), ts = d.before rest ∧ d.meaning left = e := by
  induction bound generalizing left ts with
  | nil =>
    cases h
    exact ⟨.moreNone, rfl, rfl⟩
  | cons _ bound ih =>
    rw [Parser.chainMore] at h
    split at h
    next =>
      cases h
      exact ⟨.moreNone, rfl, rfl⟩
    next op hfound =>
      have hlookup := (hop _ _).mp hfound
      have hthere : Parser.nextKind ts ≠ .eof := by
        intro heof
        rw [heof] at hlookup
        cases hlookup
      obtain ⟨t, us, rfl⟩ := exists_cons_of_nextKind hthere
      obtain ⟨⟨right, mid⟩, hright, h⟩ := ok_of_bind h
      obtain ⟨more, rfl, rfl⟩ := ih h
      obtain ⟨first, hfirst, rfl⟩ := hoperand hright
      exact ⟨.moreSome t op hlookup first more, congrArg (t :: ·) hfirst, rfl⟩

theorem derived_chain {n : Nat} {op? : TokenKind → Option Operator}
    {operand : Parser Expr} (hop : OperatorsOf n op?)
    (hoperand : Derived (.level n) operand) :
    Derived (.level (n + 1)) (Parser.chain op? operand) := by
  intro ts e rest h
  obtain ⟨⟨left, mid⟩, hleft, h⟩ := ok_of_bind h
  obtain ⟨first, hfirst, rfl⟩ := hoperand hleft
  obtain ⟨more, hmore, rfl⟩ := derived_chainMore hop hoperand _ h
  exact ⟨.operation first more, hfirst.trans (congrArg first.before hmore), rfl⟩

theorem derived_expressionOf {unary : Parser Expr}
    (hunary : Derived (.level 0) unary) :
    Derived .expression (Parser.expressionOf unary) :=
  derived_chain operatorsOf_equality
    (derived_chain operatorsOf_relation
      (derived_chain operatorsOf_additive
        (derived_chain operatorsOf_multiplicative hunary)))

theorem derived_primaryOf (hexpression : Derived .expression expression) :
    Derived .primary (Parser.primaryOf expression) := by
  intro ts e rest h
  cases ts with
  | nil => cases h
  | cons t ts =>
    rw [Parser.primaryOf] at h
    split at h
    next hkind =>
      obtain ⟨a, ha, h⟩ := ok_of_bind h
      cases h
      exact ⟨.atom t _ (.integer hkind ((integer_iff t _).mp ha)), rfl, rfl⟩
    next hkind =>
      obtain ⟨a, ha, h⟩ := ok_of_bind h
      cases h
      obtain ⟨v, rfl, hv, hfits⟩ := (character_iff t _).mp ha
      exact ⟨.atom t _ (.character hkind hv hfits), rfl, rfl⟩
    next hkind =>
      cases h
      exact ⟨.atom t _ (.string hkind), rfl, rfl⟩
    next hkind =>
      cases h
      exact ⟨.atom t _ (.name hkind), rfl, rfl⟩
    next hkind =>
      obtain ⟨⟨inner, mid⟩, hinner, h⟩ := ok_of_bind h
      obtain ⟨⟨close, last⟩, hclose, h⟩ := ok_of_bind h
      cases h
      obtain ⟨d, rfl, rfl⟩ := hexpression hinner
      obtain ⟨rfl, hright⟩ := of_expect hclose
      exact ⟨.paren ⟨t, hkind⟩ d ⟨close, hright⟩, rfl, rfl⟩
    next => cases h

theorem derived_indicesOf (hexpression : Derived .expression expression)
    (bound : List Token) {e' : Expr} {rest : List Token}
    (h : Parser.indicesOf expression bound e ts = .ok (e', rest)) :
    ∃ d : ExprTree .indices, ts = d.before rest ∧ d.meaning e = e' := by
  induction bound generalizing e ts with
  | nil =>
    cases h
    exact ⟨.indicesNone, rfl, rfl⟩
  | cons _ bound ih =>
    rw [Parser.indicesOf] at h
    split at h
    next hnext =>
      obtain ⟨left, us, rfl⟩ := exists_cons_of_kind hnext (by decide)
      obtain ⟨⟨index, mid⟩, hindex, h⟩ := ok_of_bind h
      obtain ⟨⟨close, last⟩, hclose, h⟩ := ok_of_bind h
      obtain ⟨more, rfl, rfl⟩ := ih h
      obtain ⟨rfl, hright⟩ := of_expect hclose
      obtain ⟨d, hd, rfl⟩ := hexpression hindex
      exact ⟨.indicesSome left d ⟨close, hright⟩ more,
        congrArg (left.val :: ·) hd, rfl⟩
    next =>
      cases h
      exact ⟨.indicesNone, rfl, rfl⟩

theorem derived_commaSeparated (hexpression : Derived .expression expression)
    (bound : List Token) :
    Derived .list (Parser.commaSeparated expression bound) := by
  induction bound with
  | nil =>
    intro ts as rest h
    obtain ⟨⟨a, mid⟩, ha, h⟩ := ok_of_bind h
    cases h
    obtain ⟨d, rfl, rfl⟩ := hexpression ha
    exact ⟨.list d .moreArgsNone, rfl, rfl⟩
  | cons _ bound ih =>
    intro ts as rest h
    obtain ⟨⟨a, mid⟩, ha, h⟩ := ok_of_bind h
    obtain ⟨d, rfl, rfl⟩ := hexpression ha
    dsimp only at h
    split at h
    next hnext =>
      obtain ⟨⟨more, last⟩, hmore, h⟩ := ok_of_bind h
      cases h
      obtain ⟨comma, us, rfl⟩ := exists_cons_of_kind hnext (by decide)
      obtain ⟨list, hlist, rfl⟩ := ih hmore
      cases list with
      | list next others =>
        refine ⟨.list d (.moreArgsSome comma next others), ?_, rfl⟩
        exact congrArg (fun us => d.before (comma.val :: us)) hlist
    next =>
      cases h
      exact ⟨.list d .moreArgsNone, rfl, rfl⟩

/-- Arguments are read together with the parenthesis behind them. -/
theorem derived_argumentsOf (hexpression : Derived .expression expression)
    {rest : List Token} {as : List Expr}
    (h : Parser.argumentsOf expression ts = .ok (as, rest)) :
    ∃ (d : ExprTree .args) (right : Terminal .rparen),
      ts = d.before (right.val :: rest) ∧
    d.meaning = as := by
  rw [Parser.argumentsOf] at h
  split at h
  next =>
    obtain ⟨⟨close, last⟩, hclose, h⟩ := ok_of_bind h
    cases h
    obtain ⟨rfl, hright⟩ := of_expect hclose
    exact ⟨.argsNone, ⟨close, hright⟩, rfl, rfl⟩
  next =>
    obtain ⟨⟨args, mid⟩, hargs, h⟩ := ok_of_bind h
    obtain ⟨⟨close, last⟩, hclose, h⟩ := ok_of_bind h
    cases h
    obtain ⟨d, rfl, rfl⟩ := derived_commaSeparated hexpression _ hargs
    obtain ⟨rfl, hright⟩ := of_expect hclose
    exact ⟨.argsSome d, ⟨close, hright⟩, rfl, rfl⟩

theorem derived_operandOf (hexpression : Derived .expression expression) :
    Derived .operand (Parser.operandOf expression) := by
  intro ts e rest h
  rw [Parser.operandOf] at h
  split at h
  next hcall =>
    obtain ⟨⟨args, last⟩, hargs, h⟩ := ok_of_bind h
    cases h
    obtain ⟨name, us, rfl⟩ := exists_cons_of_kind hcall.1 (by decide)
    obtain ⟨left, vs, rfl⟩ := exists_cons_of_kind hcall.2 (by decide)
    obtain ⟨d, right, hd, rfl⟩ := derived_argumentsOf hexpression hargs
    exact ⟨.call name left d right,
      congrArg (fun us => name.val :: left.val :: us) hd, rfl⟩
  next =>
    obtain ⟨⟨first, mid⟩, hfirst, h⟩ := ok_of_bind h
    obtain ⟨⟨indexed, last⟩, hindexed, h⟩ := ok_of_bind h
    dsimp only at h
    obtain ⟨-, h⟩ := ok_of_else h
    cases h
    obtain ⟨primary, rfl, rfl⟩ := derived_primaryOf hexpression hfirst
    obtain ⟨indices, rfl, rfl⟩ := derived_indicesOf hexpression _ hindexed
    exact ⟨.indexed primary indices, rfl, rfl⟩

theorem derived_unary (bound : List Token) :
    Derived (.level 0) (Parser.unary bound) := by
  induction bound with
  | nil =>
    intro ts e rest h
    cases h
  | cons _ bound ih =>
    intro ts e rest h
    have hfront {kind : TokenKind} (f : Front)
        (hkind : Parser.nextKind ts = kind) (hf : front? kind = some f)
        (hne : kind ≠ .eof)
        (h : (Parser.unary bound (ts.drop 1) >>= fun r =>
        .ok (f.apply r.1, r.2)) = .ok (e, rest)) : ∃ d : ExprTree (.level 0),
        ts = d.before rest ∧ d.meaning = e := by
      obtain ⟨⟨inner, last⟩, hinner, h⟩ := ok_of_bind h
      cases h
      obtain ⟨t, us, rfl⟩ := exists_cons_of_kind hkind hne
      obtain ⟨d, hd, rfl⟩ := ih hinner
      have hfront : front? t.val.kind = some f := by rw [t.property, hf]
      exact ⟨.front t.val f hfront d, congrArg (t.val :: ·) hd, rfl⟩
    rw [Parser.unary] at h
    split at h
    next hkind => exact hfront .address hkind rfl (by decide) h
    next hkind => exact hfront .content hkind rfl (by decide) h
    next hkind => exact hfront .negative hkind rfl (by decide) h
    next =>
      obtain ⟨d, rfl, rfl⟩ := derived_operandOf (derived_expressionOf ih) h
      exact ⟨.plain d, rfl, rfl⟩

theorem derived_expression : Derived .expression Parser.expression := by
  intro ts e rest h
  exact derived_expressionOf (derived_unary ts) h

/-! ### Types -/

theorem exists_optional (kind : TokenKind) (ts : List Token) :
    ∃ o : Option (Terminal kind), ts = optional o (Parser.skip kind ts) := by
  cases ts with
  | nil => exact ⟨none, rfl⟩
  | cons t ts =>
    rw [Parser.skip]
    split
    next hkind => exact ⟨some ⟨t, hkind⟩, rfl⟩
    next => exact ⟨none, rfl⟩

theorem exists_stars (ty : Ty) (ts : List Token) :
    ∃ stars : List (Terminal .star),
      ts = stars.map Subtype.val ++ (Parser.stars ty ts).2 ∧
    (Parser.stars ty ts).1 = stars.foldl (fun ty _ => .pointer ty) ty := by
  induction ts generalizing ty with
  | nil => exact ⟨[], rfl, rfl⟩
  | cons t ts ih =>
    rw [Parser.stars]
    split
    next hkind =>
      obtain ⟨stars, hts, hty⟩ := ih (.pointer ty)
      exact ⟨⟨t, hkind⟩ :: stars, congrArg (t :: ·) hts, hty⟩
    next => exact ⟨[], rfl, rfl⟩

/-- After a sign there is a base or nothing; without one there is a base or
`void`. -/
theorem derived_base {start : Token} {sign : Option Bool} {rest : List Token}
    (h : Parser.base start sign ts = .ok (ty, rest)) :
    (∃ b : BaseTree, ts = b.before rest ∧
      ty = .base b.meaning (sign == some true)) ∨
    (∃ unsigned, sign = some unsigned ∧ ts = rest ∧ ty = .base .int unsigned) ∨
    (∃ word : Terminal .void, sign = none ∧ ts = word.val :: rest ∧
      ty = .void) := by
  rw [Parser.base] at h
  split at h
  next hkind =>
    obtain ⟨word, us, rfl⟩ := exists_cons_of_kind hkind (by decide)
    cases h
    exact Or.inl ⟨.char word, rfl, rfl⟩
  next hkind =>
    obtain ⟨word, us, rfl⟩ := exists_cons_of_kind hkind (by decide)
    cases h
    obtain ⟨tail, htail⟩ := exists_optional .int us
    exact Or.inl ⟨.short word tail, congrArg (word.val :: ·) htail, rfl⟩
  next hkind =>
    obtain ⟨word, us, rfl⟩ := exists_cons_of_kind hkind (by decide)
    cases h
    exact Or.inl ⟨.int word, rfl, rfl⟩
  next hkind =>
    obtain ⟨word, us, rfl⟩ := exists_cons_of_kind hkind (by decide)
    cases h
    obtain ⟨again, hagain⟩ := exists_optional .long us
    obtain ⟨tail, htail⟩ := exists_optional .int (Parser.skip .long us)
    refine Or.inl ⟨.long word again tail, ?_, rfl⟩
    exact congrArg (word.val :: ·)
      (hagain.trans (congrArg (optional again) htail))
  next hkind =>
    cases sign with
    | some => cases h
    | none =>
      obtain ⟨word, us, rfl⟩ := exists_cons_of_kind hkind (by decide)
      cases h
      exact Or.inr (Or.inr ⟨word, rfl, rfl, rfl⟩)
  next =>
    cases sign with
    | none => cases h
    | some unsigned =>
      cases h
      exact Or.inr
        (Or.inl ⟨unsigned, rfl, rfl, by rw [Option.some_beq_some, beq_true]⟩)

def DerivedType (ty : Ty) (ts rest : List Token) : Prop :=
  ∃ (s : Specifier) (stars : List (Terminal .star)),
    ts = s.before (stars.map Subtype.val ++ rest) ∧
    ty = stars.foldl (fun ty _ => .pointer ty) s.meaning

theorem derived_type {rest : List Token} (h : Parser.type ts = .ok (ty, rest)) :
    DerivedType ty ts rest := by
  have hstars {start : Token} {sign : Option Bool} {us : List Token}
      (h : (Parser.base start sign us >>= fun r => .ok (Parser.stars r.1 r.2)) =
      .ok (ty, rest)) : ∃ (bare : Ty) (stars : List (Terminal .star)),
      Parser.base start sign us = .ok (bare, stars.map Subtype.val ++ rest) ∧
      ty = stars.foldl (fun ty _ => .pointer ty) bare := by
    obtain ⟨⟨bare, mid⟩, hbare, h⟩ := ok_of_bind h
    obtain ⟨stars, hmid, hty⟩ := exists_stars bare mid
    obtain ⟨rfl, rfl⟩ := Prod.mk.inj (Except.ok.inj h)
    exact ⟨bare, stars, hmid ▸ hbare, hty⟩
  have hsigned {unsigned : Bool} {start : Token} (word : Token)
      (us : List Token) (hsign : sign? word.kind = some unsigned)
      (h : (Parser.base start (some unsigned) us >>= fun r =>
      .ok (Parser.stars r.1 r.2)) = .ok (ty, rest)) :
      DerivedType ty (word :: us) rest := by
    obtain ⟨bare, stars, hbare, hty⟩ := hstars h
    rcases derived_base hbare with
        ⟨b, hus, rfl⟩ | ⟨_, hsome, hus, rfl⟩ | ⟨_, hnone, -⟩
    · rw [Option.some_beq_some, beq_true] at hty
      exact ⟨.signedBase ⟨word, unsigned, hsign⟩ b, stars,
        congrArg (word :: ·) hus, hty⟩
    · cases hsome
      exact ⟨.sign ⟨word, unsigned, hsign⟩, stars,
        congrArg (word :: ·) hus, hty⟩
    · cases hnone
  rw [Parser.type] at h
  split at h
  next hkind =>
    obtain ⟨word, us, rfl⟩ := exists_cons_of_kind hkind (by decide)
    exact hsigned word.val us (by rw [word.property]; rfl) h
  next hkind =>
    obtain ⟨word, us, rfl⟩ := exists_cons_of_kind hkind (by decide)
    exact hsigned word.val us (by rw [word.property]; rfl) h
  next =>
    obtain ⟨bare, stars, hbare, hty⟩ := hstars h
    rcases derived_base hbare with
        ⟨b, hus, rfl⟩ | ⟨_, hsome, -⟩ | ⟨word, -, hus, rfl⟩
    · exact ⟨.base b, stars, hus, hty⟩
    · cases hsome
    · exact ⟨.void word, stars, hus, hty⟩

theorem derived_param {rest : List Token} {a : Param}
    (h : Parser.param ts = .ok (a, rest)) :
    ∃ p : ParamTree, ts = p.before rest ∧ p.meaning = a := by
  obtain ⟨⟨ty, mid⟩, htype, h⟩ := ok_of_bind h
  obtain ⟨⟨name, last⟩, hname, h⟩ := ok_of_bind h
  cases h
  obtain ⟨s, stars, rfl, rfl⟩ := derived_type htype
  obtain ⟨rfl, hkind⟩ := of_expect hname
  exact ⟨⟨s, stars, ⟨name, hkind⟩⟩, rfl, rfl⟩

theorem derived_moreParams (bound : List Token) {rest : List Token}
    {as : List Param}
    (h : Parser.commaSeparated Parser.param bound ts = .ok (as, rest)) :
    ∃ (first : ParamTree) (more : List (Terminal .comma × ParamTree)),
      ts = first.before (ParamsTree.moreBefore more rest) ∧
    as = first.meaning :: more.map fun p => p.2.meaning := by
  induction bound generalizing ts as with
  | nil =>
    obtain ⟨⟨a, mid⟩, ha, h⟩ := ok_of_bind h
    cases h
    obtain ⟨p, rfl, rfl⟩ := derived_param ha
    exact ⟨p, [], rfl, rfl⟩
  | cons _ bound ih =>
    obtain ⟨⟨a, mid⟩, ha, h⟩ := ok_of_bind h
    obtain ⟨p, rfl, rfl⟩ := derived_param ha
    dsimp only at h
    split at h
    next hnext =>
      obtain ⟨comma, us, rfl⟩ := exists_cons_of_kind hnext (by decide)
      obtain ⟨⟨others, last⟩, hothers, h⟩ := ok_of_bind h
      cases h
      obtain ⟨next, more, hts, rfl⟩ := ih hothers
      exact ⟨p, (comma, next) :: more,
        congrArg (fun us => p.before (comma.val :: us)) hts, rfl⟩
    next =>
      cases h
      exact ⟨p, [], rfl, rfl⟩

/-- Parameters are read together with the parenthesis behind them. -/
theorem derived_params {rest : List Token} {as : List Param}
    (h : Parser.params ts = .ok (as, rest)) :
    ∃ (ps : ParamsTree) (right : Terminal .rparen),
      ts = ps.before (right.val :: rest) ∧
    ps.meaning = as := by
  rw [Parser.params] at h
  split at h
  next hvoid =>
    obtain ⟨word, us, rfl⟩ := exists_cons_of_kind hvoid.1 (by decide)
    obtain ⟨⟨close, last⟩, hclose, h⟩ := ok_of_bind h
    cases h
    obtain ⟨hus, hright⟩ := of_expect hclose
    exact ⟨.void word, ⟨close, hright⟩, congrArg (word.val :: ·) hus, rfl⟩
  next =>
    split at h
    next =>
      obtain ⟨⟨close, last⟩, hclose, h⟩ := ok_of_bind h
      cases h
      obtain ⟨rfl, hright⟩ := of_expect hclose
      exact ⟨.none, ⟨close, hright⟩, rfl, rfl⟩
    next =>
      obtain ⟨⟨ps, mid⟩, hps, h⟩ := ok_of_bind h
      obtain ⟨⟨close, last⟩, hclose, h⟩ := ok_of_bind h
      cases h
      obtain ⟨first, more, rfl, rfl⟩ := derived_moreParams _ hps
      obtain ⟨rfl, hright⟩ := of_expect hclose
      exact ⟨.some first more, ⟨close, hright⟩, rfl, rfl⟩

/-! ### Statements -/

theorem derived_declarator {ty' : Ty} {rest : List Token}
    (h : Parser.declarator ty ts = .ok (ty', rest)) :
    ∃ size : Option SizeTree, ts = SimpleTree.sizeBefore size rest ∧
      ty' = SimpleTree.sizeMeaning ty size := by
  rw [Parser.declarator] at h
  split at h
  next hnext =>
    obtain ⟨left, us, rfl⟩ := exists_cons_of_kind hnext (by decide)
    obtain ⟨⟨len, mid⟩, hlen, h⟩ := ok_of_bind h
    cases h
    obtain ⟨⟨size, last⟩, hsize, hlen⟩ := ok_of_bind hlen
    dsimp only at hlen
    split at hlen
    next => cases hlen
    next n hn =>
      obtain ⟨⟨close, tail⟩, hclose, hlen⟩ := ok_of_bind hlen
      cases hlen
      obtain ⟨hus, hkind⟩ := of_expect hsize
      obtain ⟨hlast, hright⟩ := of_expect hclose
      have hnumeral := (Numeral.readInt_iff (by decide) _ _).mp hn
      refine ⟨some ⟨left, ⟨size, hkind⟩, n, hnumeral, ⟨close, hright⟩⟩, ?_, rfl⟩
      exact congrArg (left.val :: ·) (hus.trans (congrArg (size :: ·) hlast))
  next =>
    cases h
    exact ⟨none, rfl, rfl⟩

/-- What a statement without statements in it takes, with the semicolon. -/
def DerivedSimple (s : Stmt) (ts rest : List Token) : Prop :=
  ∃ (d : SimpleTree) (semicolon : Terminal .semicolon),
    ts = d.before (semicolon.val :: rest) ∧
  d.meaning = s

theorem derived_declaration {rest : List Token} {s : Stmt}
    (h : Parser.declaration ts = .ok (s, rest)) : DerivedSimple s ts rest := by
  obtain ⟨⟨a, mid⟩, ha, h⟩ := ok_of_bind h
  obtain ⟨⟨ty, last⟩, hty, h⟩ := ok_of_bind h
  obtain ⟨p, rfl, rfl⟩ := derived_param ha
  obtain ⟨size, rfl, rfl⟩ := derived_declarator hty
  dsimp only at h
  split at h
  next hnext =>
    obtain ⟨assign, us, rfl⟩ := exists_cons_of_kind hnext (by decide)
    obtain ⟨⟨e, behind⟩, he, h⟩ := ok_of_bind h
    obtain ⟨⟨close, tail⟩, hclose, h⟩ := ok_of_bind h
    cases h
    obtain ⟨d, hd, rfl⟩ := derived_expression he
    obtain ⟨rfl, hsemicolon⟩ := of_expect hclose
    refine ⟨.declare p size (some ⟨assign, d⟩), ⟨close, hsemicolon⟩, ?_, rfl⟩
    exact congrArg
      (fun us => p.before (SimpleTree.sizeBefore size (assign.val :: us))) hd
  next =>
    obtain ⟨⟨close, tail⟩, hclose, h⟩ := ok_of_bind h
    cases h
    obtain ⟨rfl, hsemicolon⟩ := of_expect hclose
    exact ⟨.declare p size none, ⟨close, hsemicolon⟩, rfl, rfl⟩

theorem derived_assignment {rest : List Token} {s : Stmt}
    (h : Parser.assignment ts = .ok (s, rest)) : DerivedSimple s ts rest := by
  obtain ⟨⟨e, mid⟩, he, h⟩ := ok_of_bind h
  obtain ⟨target, rfl, rfl⟩ := derived_expression he
  dsimp only at h
  split at h
  next hnext =>
    obtain ⟨assign, us, rfl⟩ := exists_cons_of_kind hnext (by decide)
    obtain ⟨⟨value, behind⟩, hvalue, h⟩ := ok_of_bind h
    obtain ⟨⟨close, tail⟩, hclose, h⟩ := ok_of_bind h
    cases h
    obtain ⟨d, hd, rfl⟩ := derived_expression hvalue
    obtain ⟨rfl, hsemicolon⟩ := of_expect hclose
    refine ⟨.assign target (some ⟨assign, d⟩), ⟨close, hsemicolon⟩, ?_, rfl⟩
    exact congrArg (fun us => target.before (assign.val :: us)) hd
  next =>
    obtain ⟨⟨close, tail⟩, hclose, h⟩ := ok_of_bind h
    cases h
    obtain ⟨rfl, hsemicolon⟩ := of_expect hclose
    exact ⟨.assign target none, ⟨close, hsemicolon⟩, rfl, rfl⟩

theorem derived_returned (word : Terminal .returnWord) {rest : List Token}
    {s : Stmt} (h : Parser.returned ts = .ok (s, rest)) :
    DerivedSimple s (word.val :: ts) rest := by
  rw [Parser.returned] at h
  split at h
  next hnext =>
    obtain ⟨semicolon, us, rfl⟩ := exists_cons_of_kind hnext (by decide)
    cases h
    exact ⟨.ret word none, semicolon, rfl, rfl⟩
  next =>
    obtain ⟨⟨e, mid⟩, he, h⟩ := ok_of_bind h
    obtain ⟨⟨close, tail⟩, hclose, h⟩ := ok_of_bind h
    cases h
    obtain ⟨d, rfl, rfl⟩ := derived_expression he
    obtain ⟨rfl, hsemicolon⟩ := of_expect hclose
    exact ⟨.ret word (some d), ⟨close, hsemicolon⟩, rfl, rfl⟩

theorem derived_printed (word : Terminal .printf) {rest : List Token} {s : Stmt}
    (h : Parser.printed ts = .ok (s, rest)) :
    DerivedSimple s (word.val :: ts) rest := by
  obtain ⟨⟨first, mid⟩, hopen, h⟩ := ok_of_bind h
  obtain ⟨⟨args, last⟩, hargs, h⟩ := ok_of_bind h
  obtain ⟨⟨close, tail⟩, hclose, hresult⟩ := ok_of_bind h
  obtain ⟨rfl, hleft⟩ := of_expect hopen
  obtain ⟨d, right, rfl, rfl⟩ := derived_argumentsOf derived_expression hargs
  obtain ⟨rfl, hsemicolon⟩ := of_expect hclose
  cases d with
  | argsNone => cases hresult
  | argsSome list =>
    cases list with
    | list e more =>
      cases hresult
      exact ⟨.print word ⟨first, hleft⟩ (.list e more) right,
        ⟨close, hsemicolon⟩, rfl, rfl⟩

theorem derived_condition {rest : List Token}
    (h : Parser.condition ts = .ok (e, rest)) :
    ∃ c : CondTree, ts = c.before rest ∧ c.inner.meaning = e := by
  obtain ⟨⟨first, mid⟩, hopen, h⟩ := ok_of_bind h
  obtain ⟨⟨cond, last⟩, hcond, h⟩ := ok_of_bind h
  obtain ⟨⟨close, tail⟩, hclose, h⟩ := ok_of_bind h
  cases h
  obtain ⟨rfl, hleft⟩ := of_expect hopen
  obtain ⟨d, rfl, rfl⟩ := derived_expression hcond
  obtain ⟨rfl, hright⟩ := of_expect hclose
  exact ⟨⟨⟨first, hleft⟩, d, ⟨close, hright⟩⟩, rfl, rfl⟩

/-- What a statement takes. If an `else` could still belong to it, there is
none. -/
def DerivedStmt (s : Stmt) (ts rest : List Token) : Prop :=
  ∃ (isOpen : Bool) (d : StmtTree (.statement isOpen)), ts = d.before rest ∧
    d.meaning = s ∧ StmtTree.Closed isOpen (Parser.nextKind rest)

def DerivesStmt (read : Parser Stmt) : Prop :=
  ∀ {ts : List Token} {s : Stmt} {rest : List Token}, read ts = .ok (s, rest) →
    DerivedStmt s ts rest

theorem derived_statementsOf (hread : DerivesStmt read) (bound : List Token)
    {rest : List Token} {ss : List Stmt}
    (h : Parser.statementsOf read bound ts = .ok (ss, rest)) :
    ∃ d : StmtTree .statements, ts = d.before rest ∧ d.meaning = ss := by
  induction bound generalizing ts ss with
  | nil =>
    cases h
    exact ⟨.nil, rfl, rfl⟩
  | cons _ bound ih =>
    rw [Parser.statementsOf] at h
    split at h
    next =>
      cases h
      exact ⟨.nil, rfl, rfl⟩
    next =>
      obtain ⟨⟨s, mid⟩, hs, h⟩ := ok_of_bind h
      obtain ⟨⟨more, last⟩, hmore, h⟩ := ok_of_bind h
      cases h
      obtain ⟨_, first, rfl, rfl, -⟩ := hread hs
      obtain ⟨others, rfl, rfl⟩ := ih hmore
      exact ⟨.cons first others, rfl, rfl⟩

theorem derived_blockOf (hread : DerivesStmt read) {rest : List Token}
    {ss : List Stmt} (h : Parser.blockOf read ts = .ok (ss, rest)) :
    ∃ (d : StmtTree .statements) (right : Terminal .rbrace),
      ts = d.before (right.val :: rest) ∧
    d.meaning = ss := by
  obtain ⟨⟨body, mid⟩, hbody, h⟩ := ok_of_bind h
  obtain ⟨⟨close, tail⟩, hclose, h⟩ := ok_of_bind h
  cases h
  obtain ⟨d, rfl, rfl⟩ := derived_statementsOf hread _ hbody
  obtain ⟨rfl, hright⟩ := of_expect hclose
  exact ⟨d, ⟨close, hright⟩, rfl, rfl⟩

theorem derived_ifOf (hread : DerivesStmt read) (word : Terminal .ifWord)
    {rest : List Token} {s : Stmt} (h : Parser.ifOf read ts = .ok (s, rest)) :
    DerivedStmt s (word.val :: ts) rest := by
  obtain ⟨⟨e, mid⟩, he, h⟩ := ok_of_bind h
  obtain ⟨⟨s', last⟩, hs', h⟩ := ok_of_bind h
  obtain ⟨cond, rfl, rfl⟩ := derived_condition he
  obtain ⟨isOpen, body, rfl, rfl, hopen⟩ := hread hs'
  dsimp only at h
  split at h
  next hnext =>
    obtain ⟨elseWord, us, rfl⟩ := exists_cons_of_kind hnext (by decide)
    obtain ⟨⟨s'', tail⟩, hs'', h⟩ := ok_of_bind h
    cases h
    obtain ⟨isOpen', orElse, hus, rfl, hopen'⟩ := hread hs''
    -- The body is not open: otherwise it would have taken the `else`.
    cases isOpen with
    | true => exact absurd hnext (hopen rfl)
    | false =>
      refine ⟨isOpen', .ifElse word cond body elseWord orElse, ?_, rfl, hopen'⟩
      exact congrArg (fun us =>
        word.val :: cond.before (body.before (elseWord.val :: us))) hus
  next hnext =>
    cases h
    exact ⟨true, .ifThen word cond body, rfl, rfl, fun _ => hnext⟩

theorem derived_whileOf (hread : DerivesStmt read) (word : Terminal .whileWord)
    {rest : List Token} {s : Stmt}
    (h : Parser.whileOf read ts = .ok (s, rest)) :
    DerivedStmt s (word.val :: ts) rest := by
  obtain ⟨⟨e, mid⟩, he, h⟩ := ok_of_bind h
  obtain ⟨⟨s', last⟩, hs', h⟩ := ok_of_bind h
  cases h
  obtain ⟨cond, rfl, rfl⟩ := derived_condition he
  obtain ⟨isOpen, body, rfl, rfl, hopen⟩ := hread hs'
  exact ⟨isOpen, .whileDo word cond body, rfl, rfl, hopen⟩

theorem DerivedSimple.statement {s : Stmt} {rest : List Token}
    (h : DerivedSimple s ts rest) : DerivedStmt s ts rest := by
  obtain ⟨d, semicolon, rfl, rfl⟩ := h
  exact ⟨false, .simple d semicolon, rfl, rfl, fun h => by cases h⟩

theorem derived_statement (bound : List Token) :
    DerivesStmt (Parser.statement bound) := by
  induction bound with
  | nil =>
    intro ts s rest h
    cases h
  | cons _ bound ih =>
    intro ts s rest h
    have hword {kind : TokenKind} {s' : Stmt}
        (hkind : Parser.nextKind ts = kind) (hne : kind ≠ .eof)
        (hs' : word? kind = some s')
        (h : (Parser.expect .semicolon (ts.drop 1) >>= fun r => .ok (s', r.2)) =
        .ok (s, rest)) : DerivedSimple s ts rest := by
      obtain ⟨word, us, rfl⟩ := exists_cons_of_kind hkind hne
      obtain ⟨⟨close, tail⟩, hclose, h⟩ := ok_of_bind h
      cases h
      obtain ⟨hus, hsemicolon⟩ := of_expect hclose
      have hleave : word? word.val.kind = some s := by rw [word.property, hs']
      exact ⟨.leave word.val s hleave, ⟨close, hsemicolon⟩,
        congrArg (word.val :: ·) hus, rfl⟩
    rw [Parser.statement] at h
    split at h
    next hkind =>
      obtain ⟨left, us, rfl⟩ := exists_cons_of_kind hkind (by decide)
      obtain ⟨⟨body, mid⟩, hbody, h⟩ := ok_of_bind h
      cases h
      obtain ⟨d, right, hus, rfl⟩ := derived_blockOf ih hbody
      exact ⟨false, .block left d right, congrArg (left.val :: ·) hus, rfl,
        fun h => by cases h⟩
    next hkind =>
      obtain ⟨word, us, rfl⟩ := exists_cons_of_kind hkind (by decide)
      exact derived_ifOf ih word h
    next hkind =>
      obtain ⟨word, us, rfl⟩ := exists_cons_of_kind hkind (by decide)
      exact derived_whileOf ih word h
    next hkind =>
      obtain ⟨word, us, rfl⟩ := exists_cons_of_kind hkind (by decide)
      exact (derived_returned word h).statement
    next hkind => exact (hword hkind (by decide) rfl h).statement
    next hkind => exact (hword hkind (by decide) rfl h).statement
    next hkind =>
      obtain ⟨word, us, rfl⟩ := exists_cons_of_kind hkind (by decide)
      exact (derived_printed word h).statement
    next => cases h
    next =>
      split at h
      next => exact (derived_declaration h).statement
      next => exact (derived_assignment h).statement

theorem derived_function {rest : List Token} {a : Function}
    (h : Parser.function ts = .ok (a, rest)) :
    ∃ f : FunctionTree, ts = f.before rest ∧ f.meaning = a := by
  obtain ⟨⟨p, mid⟩, hp, h⟩ := ok_of_bind h
  obtain ⟨head, rfl, rfl⟩ := derived_param hp
  dsimp only at h
  obtain ⟨hnext, h⟩ := ok_of_then h
  obtain ⟨left, us, rfl⟩ := exists_cons_of_kind hnext (by decide)
  obtain ⟨⟨ps, last⟩, hps, h⟩ := ok_of_bind h
  obtain ⟨⟨brace, behind⟩, hbrace, h⟩ := ok_of_bind h
  obtain ⟨⟨body, tail⟩, hbody, h⟩ := ok_of_bind h
  cases h
  obtain ⟨params, right, hus, rfl⟩ := derived_params hps
  obtain ⟨rfl, hleftBrace⟩ := of_expect hbrace
  obtain ⟨d, rightBrace, rfl, rfl⟩ :=
    derived_blockOf (derived_statement _) hbody
  refine ⟨⟨head, left, params, right, ⟨brace, hleftBrace⟩, d, rightBrace⟩,
    ?_, rfl⟩
  exact congrArg (fun us => head.before (left.val :: us)) hus

/-- Functions are read up to the end. The bound is never used up before the
tokens. -/
theorem derived_functions (bound : List Token) {fs : List Function}
    (hbound : ts.length ≤ bound.length)
    (h : Parser.functions bound ts = .ok fs) :
    ∃ (p : ProgramTree) (rest : List Token), ts = p.before rest ∧
      p.meaning = fs ∧ Parser.nextKind rest = .eof := by
  induction bound generalizing ts fs with
  | nil =>
    cases h
    obtain rfl : ts = [] :=
      List.eq_nil_of_length_eq_zero (Nat.le_zero.mp hbound)
    exact ⟨[], [], rfl, rfl, rfl⟩
  | cons _ bound ih =>
    rw [Parser.functions] at h
    split at h
    next hend =>
      cases h
      exact ⟨[], ts, rfl, rfl, hend⟩
    next =>
      obtain ⟨-, h⟩ := ok_of_then h
      obtain ⟨⟨a, mid⟩, ha, h⟩ := ok_of_bind h
      obtain ⟨more, hmore, h⟩ := ok_of_bind h
      cases h
      obtain ⟨f, rfl, rfl⟩ := derived_function ha
      have hshorter := f.length_lt mid
      obtain ⟨p, rest, rfl, rfl, hend⟩ :=
        ih (by rw [List.length_cons] at hbound; omega) hmore
      exact ⟨f :: p, rest, rfl, rfl, hend⟩

end Grammar

end StackC
