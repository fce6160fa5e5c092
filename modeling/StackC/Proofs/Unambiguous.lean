import StackC.Proofs.Derivations

/-!
No tokens have two derivations. The first token of a phrase tells what it is,
and the token behind it tells where it ends: two derivations whose tokens begin
alike are the same, and what stands behind them is the same, if neither is
followed by a token that would go on with it.
-/

namespace StackC

namespace Grammar

open StackC.Parser (nextKind)

/-! ### Where expressions begin and end -/

def startsOperand : TokenKind → Bool
  | .integer | .character | .string | .identifier | .lparen => true
  | _ => false

def startsExpr (kind : TokenKind) : Bool :=
  startsOperand kind || (front? kind).isSome

/-- Kinds that a derivation can begin with; nothing is said where it can be
empty. -/
def ExprSymbol.Starts : ExprSymbol → TokenKind → Prop
  | level _, kind | list, kind => startsExpr kind = true
  | operand, kind | primary, kind => startsOperand kind = true
  | more _, _ | indices, _ | args, _ | moreArgs, _ => True

variable {f : Front} {t : Token} {e : Expr} {op : Operator} {ts us : List Token}

theorem startsExpr_of_front {kind : TokenKind} (h : front? kind = some f) :
    startsExpr kind = true := by
  rw [startsExpr, h, Option.isSome_some, Bool.or_true]

theorem startsExpr_of_operand {kind : TokenKind}
    (h : startsOperand kind = true) : startsExpr kind = true := by
  rw [startsExpr, h, Bool.true_or]

theorem startsOperand_of_front {kind : TokenKind} (h : front? kind = some f) :
    startsOperand kind = false := by
  cases kind <;> simp [front?] at h <;> rfl

theorem Atom.startsOperand (h : Atom t e) : startsOperand t.kind = true := by
  cases h with
  | integer hkind | character hkind | string hkind | name hkind =>
    rw [hkind]; rfl

theorem ExprTree.starts {s : ExprSymbol} (d : ExprTree s) (rest : List Token) :
    s.Starts (nextKind (d.before rest)) := by
  induction d generalizing rest with
  | operation _ _ ih _ | list _ _ ih _ => exact ih _
  | front t f h => exact startsExpr_of_front h
  | plain _ ih => exact startsExpr_of_operand (ih rest)
  | indexed _ _ ih _ => exact ih _
  | call name =>
    show startsOperand name.val.kind = true
    rw [name.property]
    rfl
  | atom t e h => exact h.startsOperand
  | paren left =>
    show startsOperand left.val.kind = true
    rw [left.property]
    rfl
  | moreNone | moreSome | indicesNone | indicesSome | argsNone | argsSome
  | moreArgsNone | moreArgsSome =>
    exact trivial

theorem ExprTree.nextKind_ne {s : ExprSymbol} (d : ExprTree s)
    (rest : List Token) {kind : TokenKind} (h : ¬ s.Starts kind) :
    nextKind (d.before rest) ≠ kind :=
  fun hkind => h (hkind ▸ d.starts rest)

/-- A token does not go on with an expression of a level: it is no operator that
binds tighter, and no index and no call begins with it. -/
def EndsLevel (n : Nat) (kind : TokenKind) : Prop :=
  (∀ m op, operator? kind = some (m, op) → n ≤ m) ∧ kind ≠ .lbracket ∧
    kind ≠ .lparen

/-- Kinds that do not go on with a derivation. -/
def ExprSymbol.Stops : ExprSymbol → TokenKind → Prop
  | level n, kind => EndsLevel n kind
  | more n, kind => EndsLevel (n + 1) kind
  | operand, kind | indices, kind => kind ≠ .lbracket ∧ kind ≠ .lparen
  | primary, _ => True
  | args, kind | list, kind | moreArgs, kind => kind = .rparen

/-- The kinds of tokens behind whole expressions. -/
def closes : TokenKind → Bool
  | .rparen | .rbracket | .semicolon | .comma | .assign => true
  | _ => false

theorem endsLevel_of_closes {kind : TokenKind} (h : closes kind = true)
    (n : Nat) : EndsLevel n kind := by
  cases kind <;> simp [closes] at h <;> simp [EndsLevel, operator?]

theorem endsLevel_of_operator {kind : TokenKind} {n : Nat}
    (h : operator? kind = some (n, op)) : EndsLevel n kind := by
  refine ⟨fun m op' hm => ?_, ?_, ?_⟩
  · cases h.symm.trans hm
    exact Nat.le_refl n
  · rintro rfl
    cases h
  · rintro rfl
    cases h

theorem not_endsLevel {kind : TokenKind} {n : Nat}
    (h : operator? kind = some (n, op)) : ¬ EndsLevel (n + 1) kind :=
  fun hends => Nat.not_succ_le_self n (hends.1 n op h)

theorem closes_terminal {kind : TokenKind} (t : Terminal kind)
    (h : closes kind = true) : closes t.val.kind = true := by
  rw [t.property, h]

namespace ExprTree

variable {n : Nat} {rest : List Token}

/-- An operand is followed by an operator of its level, or by what follows the
whole. -/
theorem ends_more (d : ExprTree (.more n))
    (h : EndsLevel (n + 1) (nextKind rest)) :
    EndsLevel n (nextKind (d.before rest)) := by
  cases d with
  | moreNone => exact ⟨fun m op hm => (Nat.le_succ n).trans (h.1 m op hm), h.2⟩
  | moreSome t op hop => exact endsLevel_of_operator hop

theorem ends_indices (d : ExprTree .indices)
    (h : nextKind rest ≠ .lparen) :
    nextKind (d.before rest) ≠ .lparen := by
  cases d with
  | indicesNone => exact h
  | indicesSome left =>
    show left.val.kind ≠ .lparen
    rw [left.property]
    decide

theorem ends_moreArgs (d : ExprTree .moreArgs)
    (h : nextKind rest = .rparen) :
    EndsLevel n (nextKind (d.before rest)) := by
  apply endsLevel_of_closes
  cases d with
  | moreArgsNone => exact (congrArg closes h).trans rfl
  | moreArgsSome comma => exact closes_terminal comma rfl

end ExprTree

/-! ### Expressions -/

theorem eq_of_cons {kind : TokenKind} {t u : Terminal kind}
    (h : t.val :: ts = u.val :: us) : t = u ∧ ts = us :=
  ⟨Subtype.ext (List.cons.inj h).1, (List.cons.inj h).2⟩

theorem kind_eq_of_cons {u : Token} (h : t :: ts = u :: us) : t.kind = u.kind :=
  congrArg Token.kind (List.cons.inj h).1

/-- Tokens of two kinds are not the same. -/
theorem cons_ne_cons {kind kind' : TokenKind} (t : Terminal kind)
    (u : Terminal kind') (hne : kind ≠ kind') (ts us : List Token) :
    t.val :: ts ≠ u.val :: us :=
  fun h => hne (t.property.symm.trans ((kind_eq_of_cons h).trans u.property))

theorem Atom.unique {e' : Expr} (h : Atom t e) (h' : Atom t e') : e = e' := by
  cases h with
  | integer hkind h =>
    cases h' with
    | integer _ h' =>
      exact Except.ok.inj
        (((integer_iff t e).mpr h).symm.trans ((integer_iff t e').mpr h'))
    | character hkind' | string hkind' | name hkind' =>
      cases hkind.symm.trans hkind'
  | character hkind h hfits =>
    cases h' with
    | character _ h' hfits' =>
      have hread := (character_iff t _).mpr ⟨_, rfl, h, hfits⟩
      have hread' := (character_iff t _).mpr ⟨_, rfl, h', hfits'⟩
      exact Except.ok.inj (hread.symm.trans hread')
    | integer hkind' | string hkind' | name hkind' =>
      cases hkind.symm.trans hkind'
  | string hkind =>
    cases h' with
    | string => rfl
    | integer hkind' | character hkind' | name hkind' =>
      cases hkind.symm.trans hkind'
  | name hkind =>
    cases h' with
    | name => rfl
    | integer hkind' | character hkind' | string hkind' =>
      cases hkind.symm.trans hkind'

namespace ExprTree

variable {n : Nat}

/-- A name that is called is no operand with indices. -/
theorem indexed_ne_call {primary : ExprTree .primary}
    {indices : ExprTree .indices} {name : Terminal .identifier}
    {left : Terminal .lparen} {rest : List Token}
    (hrest : nextKind rest ≠ .lparen) :
    primary.before (indices.before rest) ≠ name.val :: left.val :: us := by
  intro h
  cases primary with
  | atom t e ht =>
    have hnext : nextKind (indices.before rest) = .lparen := by
      rw [(List.cons.inj h).2]
      exact left.property
    exact indices.ends_indices hrest hnext
  | paren left' => exact cons_ne_cons left' name (by decide) _ _ h

/-- No other derivation of its symbol begins with the same tokens, if neither
is followed by a token that would go on with it. -/
def Unambiguous {s : ExprSymbol} (d : ExprTree s) : Prop :=
  ∀ {d' : ExprTree s} {rest rest' : List Token},
    d.before rest = d'.before rest' →
  s.Stops (nextKind rest) → s.Stops (nextKind rest') →
  d = d' ∧ rest = rest'

variable {t : Token}

section

variable {first operand : ExprTree (.level n)} {more : ExprTree (.more n)}

theorem unambiguous_operation (hfirst : first.Unambiguous)
    (hmore : more.Unambiguous) : (operation first more).Unambiguous := by
  intro d' rest rest' h hstops hstops'
  cases d' with
  | operation first' more' =>
    obtain ⟨rfl, htail⟩ :=
      hfirst h (more.ends_more hstops) (more'.ends_more hstops')
    obtain ⟨rfl, hrest⟩ := hmore htail hstops hstops'
    exact ⟨rfl, hrest⟩

theorem unambiguous_moreNone : (moreNone (n := n)).Unambiguous := by
  intro d' rest rest' h hstops hstops'
  cases d' with
  | moreNone => exact ⟨rfl, h⟩
  | moreSome t op hop =>
    obtain rfl : rest = _ := h
    exact absurd hstops (not_endsLevel hop)

theorem unambiguous_moreSome (hop : operator? t.kind = some (n, op))
    (hoperand : operand.Unambiguous) (hmore : more.Unambiguous) :
    (moreSome t op hop operand more).Unambiguous := by
  intro d' rest rest' h hstops hstops'
  cases d' with
  | moreNone =>
    obtain rfl : _ = rest' := h
    exact absurd hstops' (not_endsLevel hop)
  | moreSome t' op' hop' operand' more' =>
    obtain ⟨rfl, htail⟩ := List.cons.inj h
    cases hop.symm.trans hop'
    obtain ⟨rfl, hlast⟩ :=
      hoperand htail (more.ends_more hstops) (more'.ends_more hstops')
    obtain ⟨rfl, hrest⟩ := hmore hlast hstops hstops'
    exact ⟨rfl, hrest⟩

end

/-- An operand does not begin with an operator in front of one. -/
theorem front_ne_operand (hf : front? t.kind = some f)
    (operand : ExprTree .operand) (ts rest : List Token) :
    t :: ts ≠ operand.before rest := by
  intro h
  have hstarts := operand.starts rest
  rw [← h] at hstarts
  cases hstarts.symm.trans (startsOperand_of_front hf)

theorem unambiguous_front (hf : front? t.kind = some f)
    {operand : ExprTree (.level 0)} (hoperand : operand.Unambiguous) :
    (front t f hf operand).Unambiguous := by
  intro d' rest rest' h hstops hstops'
  cases d' with
  | front t' f' hf' operand' =>
    obtain ⟨rfl, htail⟩ := List.cons.inj h
    cases hf.symm.trans hf'
    obtain ⟨rfl, hrest⟩ := hoperand htail hstops hstops'
    exact ⟨rfl, hrest⟩
  | plain operand' => exact absurd h (front_ne_operand hf operand' _ _)

theorem unambiguous_plain {operand : ExprTree .operand}
    (hoperand : operand.Unambiguous) : (plain operand).Unambiguous := by
  intro d' rest rest' h hstops hstops'
  cases d' with
  | front t f hf =>
    exact absurd h.symm (front_ne_operand hf operand _ _)
  | plain operand' =>
    obtain ⟨rfl, hrest⟩ := hoperand h hstops.2 hstops'.2
    exact ⟨rfl, hrest⟩

theorem unambiguous_indexed {primary : ExprTree .primary}
    {indices : ExprTree .indices} (hprimary : primary.Unambiguous)
    (hindices : indices.Unambiguous) :
    (indexed primary indices).Unambiguous := by
  intro d' rest rest' h hstops hstops'
  cases d' with
  | indexed primary' indices' =>
    obtain ⟨rfl, htail⟩ := hprimary h trivial trivial
    obtain ⟨rfl, hrest⟩ := hindices htail hstops hstops'
    exact ⟨rfl, hrest⟩
  | call => exact absurd h (indexed_ne_call hstops.2)

theorem unambiguous_call {name : Terminal .identifier} {left : Terminal .lparen}
    {args : ExprTree .args} {right : Terminal .rparen}
    (hargs : args.Unambiguous) : (call name left args right).Unambiguous := by
  intro d' rest rest' h hstops hstops'
  cases d' with
  | indexed => exact absurd h.symm (indexed_ne_call hstops'.2)
  | call name' left' args' right' =>
    obtain ⟨rfl, hleft⟩ := eq_of_cons h
    obtain ⟨rfl, htail⟩ := eq_of_cons hleft
    obtain ⟨rfl, hright⟩ := hargs htail right.property right'.property
    obtain ⟨rfl, hrest⟩ := eq_of_cons hright
    exact ⟨rfl, hrest⟩

theorem unambiguous_indicesNone : indicesNone.Unambiguous := by
  intro d' rest rest' h hstops hstops'
  cases d' with
  | indicesNone => exact ⟨rfl, h⟩
  | indicesSome left' =>
    obtain rfl : rest = _ := h
    exact absurd left'.property hstops.1

/-- An expression before a token that closes it. -/
theorem Unambiguous.closed {kind : TokenKind} {d d' : ExprTree .expression}
    {t t' : Terminal kind} {rest rest' : List Token} (hd : d.Unambiguous)
    (hkind : closes kind = true)
    (h : d.before (t.val :: rest) = d'.before (t'.val :: rest')) :
    d = d' ∧ t = t' ∧ rest = rest' := by
  obtain ⟨hsame, htail⟩ := hd h
    (endsLevel_of_closes (closes_terminal t hkind) 4)
    (endsLevel_of_closes (closes_terminal t' hkind) 4)
  exact ⟨hsame, eq_of_cons htail⟩

theorem unambiguous_indicesSome {left : Terminal .lbracket}
    {index : ExprTree .expression} {right : Terminal .rbracket}
    {more : ExprTree .indices} (hindex : index.Unambiguous)
    (hmore : more.Unambiguous) :
    (indicesSome left index right more).Unambiguous := by
  intro d' rest rest' h hstops hstops'
  cases d' with
  | indicesNone =>
    obtain rfl : _ = rest' := h
    exact absurd left.property hstops'.1
  | indicesSome left' index' right' more' =>
    obtain ⟨rfl, htail⟩ := eq_of_cons h
    obtain ⟨rfl, rfl, hlast⟩ := hindex.closed rfl htail
    obtain ⟨rfl, hrest⟩ := hmore hlast hstops hstops'
    exact ⟨rfl, hrest⟩

theorem atom_ne_paren (he : Atom t e) (left : Terminal .lparen)
    (ts us : List Token) : t :: ts ≠ left.val :: us := by
  intro h
  have hkind := (kind_eq_of_cons h).trans left.property
  cases he with
  | integer hatom | character hatom | string hatom | name hatom =>
    cases hatom.symm.trans hkind

theorem unambiguous_atom (he : Atom t e) :
    (atom t e he).Unambiguous := by
  intro d' rest rest' h _ _
  cases d' with
  | atom t' e' he' =>
    obtain ⟨rfl, hrest⟩ := List.cons.inj h
    cases he.unique he'
    exact ⟨rfl, hrest⟩
  | paren left' => exact absurd h (atom_ne_paren he left' _ _)

theorem unambiguous_paren {left : Terminal .lparen}
    {inner : ExprTree .expression} {right : Terminal .rparen}
    (hinner : inner.Unambiguous) : (paren left inner right).Unambiguous := by
  intro d' rest rest' h _ _
  cases d' with
  | atom t' e' he' => exact absurd h.symm (atom_ne_paren he' left _ _)
  | paren left' inner' right' =>
    obtain ⟨rfl, htail⟩ := eq_of_cons h
    obtain ⟨rfl, rfl, hrest⟩ := hinner.closed rfl htail
    exact ⟨rfl, hrest⟩

theorem unambiguous_argsNone : argsNone.Unambiguous := by
  intro d' rest rest' h hstops hstops'
  cases d' with
  | argsNone => exact ⟨rfl, h⟩
  | argsSome given' =>
    obtain rfl : rest = _ := h
    exact absurd hstops (given'.nextKind_ne rest' Bool.false_ne_true)

theorem unambiguous_argsSome {given : ExprTree .list}
    (hgiven : given.Unambiguous) : (argsSome given).Unambiguous := by
  intro d' rest rest' h hstops hstops'
  cases d' with
  | argsNone =>
    obtain rfl : _ = rest' := h
    exact absurd hstops' (given.nextKind_ne rest Bool.false_ne_true)
  | argsSome given' =>
    obtain ⟨rfl, hrest⟩ := hgiven h hstops hstops'
    exact ⟨rfl, hrest⟩

section

variable {first next : ExprTree .expression} {more : ExprTree .moreArgs}

theorem unambiguous_list (hfirst : first.Unambiguous)
    (hmore : more.Unambiguous) : (list first more).Unambiguous := by
  intro d' rest rest' h hstops hstops'
  cases d' with
  | list first' more' =>
    obtain ⟨rfl, htail⟩ :=
      hfirst h (more.ends_moreArgs hstops) (more'.ends_moreArgs hstops')
    obtain ⟨rfl, hrest⟩ := hmore htail hstops hstops'
    exact ⟨rfl, hrest⟩

theorem unambiguous_moreArgsNone : moreArgsNone.Unambiguous := by
  intro d' rest rest' h hstops hstops'
  cases d' with
  | moreArgsNone => exact ⟨rfl, h⟩
  | moreArgsSome comma' =>
    obtain rfl : rest = _ := h
    cases comma'.property.symm.trans hstops

theorem unambiguous_moreArgsSome {comma : Terminal .comma}
    (hnext : next.Unambiguous) (hmore : more.Unambiguous) :
    (moreArgsSome comma next more).Unambiguous := by
  intro d' rest rest' h hstops hstops'
  cases d' with
  | moreArgsNone =>
    obtain rfl : _ = rest' := h
    cases comma.property.symm.trans hstops'
  | moreArgsSome comma' next' more' =>
    obtain ⟨rfl, htail⟩ := eq_of_cons h
    obtain ⟨rfl, hlast⟩ :=
      hnext htail (more.ends_moreArgs hstops) (more'.ends_moreArgs hstops')
    obtain ⟨rfl, hrest⟩ := hmore hlast hstops hstops'
    exact ⟨rfl, hrest⟩

end

theorem unique {s : ExprSymbol} {d : ExprTree s} : d.Unambiguous := by
  induction d with
  | operation _ _ ihFirst ihMore => exact unambiguous_operation ihFirst ihMore
  | moreNone => exact unambiguous_moreNone
  | moreSome _ _ hop _ _ ihOperand ihMore =>
    exact unambiguous_moreSome hop ihOperand ihMore
  | front _ _ hf _ ih => exact unambiguous_front hf ih
  | plain _ ih => exact unambiguous_plain ih
  | indexed _ _ ihPrimary ihIndices =>
    exact unambiguous_indexed ihPrimary ihIndices
  | call _ _ _ _ ih => exact unambiguous_call ih
  | indicesNone => exact unambiguous_indicesNone
  | indicesSome _ _ _ _ ihIndex ihMore =>
    exact unambiguous_indicesSome ihIndex ihMore
  | atom _ _ he => exact unambiguous_atom he
  | paren _ _ _ ih => exact unambiguous_paren ih
  | argsNone => exact unambiguous_argsNone
  | argsSome _ ih => exact unambiguous_argsSome ih
  | list _ _ ihFirst ihMore => exact unambiguous_list ihFirst ihMore
  | moreArgsNone => exact unambiguous_moreArgsNone
  | moreArgsSome _ _ _ ihNext ihMore =>
    exact unambiguous_moreArgsSome ihNext ihMore

end ExprTree

/-! ### Types -/

theorem optional_unique {kind : TokenKind} {o o' : Option (Terminal kind)}
    {rest rest' : List Token} (h : optional o rest = optional o' rest')
    (hne : nextKind rest ≠ kind) (hne' : nextKind rest' ≠ kind) :
    o = o' ∧ rest = rest' := by
  cases o with
  | none =>
    cases o' with
    | none => exact ⟨rfl, h⟩
    | some t' =>
      obtain rfl : rest = _ := h
      exact absurd t'.property hne
  | some t =>
    cases o' with
    | none =>
      obtain rfl : _ = rest' := h
      exact absurd t.property hne'
    | some t' =>
      obtain ⟨rfl, hrest⟩ := eq_of_cons h
      exact ⟨rfl, hrest⟩

theorem nextKind_optional_ne {kind other : TokenKind}
    (o : Option (Terminal kind)) {rest : List Token} (hkind : kind ≠ other)
    (hrest : nextKind rest ≠ other) :
    nextKind (optional o rest) ≠ other := by
  cases o with
  | none => exact hrest
  | some t => exact fun h => hkind (t.property.symm.trans h)

theorem nextKind_ne_of_startsType {kind : TokenKind} {rest : List Token}
    (hkind : kind.startsType = true)
    (hrest : (nextKind rest).startsType = false) :
    nextKind rest ≠ kind := by
  rintro rfl
  cases hkind.symm.trans hrest

/-- The bases of integer types by their first word. -/
def base? : TokenKind → Option Base
  | .char => some .char
  | .short => some .short
  | .int => some .int
  | .long => some .long
  | _ => none

namespace BaseTree

theorem base?_eq (b : BaseTree) (rest : List Token) :
    base? (nextKind (b.before rest)) = some b.meaning := by
  cases b with
  | char word | short word | int word | long word =>
    exact congrArg base? word.property

theorem unique {b b' : BaseTree} {rest rest' : List Token}
    (h : b.before rest = b'.before rest')
    (hrest : (nextKind rest).startsType = false)
    (hrest' : (nextKind rest').startsType = false) :
    b = b' ∧ rest = rest' := by
  have hmeaning : some b.meaning = some b'.meaning := by
    rw [← b.base?_eq rest, h, b'.base?_eq]
  have hint : nextKind rest ≠ .int := nextKind_ne_of_startsType rfl hrest
  have hint' : nextKind rest' ≠ .int :=
    nextKind_ne_of_startsType rfl hrest'
  cases b with
  | char word =>
    cases b' with
    | char word' =>
      obtain ⟨rfl, hrest⟩ := eq_of_cons h
      exact ⟨rfl, hrest⟩
    | short | int | long => cases hmeaning
  | short word tail =>
    cases b' with
    | short word' tail' =>
      obtain ⟨rfl, htail⟩ := eq_of_cons h
      obtain ⟨rfl, hrest⟩ := optional_unique htail hint hint'
      exact ⟨rfl, hrest⟩
    | char | int | long => cases hmeaning
  | int word =>
    cases b' with
    | int word' =>
      obtain ⟨rfl, hrest⟩ := eq_of_cons h
      exact ⟨rfl, hrest⟩
    | char | short | long => cases hmeaning
  | long word again tail =>
    cases b' with
    | long word' again' tail' =>
      obtain ⟨rfl, hagain⟩ := eq_of_cons h
      have hlong : nextKind (optional tail rest) ≠ .long :=
        nextKind_optional_ne tail (by decide)
          (nextKind_ne_of_startsType rfl hrest)
      have hlong' : nextKind (optional tail' rest') ≠ .long :=
        nextKind_optional_ne tail' (by decide)
          (nextKind_ne_of_startsType rfl hrest')
      obtain ⟨rfl, htail⟩ := optional_unique hagain hlong hlong'
      obtain ⟨rfl, hrest⟩ := optional_unique htail hint hint'
      exact ⟨rfl, hrest⟩
    | char | short | int => cases hmeaning

end BaseTree

/-- What the first token of a type is. -/
inductive TypeForm where
  | sign | base | void

def typeForm? : TokenKind → Option TypeForm
  | .unsigned | .signed => some .sign
  | .char | .short | .int | .long => some .base
  | .void => some .void
  | _ => none

namespace Specifier

def form : Specifier → TypeForm
  | sign _ | signedBase _ _ => .sign
  | base _ => .base
  | void _ => .void

theorem typeForm?_of_sign (s : Sign) : typeForm? s.token.kind = some .sign := by
  obtain ⟨⟨kind, lexeme, line⟩, unsigned, h⟩ := s
  cases kind <;> simp [sign?] at h <;> rfl

theorem typeForm?_of_base {kind : TokenKind} {b : Base}
    (h : base? kind = some b) : typeForm? kind = some .base := by
  cases kind <;> simp [base?] at h <;> rfl

theorem typeForm?_eq (s : Specifier) (rest : List Token) :
    typeForm? (nextKind (s.before rest)) = some s.form := by
  cases s with
  | sign s | signedBase s _ => exact typeForm?_of_sign s
  | base b => exact typeForm?_of_base (b.base?_eq rest)
  | void word => exact congrArg typeForm? word.property

theorem startsType_of_form {kind : TokenKind} {f : TypeForm}
    (h : typeForm? kind = some f) : kind.startsType = true := by
  cases kind <;> simp [typeForm?] at h <;> rfl

theorem sign_unique {s s' : Sign} (h : s.token :: ts = s'.token :: us) :
    s = s' ∧ ts = us := by
  obtain ⟨token, unsigned, hs⟩ := s
  obtain ⟨token', unsigned', hs'⟩ := s'
  obtain ⟨rfl, hrest⟩ := List.cons.inj h
  cases hs.symm.trans hs'
  exact ⟨rfl, hrest⟩

theorem unique {s s' : Specifier} {rest rest' : List Token}
    (h : s.before rest = s'.before rest')
    (hrest : (nextKind rest).startsType = false)
    (hrest' : (nextKind rest').startsType = false) :
    s = s' ∧ rest = rest' := by
  have hform : some s.form = some s'.form := by
    rw [← s.typeForm?_eq rest, h, s'.typeForm?_eq]
  have hbase (b : BaseTree) (us : List Token) :
      (nextKind (b.before us)).startsType = true :=
    startsType_of_form (typeForm?_of_base (b.base?_eq us))
  cases s with
  | sign s =>
    cases s' with
    | sign s' =>
      obtain ⟨rfl, hrest⟩ := sign_unique h
      exact ⟨rfl, hrest⟩
    | signedBase s' b' =>
      obtain ⟨-, rfl⟩ := sign_unique h
      cases hrest.symm.trans (hbase b' rest')
    | base | void => cases hform
  | base b =>
    cases s' with
    | base b' =>
      obtain ⟨rfl, hrest⟩ := b.unique h hrest hrest'
      exact ⟨rfl, hrest⟩
    | sign | signedBase | void => cases hform
  | signedBase s b =>
    cases s' with
    | sign s' =>
      obtain ⟨-, rfl⟩ := sign_unique h
      cases hrest'.symm.trans (hbase b rest)
    | signedBase s' b' =>
      obtain ⟨rfl, hb⟩ := sign_unique h
      obtain ⟨rfl, hrest⟩ := b.unique hb hrest hrest'
      exact ⟨rfl, hrest⟩
    | base | void => cases hform
  | void word =>
    cases s' with
    | void word' =>
      obtain ⟨rfl, hrest⟩ := eq_of_cons h
      exact ⟨rfl, hrest⟩
    | sign | base | signedBase => cases hform

end Specifier

namespace ParamTree

/-- Behind the words of a type there is a star or the name. -/
theorem kind_behind (stars : List (Terminal .star))
    (name : Terminal .identifier) (rest : List Token) :
    nextKind (stars.map Subtype.val ++ name.val :: rest) = .star ∨
      nextKind (stars.map Subtype.val ++ name.val :: rest) =
        .identifier := by
  cases stars with
  | nil => exact Or.inr name.property
  | cons star stars => exact Or.inl star.property

theorem startsType_behind (stars : List (Terminal .star))
    (name : Terminal .identifier) (rest : List Token) :
    (nextKind (stars.map Subtype.val ++ name.val :: rest)).startsType =
      false := by
  rcases kind_behind stars name rest with hkind | hkind
  · rw [hkind]
    rfl
  · rw [hkind]
    rfl

theorem stars_unique {stars stars' : List (Terminal .star)}
    {name name' : Terminal .identifier} {rest rest' : List Token}
    (h : stars.map Subtype.val ++ name.val :: rest = stars'.map Subtype.val ++
      name'.val :: rest') : stars = stars' ∧ name = name' ∧ rest = rest' := by
  induction stars generalizing stars' with
  | nil =>
    cases stars' with
    | nil =>
      obtain ⟨rfl, hrest⟩ := eq_of_cons h
      exact ⟨rfl, rfl, hrest⟩
    | cons star' stars' =>
      exact absurd h (cons_ne_cons name star' (by decide) _ _)
  | cons star stars ih =>
    cases stars' with
    | nil => exact absurd h (cons_ne_cons star name' (by decide) _ _)
    | cons star' stars' =>
      obtain ⟨rfl, htail⟩ := eq_of_cons h
      obtain ⟨rfl, hname, hrest⟩ := ih htail
      exact ⟨rfl, hname, hrest⟩

theorem unique {p p' : ParamTree} {rest rest' : List Token}
    (h : p.before rest = p'.before rest') : p = p' ∧ rest = rest' := by
  obtain ⟨s, stars, name⟩ := p
  obtain ⟨s', stars', name'⟩ := p'
  obtain ⟨rfl, hstars⟩ :=
    s.unique h (startsType_behind _ _ _) (startsType_behind _ _ _)
  obtain ⟨rfl, rfl, hrest⟩ := stars_unique hstars
  exact ⟨rfl, hrest⟩

theorem startsType (p : ParamTree) (rest : List Token) :
    (nextKind (p.before rest)).startsType = true :=
  Specifier.startsType_of_form (p.specifier.typeForm?_eq _)

theorem nextKind_ne (p : ParamTree) (rest : List Token) {kind : TokenKind}
    (h : kind.startsType = false) : nextKind (p.before rest) ≠ kind := by
  rintro rfl
  cases h.symm.trans (p.startsType rest)

/-- The word `void` alone is no parameter. -/
theorem before_ne_void (p : ParamTree) (word : Terminal .void)
    {rest : List Token} (hus : nextKind us = .rparen) :
    p.before rest ≠ word.val :: us := by
  intro h
  have hform :=
    p.specifier.typeForm?_eq (p.stars.map Subtype.val ++ p.name.val :: rest)
  have hbehind := kind_behind p.stars p.name rest
  rw [before] at h
  cases hs : p.specifier with
  | void word' =>
    rw [hs] at h
    obtain ⟨-, rfl⟩ := eq_of_cons h
    rcases hbehind with hkind | hkind
    · cases hkind.symm.trans hus
    · cases hkind.symm.trans hus
  | sign | signedBase | base =>
    rw [h, hs] at hform
    cases (congrArg typeForm? word.property).symm.trans hform

end ParamTree

namespace ParamsTree

theorem moreBefore_unique {more more' : List (Terminal .comma × ParamTree)}
    {rest rest' : List Token}
    (h : moreBefore more rest = moreBefore more' rest')
    (hrest : nextKind rest = .rparen)
    (hrest' : nextKind rest' = .rparen) :
    more = more' ∧ rest = rest' := by
  induction more generalizing more' with
  | nil =>
    cases more' with
    | nil => exact ⟨rfl, h⟩
    | cons p' more' =>
      obtain rfl : rest = _ := h
      cases p'.1.property.symm.trans hrest
  | cons p more ih =>
    cases more' with
    | nil =>
      obtain rfl : _ = rest' := h
      cases p.1.property.symm.trans hrest'
    | cons p' more' =>
      obtain ⟨comma, p⟩ := p
      obtain ⟨comma', p'⟩ := p'
      obtain ⟨rfl, hp⟩ := eq_of_cons h
      obtain ⟨rfl, hmore⟩ := p.unique hp
      obtain ⟨rfl, hrest⟩ := ih hmore
      exact ⟨rfl, hrest⟩

theorem unique {ps ps' : ParamsTree} {rest rest' : List Token}
    (h : ps.before rest = ps'.before rest')
    (hrest : nextKind rest = .rparen)
    (hrest' : nextKind rest' = .rparen) : ps = ps' ∧ rest = rest' := by
  cases ps with
  | void word =>
    cases ps' with
    | void word' =>
      obtain ⟨rfl, hrest⟩ := eq_of_cons h
      exact ⟨rfl, hrest⟩
    | none =>
      obtain rfl : _ = rest' := h
      cases word.property.symm.trans hrest'
    | some first' more' =>
      exact absurd h.symm (first'.before_ne_void word hrest)
  | none =>
    cases ps' with
    | void word' =>
      obtain rfl : rest = _ := h
      cases word'.property.symm.trans hrest
    | none => exact ⟨rfl, h⟩
    | some first' more' =>
      obtain rfl : rest = _ := h
      exact absurd hrest (first'.nextKind_ne _ rfl)
  | some first more =>
    cases ps' with
    | void word' => exact absurd h (first.before_ne_void word' hrest')
    | none =>
      obtain rfl : _ = rest' := h
      exact absurd hrest' (first.nextKind_ne _ rfl)
    | some first' more' =>
      obtain ⟨rfl, hmore⟩ := first.unique h
      obtain ⟨rfl, hrest⟩ := moreBefore_unique hmore hrest hrest'
      exact ⟨rfl, hrest⟩

end ParamsTree

/-! ### Statements -/

/-- The forms of statements without statements in them. -/
inductive SimpleForm where
  | ret | leave | print | declare | assign

inductive Form where
  | simple (f : SimpleForm)
  | block | cond | loop

/-- The form of a statement, by its first token. -/
def form? : TokenKind → Option Form
  | .returnWord => some (.simple .ret)
  | .breakWord | .continueWord => some (.simple .leave)
  | .printf => some (.simple .print)
  | .int | .char | .short | .long | .unsigned | .signed | .void =>
    some (.simple .declare)
  | .integer | .character | .string | .identifier | .lparen | .ampersand | .star
  | .minus =>
    some (.simple .assign)
  | .lbrace => some .block
  | .ifWord => some .cond
  | .whileWord => some .loop
  | _ => none

theorem form?_of_startsType {kind : TokenKind} (h : kind.startsType = true) :
    form? kind = some (.simple .declare) := by
  cases kind <;> simp [TokenKind.startsType] at h <;> rfl

theorem form?_of_startsExpr {kind : TokenKind} (h : startsExpr kind = true) :
    form? kind = some (.simple .assign) := by
  cases kind <;> simp [startsExpr, startsOperand, front?] at h <;> rfl

theorem form?_of_word {kind : TokenKind} {s : Stmt} (h : word? kind = some s) :
    form? kind = some (.simple .leave) := by
  cases kind <;> simp [word?] at h <;> rfl

namespace SimpleTree

def form : SimpleTree → SimpleForm
  | ret _ _ => .ret
  | leave _ _ _ => .leave
  | print _ _ _ _ => .print
  | declare _ _ _ => .declare
  | assign _ _ => .assign

theorem form?_eq (s : SimpleTree) (rest : List Token) :
    form? (nextKind (s.before rest)) = some (.simple s.form) := by
  cases s with
  | ret word value =>
    cases value with
    | none | some => exact congrArg form? word.property
  | leave word s h => exact form?_of_word h
  | print word => exact congrArg form? word.property
  | declare param => exact form?_of_startsType (param.startsType _)
  | assign target => exact form?_of_startsExpr (target.starts _)

variable {rest rest' : List Token}

theorem closes_valueBefore (v : Option ValueTree)
    (hrest : nextKind rest = .semicolon) :
    closes (nextKind (valueBefore v rest)) = true := by
  cases v with
  | none => exact congrArg closes hrest
  | some v => exact closes_terminal v.assign rfl

theorem valueBefore_unique {v v' : Option ValueTree}
    (h : valueBefore v rest = valueBefore v' rest')
    (hrest : nextKind rest = .semicolon)
    (hrest' : nextKind rest' = .semicolon) : v = v' ∧ rest = rest' := by
  cases v with
  | none =>
    cases v' with
    | none => exact ⟨rfl, h⟩
    | some v' =>
      obtain rfl : rest = _ := h
      cases v'.assign.property.symm.trans hrest
  | some v =>
    cases v' with
    | none =>
      obtain rfl : _ = rest' := h
      cases v.assign.property.symm.trans hrest'
    | some v' =>
      obtain ⟨assign, value⟩ := v
      obtain ⟨assign', value'⟩ := v'
      obtain ⟨rfl, hvalue⟩ := eq_of_cons h
      obtain ⟨rfl, hrest⟩ :=
        ExprTree.unique hvalue (endsLevel_of_closes (congrArg closes hrest) 4)
          (endsLevel_of_closes (congrArg closes hrest') 4)
      exact ⟨rfl, hrest⟩

theorem sizeBefore_unique {s s' : Option SizeTree}
    (h : sizeBefore s rest = sizeBefore s' rest')
    (hrest : closes (nextKind rest) = true)
    (hrest' : closes (nextKind rest') = true) :
    s = s' ∧ rest = rest' := by
  have hnot {left : Terminal .lbracket} {us : List Token} :
      closes (nextKind (left.val :: us)) ≠ true := by
    intro hcloses
    cases (congrArg closes left.property).symm.trans hcloses
  cases s with
  | none =>
    cases s' with
    | none => exact ⟨rfl, h⟩
    | some s' =>
      obtain rfl : rest = _ := h
      exact absurd hrest hnot
  | some s =>
    cases s' with
    | none =>
      obtain rfl : _ = rest' := h
      exact absurd hrest' hnot
    | some s' =>
      obtain ⟨left, token, size, hsize, right⟩ := s
      obtain ⟨left', token', size', hsize', right'⟩ := s'
      obtain ⟨rfl, htoken⟩ := eq_of_cons h
      obtain ⟨rfl, hright⟩ := eq_of_cons htoken
      obtain ⟨rfl, hrest⟩ := eq_of_cons hright
      cases hsize.1.unique hsize'.1
      exact ⟨rfl, hrest⟩

theorem unique {s s' : SimpleTree} (h : s.before rest = s'.before rest')
    (hrest : nextKind rest = .semicolon)
    (hrest' : nextKind rest' = .semicolon) : s = s' ∧ rest = rest' := by
  have hform : some (Form.simple s.form) = some (Form.simple s'.form) := by
    rw [← s.form?_eq rest, h, s'.form?_eq]
  have hends := endsLevel_of_closes (congrArg closes hrest) 4
  have hends' := endsLevel_of_closes (congrArg closes hrest') 4
  cases s with
  | ret word value =>
    cases s' with
    | ret word' value' =>
      cases value with
      | none =>
        cases value' with
        | none =>
          obtain ⟨rfl, hrest⟩ := eq_of_cons h
          exact ⟨rfl, hrest⟩
        | some d' =>
          obtain ⟨-, rfl⟩ := eq_of_cons h
          exact absurd hrest (d'.nextKind_ne rest' Bool.false_ne_true)
      | some d =>
        cases value' with
        | none =>
          obtain ⟨-, rfl⟩ := eq_of_cons h
          exact absurd hrest' (d.nextKind_ne rest Bool.false_ne_true)
        | some d' =>
          obtain ⟨rfl, hd⟩ := eq_of_cons h
          obtain ⟨rfl, hrest⟩ := ExprTree.unique hd hends hends'
          exact ⟨rfl, hrest⟩
    | leave | print | declare | assign => cases hform
  | leave word s hs =>
    cases s' with
    | leave word' s' hs' =>
      obtain ⟨rfl, hrest⟩ := List.cons.inj h
      cases hs.symm.trans hs'
      exact ⟨rfl, hrest⟩
    | ret | print | declare | assign => cases hform
  | print word left list right =>
    cases s' with
    | print word' left' list' right' =>
      obtain ⟨rfl, hleft⟩ := eq_of_cons h
      obtain ⟨rfl, hlist⟩ := eq_of_cons hleft
      obtain ⟨rfl, hright⟩ :=
        ExprTree.unique hlist right.property right'.property
      obtain ⟨rfl, hrest⟩ := eq_of_cons hright
      exact ⟨rfl, hrest⟩
    | ret | leave | declare | assign => cases hform
  | declare param size value =>
    cases s' with
    | declare param' size' value' =>
      obtain ⟨rfl, hsize⟩ := param.unique h
      obtain ⟨rfl, hvalues⟩ :=
        sizeBefore_unique hsize (closes_valueBefore value hrest)
          (closes_valueBefore value' hrest')
      obtain ⟨rfl, hrest⟩ := valueBefore_unique hvalues hrest hrest'
      exact ⟨rfl, hrest⟩
    | ret | leave | print | assign => cases hform
  | assign target value =>
    cases s' with
    | assign target' value' =>
      obtain ⟨rfl, hvalues⟩ :=
        ExprTree.unique h
          (endsLevel_of_closes (closes_valueBefore value hrest) 4)
          (endsLevel_of_closes (closes_valueBefore value' hrest') 4)
      obtain ⟨rfl, hrest⟩ := valueBefore_unique hvalues hrest hrest'
      exact ⟨rfl, hrest⟩
    | ret | leave | print | declare => cases hform

end SimpleTree

theorem CondTree.unique {c c' : CondTree} {rest rest' : List Token}
    (h : c.before rest = c'.before rest') : c = c' ∧ rest = rest' := by
  obtain ⟨left, inner, right⟩ := c
  obtain ⟨left', inner', right'⟩ := c'
  obtain ⟨rfl, hinner⟩ := eq_of_cons h
  obtain ⟨rfl, hright⟩ :=
    ExprTree.unique hinner (endsLevel_of_closes (closes_terminal right rfl) 4)
      (endsLevel_of_closes (closes_terminal right' rfl) 4)
  obtain ⟨rfl, hrest⟩ := eq_of_cons hright
  exact ⟨rfl, hrest⟩

namespace StmtTree

def form {isOpen : Bool} : StmtTree (.statement isOpen) → Form
  | simple s _ => .simple s.form
  | block _ _ _ => .block
  | ifThen _ _ _ | ifElse _ _ _ _ _ => .cond
  | whileDo _ _ _ => .loop

theorem form?_eq {isOpen : Bool} (d : StmtTree (.statement isOpen))
    (rest : List Token) :
    form? (nextKind (d.before rest)) = some d.form := by
  cases d with
  | simple s semicolon => exact s.form?_eq _
  | block word | ifThen word | ifElse word | whileDo word =>
    exact congrArg form? word.property

theorem nextKind_ne {isOpen : Bool} (d : StmtTree (.statement isOpen))
    (rest : List Token) {kind : TokenKind} (h : form? kind = none) :
    nextKind (d.before rest) ≠ kind := by
  rintro rfl
  cases h.symm.trans (d.form?_eq rest)

/-- No other derivation has tokens that begin like these. -/
def Unique : {s : StmtSymbol} → StmtTree s → Prop
  | .statement isOpen, d =>
    ∀ {isOpen' : Bool} {d' : StmtTree (.statement isOpen')} {rest rest' : List
      Token}, d.before rest = d'.before rest' →
      Closed isOpen (nextKind rest) →
      Closed isOpen' (nextKind rest') →
      (⟨isOpen, d⟩ : (b : Bool) × StmtTree (.statement b)) = ⟨isOpen', d'⟩ ∧
      rest = rest'
  | .statements, d =>
    ∀ {d' : StmtTree .statements} {rest rest' : List Token},
      d.before rest = d'.before rest' → nextKind rest = .rbrace →
      nextKind rest' = .rbrace → d = d' ∧ rest = rest'

/-- A statement in a list is not followed by `else`: another statement or the
closing brace follows. -/
theorem closed_statements (d : StmtTree .statements) {rest : List Token}
    (hrest : nextKind rest = .rbrace) (isOpen : Bool) :
    Closed isOpen (nextKind (d.before rest)) := by
  intro _ helse
  cases d with
  | nil => cases helse.symm.trans hrest
  | cons first more => exact first.nextKind_ne _ rfl helse

theorem form_eq {isOpen isOpen' : Bool} {d : StmtTree (.statement isOpen)}
    {d' : StmtTree (.statement isOpen')} {rest rest' : List Token}
    (h : d.before rest = d'.before rest') : some d.form = some d'.form := by
  rw [← d.form?_eq rest, h, d'.form?_eq]

theorem unique {s : StmtSymbol} (d : StmtTree s) : d.Unique := by
  induction d with
  | simple s semicolon =>
    intro isOpen' d' rest rest' h _ _
    have hform := form_eq h
    cases d' with
    | simple s' semicolon' =>
      obtain ⟨rfl, hsemicolon⟩ :=
        s.unique h semicolon.property semicolon'.property
      obtain ⟨rfl, hrest⟩ := eq_of_cons hsemicolon
      exact ⟨rfl, hrest⟩
    | block | ifThen | ifElse | whileDo => cases hform
  | block left body right ih =>
    intro isOpen' d' rest rest' h _ _
    have hform := form_eq h
    cases d' with
    | block left' body' right' =>
      obtain ⟨rfl, hbody⟩ := eq_of_cons h
      obtain ⟨rfl, hright⟩ := ih hbody right.property right'.property
      obtain ⟨rfl, hrest⟩ := eq_of_cons hright
      exact ⟨rfl, hrest⟩
    | simple | ifThen | ifElse | whileDo => cases hform
  | ifThen word cond body ih =>
    intro isOpen' d' rest rest' h hclosed hclosed'
    have hform := form_eq h
    cases d' with
    | ifThen word' cond' body' =>
      obtain ⟨rfl, hcond⟩ := eq_of_cons h
      obtain ⟨rfl, hbody⟩ := cond.unique hcond
      obtain ⟨hsame, hrest⟩ :=
        ih hbody (fun _ => hclosed rfl) (fun _ => hclosed' rfl)
      cases hsame
      exact ⟨rfl, hrest⟩
    | ifElse word' cond' body' elseWord' orElse' =>
      obtain ⟨rfl, hcond⟩ := eq_of_cons h
      obtain ⟨rfl, hbody⟩ := cond.unique hcond
      obtain ⟨-, rfl⟩ :=
        ih hbody (fun _ => hclosed rfl) (fun hopen => by cases hopen)
      exact absurd elseWord'.property (hclosed rfl)
    | simple | block | whileDo => cases hform
  | ifElse word cond body elseWord orElse ihBody ihElse =>
    intro isOpen' d' rest rest' h hclosed hclosed'
    have hform := form_eq h
    cases d' with
    | ifThen word' cond' body' =>
      obtain ⟨rfl, hcond⟩ := eq_of_cons h
      obtain ⟨rfl, hbody⟩ := cond.unique hcond
      obtain ⟨-, rfl⟩ :=
        ihBody hbody (fun hopen => by cases hopen) (fun _ => hclosed' rfl)
      exact absurd elseWord.property (hclosed' rfl)
    | ifElse word' cond' body' elseWord' orElse' =>
      obtain ⟨rfl, hcond⟩ := eq_of_cons h
      obtain ⟨rfl, hbody⟩ := cond.unique hcond
      obtain ⟨hsame, helse⟩ :=
        ihBody hbody (fun hopen => by cases hopen) (fun hopen => by cases hopen)
      cases hsame
      obtain ⟨rfl, horElse⟩ := eq_of_cons helse
      obtain ⟨hsame, hrest⟩ := ihElse horElse hclosed hclosed'
      cases hsame
      exact ⟨rfl, hrest⟩
    | simple | block | whileDo => cases hform
  | whileDo word cond body ih =>
    intro isOpen' d' rest rest' h hclosed hclosed'
    have hform := form_eq h
    cases d' with
    | whileDo word' cond' body' =>
      obtain ⟨rfl, hcond⟩ := eq_of_cons h
      obtain ⟨rfl, hbody⟩ := cond.unique hcond
      obtain ⟨hsame, hrest⟩ := ih hbody hclosed hclosed'
      cases hsame
      exact ⟨rfl, hrest⟩
    | simple | block | ifThen | ifElse => cases hform
  | nil =>
    intro d' rest rest' h hrest hrest'
    cases d' with
    | nil => exact ⟨rfl, h⟩
    | cons first' more' =>
      obtain rfl : rest = _ := h
      exact absurd hrest (first'.nextKind_ne _ rfl)
  | cons first more ihFirst ihMore =>
    intro d' rest rest' h hrest hrest'
    cases d' with
    | nil =>
      obtain rfl : _ = rest' := h
      exact absurd hrest' (first.nextKind_ne _ rfl)
    | cons first' more' =>
      obtain ⟨hsame, hmore⟩ :=
        ihFirst h (more.closed_statements hrest _)
          (more'.closed_statements hrest' _)
      cases hsame
      obtain ⟨rfl, hrest⟩ := ihMore hmore hrest hrest'
      exact ⟨rfl, hrest⟩

end StmtTree

theorem FunctionTree.unique {f f' : FunctionTree} {rest rest' : List Token}
    (h : f.before rest = f'.before rest') : f = f' ∧ rest = rest' := by
  obtain ⟨head, left, params, right, leftBrace, body, rightBrace⟩ := f
  obtain ⟨head', left', params', right', leftBrace', body', rightBrace'⟩ := f'
  obtain ⟨rfl, hleft⟩ := head.unique h
  obtain ⟨rfl, hparams⟩ := eq_of_cons hleft
  obtain ⟨rfl, hright⟩ := params.unique hparams right.property right'.property
  obtain ⟨rfl, hbrace⟩ := eq_of_cons hright
  obtain ⟨rfl, hbody⟩ := eq_of_cons hbrace
  obtain ⟨rfl, hend⟩ :=
    body.unique hbody rightBrace.property rightBrace'.property
  obtain ⟨rfl, hrest⟩ := eq_of_cons hend
  exact ⟨rfl, hrest⟩

/-- The tokens of a program tell its derivation. -/
theorem ProgramTree.eq_of_tokens_eq {p p' : ProgramTree}
    (h : p.tokens = p'.tokens) : p = p' := by
  have hnil (f : FunctionTree) (us : List Token) : f.before us ≠ [] := by
    intro hempty
    have hlength := f.length_lt us
    rw [hempty] at hlength
    cases hlength
  induction p generalizing p' with
  | nil =>
    cases p' with
    | nil => rfl
    | cons f' p' => exact absurd h.symm (hnil f' _)
  | cons f p ih =>
    cases p' with
    | nil => exact absurd h (hnil f _)
    | cons f' p' =>
      obtain ⟨rfl, hmore⟩ := f.unique h
      rw [ih hmore]

end Grammar

end StackC
