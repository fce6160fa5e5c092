import StackC.Proofs.Numerals
import StackC.Proofs.Resolve

/-!
The syntax of numerals. A numeral is made of the digits of its base, with at
most one underscore between two of them. Digits that begin with a zero are
octal, `0x`, `0o` and `0b` announce a base, and all other digits are decimal. A
reader accepts exactly the numerals whose value fits its width.
-/

namespace StackC

namespace Numeral

def IsDigit (base : Nat) (b : UInt8) (d : Nat) : Prop :=
  digitValue? b = some d ∧ d < base

/-- Digits with underscores. At the start, or after an underscore, there must be
a digit; after a digit there may be another one, an underscore, or nothing. -/
inductive Run (base : Nat) : (afterDigit : Bool) → Bytes → List Nat → Prop
  | nil : Run base true [] []
  | digit {afterDigit : Bool} {b : UInt8} {d : Nat} {s : Bytes} {ds : List Nat}
    (h : IsDigit base b d) (rest : Run base true s ds) :
    Run base afterDigit (b :: s) (d :: ds)
  | underscore {s : Bytes} {ds : List Nat} (rest : Run base false s ds) :
    Run base true (byte '_' :: s) ds

/-- The number that digits stand for when they follow a number. -/
def extend (base n : Nat) (ds : List Nat) : Nat :=
  ds.foldl (fun n d => n * base + d) n

/-- The marks that announce a base after a zero, in lower case. -/
def marks : List (UInt8 × Nat) :=
  [(byte 'x', 16), (byte 'o', 8), (byte 'b', 2)]

/-- Numerals without a sign whose base can be seen from them. -/
inductive Unsigned : Bytes → Nat → Prop
  | decimal {s : Bytes} {ds : List Nat} (h : Run 10 false s ds)
    (hfirst : s.head? ≠ some (byte '0')) : Unsigned s (extend 10 0 ds)
  | octal {s : Bytes} {ds : List Nat} (h : Run 8 true s ds) :
    Unsigned (byte '0' :: s) (extend 8 0 ds)
  | marked {base : Nat} {mark b : UInt8} {s : Bytes} {ds : List Nat}
    (hmark : marks.lookup (lower mark) = some base)
    (h : Run base true (b :: s) ds) :
    Unsigned (byte '0' :: mark :: b :: s) (extend base 0 ds)

/-- Decimal numerals without a sign and without underscores. -/
def Decimal (s : Bytes) (n : Nat) : Prop :=
  byte '_' ∉ s ∧ ∃ ds, Run 10 false s ds ∧ n = extend 10 0 ds

inductive Signed (numeral : Bytes → Nat → Prop) : Bytes → Int → Prop
  | plain {s : Bytes} {n : Nat} (h : numeral s n) : Signed numeral s n
  | plus {s : Bytes} {n : Nat} (h : numeral s n) :
    Signed numeral (byte '+' :: s) n
  | minus {s : Bytes} {n : Nat} (h : numeral s n) :
    Signed numeral (byte '-' :: s) (-(n : Int))

/-- A number has a place among the signed numbers of a width. -/
def Fits (bits : Nat) (v : Int) : Prop :=
  -2 ^ (bits - 1) ≤ v ∧ v < 2 ^ (bits - 1)

variable {base greatest n v bits : Nat} {afterDigit : Bool} {s : Bytes}
  {b : UInt8}

theorem le_extend (hbase : 0 < base) (n : Nat) (ds : List Nat) :
    n ≤ extend base n ds := by
  induction ds generalizing n with
  | nil => exact Nat.le_refl n
  | cons d ds ih =>
    have hstep : n ≤ n * base + d :=
      Nat.le_add_right_of_le (Nat.le_mul_of_pos_right n hbase)
    exact hstep.trans (ih _)

theorem digitValue?_underscore : digitValue? (byte '_') = none := by
  decide

theorem underscoresPlaced_underscore :
    underscoresPlaced afterDigit (byte '_' :: s) = true ↔
      afterDigit = true ∧ s ≠ [] ∧ underscoresPlaced false s = true := by
  cases s with
  | nil => simp [underscoresPlaced]
  | cons b s =>
    rw [underscoresPlaced]
    by_cases hb : b = byte '_'
    · subst hb
      simp [underscoresPlaced]
    · simp [hb]

theorem underscoresPlaced_digit (hb : b ≠ byte '_') :
    underscoresPlaced afterDigit (b :: s) = underscoresPlaced true s := by
  rw [underscoresPlaced.eq_def]
  simp [hb]

theorem digits_digit {underscores : Bool} (hb : b ≠ byte '_') :
    digits base greatest underscores n (b :: s) = .ok v ↔
      ∃ d, IsDigit base b d ∧ n * base + d ≤ greatest ∧
        digits base greatest underscores (n * base + d) s = .ok v := by
  have hskip : ¬ (underscores && b == byte '_') = true := by simp [hb]
  rw [digits, if_neg hskip]
  cases hd : digitValue? b with
  | none => simp [IsDigit, hd]
  | some d =>
    by_cases hbase : base ≤ d
    · simp only [if_pos hbase, IsDigit, hd]
      constructor
      · intro h
        cases h
      · rintro ⟨d', ⟨hd', hlt⟩, -⟩
        cases hd'
        omega
    · by_cases hgreatest : greatest < n * base + d
      · simp only [if_neg hbase, if_pos hgreatest, IsDigit, hd]
        constructor
        · intro h
          cases h
        · rintro ⟨d', ⟨hd', -⟩, hle, -⟩
          cases hd'
          omega
      · simp only [if_neg hbase, if_neg hgreatest, IsDigit, hd]
        constructor
        · exact fun h =>
            ⟨d, ⟨rfl, Nat.lt_of_not_le hbase⟩, Nat.le_of_not_lt hgreatest, h⟩
        · rintro ⟨d', ⟨hd', -⟩, -, h⟩
          cases hd'
          exact h

/-- Digits are read and underscores are well placed if and only if there is a
run whose value is small enough. The induction is on the text; what has been
read is part of the statement. -/
theorem digits_iff_run (hbase : 0 < base) (hn : n ≤ greatest)
    (afterDigit : Bool) (s : Bytes) :
    digits base greatest true n s = .ok v ∧
      underscoresPlaced afterDigit s = true ∧ (afterDigit = false → s ≠ []) ↔
    ∃ ds, Run base afterDigit s ds ∧ v = extend base n ds ∧ v ≤ greatest := by
  induction s generalizing n afterDigit with
  | nil =>
    constructor
    · rintro ⟨hread, -, hnonempty⟩
      cases hread
      cases afterDigit with
      | false => exact absurd rfl (hnonempty rfl)
      | true => exact ⟨[], .nil, rfl, hn⟩
    · rintro ⟨ds, hrun, rfl, -⟩
      cases hrun
      exact ⟨rfl, rfl, fun h => by cases h⟩
  | cons b s ih =>
    by_cases hb : b = byte '_'
    · subst hb
      have hskip : digits base greatest true n (byte '_' :: s) =
          digits base greatest true n s := by simp [digits]
      rw [hskip, underscoresPlaced_underscore]
      have hrest := ih hn false
      constructor
      · rintro ⟨hread, ⟨rfl, hnonempty, hplaced⟩, -⟩
        obtain ⟨ds, hrun, hv, hle⟩ :=
          hrest.mp ⟨hread, hplaced, fun _ => hnonempty⟩
        exact ⟨ds, .underscore hrun, hv, hle⟩
      · rintro ⟨ds, hrun, hv, hle⟩
        cases hrun with
        | digit h => cases digitValue?_underscore.symm.trans h.1
        | underscore hrun =>
          obtain ⟨hread, hplaced, hnonempty⟩ := hrest.mpr ⟨ds, hrun, hv, hle⟩
          exact ⟨hread, ⟨rfl, hnonempty rfl, hplaced⟩, fun h => by cases h⟩
    · rw [digits_digit hb, underscoresPlaced_digit hb]
      constructor
      · rintro ⟨⟨d, hd, hle, hread⟩, hplaced, -⟩
        obtain ⟨ds, hrun, hv, hgreatest⟩ :=
          (ih hle true).mp ⟨hread, hplaced, fun h => by cases h⟩
        exact ⟨d :: ds, .digit hd hrun, hv, hgreatest⟩
      · rintro ⟨ds, hrun, hv, hgreatest⟩
        cases hrun with
        | @digit _ _ d _ ds hd hrun =>
          have hle : n * base + d ≤ greatest :=
            (le_extend hbase _ ds).trans (hv ▸ hgreatest)
          obtain ⟨hread, hplaced, -⟩ :=
            (ih hle true).mpr ⟨ds, hrun, hv, hgreatest⟩
          exact ⟨⟨d, hd, hle, hread⟩, hplaced, fun _ => List.cons_ne_nil _ _⟩
        | underscore => exact absurd rfl hb

/-- Reading without underscores. -/
theorem digits_plain (s : Bytes) :
    digits base greatest false n s = .ok v ↔
      byte '_' ∉ s ∧ digits base greatest true n s = .ok v := by
  induction s generalizing n with
  | nil => simp [digits]
  | cons b s ih =>
    by_cases hb : b = byte '_'
    · subst hb
      simp [digits, digitValue?_underscore]
    · rw [digits_digit hb, digits_digit hb]
      have hmem : byte '_' ∉ b :: s ↔ byte '_' ∉ s := by simp [Ne.symm hb]
      simp only [ih, hmem]
      constructor
      · rintro ⟨d, hd, hle, hs, hread⟩
        exact ⟨hs, d, hd, hle, hread⟩
      · rintro ⟨hs, d, hd, hle, hread⟩
        exact ⟨d, hd, hle, hs, hread⟩

theorem le_greatest_iff : n ≤ 1 <<< bits - 1 ↔ n < 2 ^ bits := by
  have hpos : 0 < 2 ^ bits := Nat.two_pow_pos bits
  rw [Nat.shiftLeft_eq, Nat.one_mul]
  omega

/-- How the reader sees the base of a numeral that begins with a zero. -/
theorem announcedBase_zero (s : Bytes) :
    (∃ mark b rest base, s = mark :: b :: rest ∧
      marks.lookup (lower mark) = some base ∧
      announcedBase (byte '0' :: s) = (base, b :: rest, true)) ∨
    ((∀ mark b rest, s = mark :: b :: rest → marks.lookup (lower mark) = none) ∧
      announcedBase (byte '0' :: s) = (8, s, false)) := by
  match s with
  | [] | [_] => exact Or.inr ⟨fun _ _ _ h => by simp at h, rfl⟩
  | mark :: b :: rest =>
    simp only [announcedBase, beq_self_eq_true, if_true]
    by_cases hx : lower mark = byte 'x'
    · exact Or.inl ⟨mark, b, rest, 16, rfl, by rw [hx]; rfl, by rw [hx]; rfl⟩
    · by_cases ho : lower mark = byte 'o'
      · exact Or.inl ⟨mark, b, rest, 8, rfl, by rw [ho]; rfl, by rw [ho]; rfl⟩
      · by_cases hb : lower mark = byte 'b'
        · exact Or.inl ⟨mark, b, rest, 2, rfl, by rw [hb]; rfl, by rw [hb]; rfl⟩
        · refine Or.inr ⟨?_, by simp [hx, ho, hb]⟩
          rintro mark b rest ⟨⟩
          simp [marks, List.lookup, beq_false_of_ne hx, beq_false_of_ne ho,
            beq_false_of_ne hb]

/-- A mark is no octal digit and no underscore. -/
theorem not_run_octal {mark : UInt8}
    (hmark : marks.lookup (lower mark) = some base) (s : Bytes)
    (ds : List Nat) : ¬ Run 8 true (mark :: s) ds := by
  have hall : ∀ n : Fin 256, (marks.lookup (lower (UInt8.ofNat n))).isSome =
      true → UInt8.ofNat n ≠ byte '_' ∧
      (digitValue? (UInt8.ofNat n)).all (8 ≤ ·) = true := by decide +kernel
  have hvalue := hall ⟨mark.toNat, mark.toNat_lt⟩
  rw [UInt8.ofNat_toNat, hmark] at hvalue
  obtain ⟨hunderscore, hlarge⟩ := hvalue rfl
  intro h
  cases h with
  | digit hd =>
    rw [hd.1] at hlarge
    exact absurd (of_decide_eq_true hlarge) (Nat.not_le.mpr hd.2)
  | underscore => exact hunderscore rfl

theorem base_pos {mark : UInt8}
    (hmark : marks.lookup (lower mark) = some base) : 0 < base := by
  simp only [marks, List.lookup] at hmark
  split at hmark
  next =>
    cases hmark
    decide
  next =>
    split at hmark
    next =>
      cases hmark
      decide
    next =>
      split at hmark
      next =>
        cases hmark
        decide
      next => cases hmark

/-- A numeral without a sign is a run of digits in the base that the reader
sees. -/
theorem readUnsigned_of_announced {rest : Bytes} {marked : Bool}
    (hannounced : announcedBase s = (base, rest, marked)) (hbase : 0 < base)
    (hplaced : underscoresOk s = underscoresPlaced afterDigit rest)
    (hs : s ≠ []) (hrest : afterDigit = false → rest ≠ []) :
    readUnsigned bits s = .ok n ↔
      ∃ ds, Run base afterDigit rest ds ∧ n = extend base 0 ds ∧
        n < 2 ^ bits := by
  have hempty : ¬ s.isEmpty = true := by simpa using hs
  have hruns :=
    digits_iff_run (v := n) hbase (Nat.zero_le (1 <<< bits - 1)) afterDigit rest
  simp only [le_greatest_iff] at hruns
  rw [← hruns, readUnsigned, if_neg hempty, hannounced, hplaced]
  dsimp only
  cases digits base (1 <<< bits - 1) true 0 rest with
  | error e => simp
  | ok m =>
    cases underscoresPlaced afterDigit rest with
    | false => simp
    | true => simpa using fun _ => hrest

/-- The reader of numerals without a sign. -/
theorem readUnsigned_iff (s : Bytes) (n : Nat) :
    readUnsigned bits s = .ok n ↔ Unsigned s n ∧ n < 2 ^ bits := by
  cases s with
  | nil =>
    constructor
    · intro h
      cases h
    · rintro ⟨h, -⟩
      cases h with
      | decimal h => cases h
  | cons b s =>
    by_cases hb : b = byte '0'
    · subst hb
      rcases announcedBase_zero s with
          ⟨mark, c, rest, base, rfl, hmark, hannounced⟩ | ⟨hnot, hannounced⟩
      · have hplaced : underscoresOk (byte '0' :: mark :: c :: rest) =
            underscoresPlaced true (c :: rest) := by
          rw [underscoresOk, hannounced]
        rw [readUnsigned_of_announced hannounced (base_pos hmark) hplaced
          (List.cons_ne_nil _ _) (fun h => by cases h)]
        constructor
        · rintro ⟨ds, hrun, rfl, hfits⟩
          exact ⟨.marked hmark hrun, hfits⟩
        · rintro ⟨h, hfits⟩
          cases h with
          | decimal _ hfirst => exact absurd rfl hfirst
          | octal h => exact absurd h (not_run_octal hmark _ _)
          | @marked _ _ _ _ ds hmark' h =>
            cases hmark.symm.trans hmark'
            exact ⟨ds, h, rfl, hfits⟩
      · have hplaced :
            underscoresOk (byte '0' :: s) = underscoresPlaced true s := by
          rw [underscoresOk, hannounced]
          exact underscoresPlaced_digit (by decide)
        rw [readUnsigned_of_announced hannounced (by decide) hplaced
          (List.cons_ne_nil _ _) (fun h => by cases h)]
        constructor
        · rintro ⟨ds, hrun, rfl, hfits⟩
          exact ⟨.octal hrun, hfits⟩
        · rintro ⟨h, hfits⟩
          cases h with
          | decimal _ hfirst => exact absurd rfl hfirst
          | @octal _ ds h => exact ⟨ds, h, rfl, hfits⟩
          | marked hmark => cases (hnot _ _ _ rfl).symm.trans hmark
    · have hannounced := announcedBase_of_ne hb s
      have hplaced :
          underscoresOk (b :: s) = underscoresPlaced false (b :: s) := by
            rw [underscoresOk, hannounced]
      rw [readUnsigned_of_announced hannounced (by decide) hplaced
        (List.cons_ne_nil _ _) (fun _ => List.cons_ne_nil _ _)]
      constructor
      · rintro ⟨ds, hrun, rfl, hfits⟩
        exact ⟨.decimal hrun (by simpa using hb), hfits⟩
      · rintro ⟨h, hfits⟩
        cases h with
        | @decimal _ ds h => exact ⟨ds, h, rfl, hfits⟩
        | octal => exact absurd rfl hb
        | marked => exact absurd rfl hb

theorem Unsigned.unique {m : Nat} (h : Unsigned s n) (h' : Unsigned s m) :
    n = m := by
  have hn : n < 2 ^ (n + m) :=
    Nat.lt_two_pow_self.trans_le (Nat.pow_le_pow_right (by decide) (by omega))
  have hm : m < 2 ^ (n + m) :=
    Nat.lt_two_pow_self.trans_le (Nat.pow_le_pow_right (by decide) (by omega))
  have hread := (readUnsigned_iff s n).mpr ⟨h, hn⟩
  have hread' := (readUnsigned_iff s m).mpr ⟨h', hm⟩
  exact Except.ok.inj (hread.symm.trans hread')

/-- The reader of decimal numerals without a sign. -/
theorem readDecimalUnsigned_iff (s : Bytes) (n : Nat) :
    readDecimalUnsigned bits s = .ok n ↔ Decimal s n ∧ n < 2 ^ bits := by
  have hruns :=
    digits_iff_run (v := n) (show 0 < 10 by decide)
      (Nat.zero_le (1 <<< bits - 1)) false s
  simp only [le_greatest_iff] at hruns
  rw [readDecimalUnsigned, Decimal]
  by_cases hempty : s.isEmpty = true
  · rw [if_pos hempty, List.isEmpty_iff.mp hempty]
    constructor
    · intro h
      cases h
    · rintro ⟨⟨-, ds, hrun, -⟩, -⟩
      cases hrun
  · rw [if_neg hempty, digits_plain]
    constructor
    · rintro ⟨hplain, hread⟩
      have hplaced := underscoresPlaced_of_not_mem hplain false
      obtain ⟨ds, hrun, hv, hfits⟩ :=
        hruns.mp ⟨hread, hplaced, fun _ => by simpa using hempty⟩
      exact ⟨⟨hplain, ds, hrun, hv⟩, hfits⟩
    · rintro ⟨⟨hplain, ds, hrun, hv⟩, hfits⟩
      exact ⟨hplain, (hruns.mpr ⟨ds, hrun, hv, hfits⟩).1⟩

theorem Run.digitValue?_head {ds : List Nat} (h : Run base false (b :: s) ds) :
    (digitValue? b).isSome = true := by
  cases h with
  | digit hd => rw [hd.1, Option.isSome_some]

theorem Unsigned.digitValue?_head {b : UInt8} {s : Bytes} {n : Nat}
    (h : Unsigned (b :: s) n) : (digitValue? b).isSome = true := by
  cases h with
  | decimal h => exact h.digitValue?_head
  | octal | marked => decide

def withSign (negative : Bool) (n : Nat) : Int :=
  if negative then -(n : Int) else n

theorem signed_iff {negative : Bool} {v : Int} :
    signed bits negative n = .ok v ↔ v = withSign negative n ∧ Fits bits v := by
  have hpow : (1 <<< (bits - 1) : Nat) = 2 ^ (bits - 1) := by
    rw [Nat.shiftLeft_eq, Nat.one_mul]
  have hcast : ((2 ^ (bits - 1) : Nat) : Int) = 2 ^ (bits - 1) := by
    push_cast; rfl
  have hpos : 0 < 2 ^ (bits - 1) := Nat.two_pow_pos _
  cases negative with
  | false =>
    simp only [signed, withSign, Fits, hpow, Bool.false_eq_true, if_false]
    split
    · constructor
      · intro h
        cases h
      · rintro ⟨rfl, -, hlt⟩
        omega
    · constructor
      · rintro ⟨⟩
        exact ⟨rfl, by omega, by omega⟩
      · rintro ⟨rfl, -⟩
        rfl
  | true =>
    simp only [signed, withSign, Fits, hpow, if_true]
    split
    · constructor
      · intro h
        cases h
      · rintro ⟨rfl, hle, -⟩
        omega
    · constructor
      · rintro ⟨⟩
        exact ⟨rfl, by omega, by omega⟩
      · rintro ⟨rfl, -⟩
        rfl

theorem lt_of_fits {negative : Bool} (hbits : 0 < bits)
    (h : Fits bits (withSign negative n)) : n < 2 ^ bits := by
  obtain ⟨hlow, hhigh⟩ := h
  have hdouble : 2 ^ bits = 2 * 2 ^ (bits - 1) := by
    rw [← Nat.pow_succ', Nat.succ_eq_add_one, Nat.sub_add_cancel hbits]
  have hcast : ((2 ^ (bits - 1) : Nat) : Int) = 2 ^ (bits - 1) := by
    push_cast; rfl
  have hpos : 0 < 2 ^ (bits - 1) := Nat.two_pow_pos _
  cases negative with
  | false =>
    rw [withSign, if_neg Bool.false_ne_true] at hhigh
    omega
  | true =>
    rw [withSign, if_pos rfl] at hlow
    omega

/-- What is left of a numeral when its sign is split off. -/
theorem signed_sign_iff {numeral : Bytes → Nat → Prop}
    (hhead : ∀ {b s n}, numeral (b :: s) n → (digitValue? b).isSome = true)
    (s : Bytes) (v : Int) :
    Signed numeral s v ↔
      ∃ n, numeral (sign s).2 n ∧ v = withSign (sign s).1 n := by
  cases s with
  | nil =>
    constructor
    · rintro ⟨h⟩
      exact ⟨_, h, rfl⟩
    · rintro ⟨n, h, rfl⟩
      exact .plain h
  | cons b s =>
    by_cases hminus : b = byte '-'
    · subst hminus
      constructor
      · intro h
        cases h with
        | plain h => exact absurd (hhead h) (by decide)
        | minus h => exact ⟨_, h, rfl⟩
      · rintro ⟨n, h, rfl⟩
        exact .minus h
    · by_cases hplus : b = byte '+'
      · subst hplus
        constructor
        · intro h
          cases h with
          | plain h => exact absurd (hhead h) (by decide)
          | plus h => exact ⟨_, h, rfl⟩
        · rintro ⟨n, h, rfl⟩
          exact .plus h
      · have hsign : sign (b :: s) = (false, b :: s) := by
          simp [sign, hminus, hplus]
        rw [hsign]
        constructor
        · intro h
          cases h with
          | plain h => exact ⟨_, h, rfl⟩
          | plus => exact absurd rfl hplus
          | minus => exact absurd rfl hminus
        · rintro ⟨n, h, rfl⟩
          exact .plain h

theorem Signed.unique {s : Bytes} {v w : Int} (h : Signed Unsigned s v)
    (h' : Signed Unsigned s w) : v = w := by
  obtain ⟨n, hn, rfl⟩ := (signed_sign_iff Unsigned.digitValue?_head s v).mp h
  obtain ⟨m, hm, rfl⟩ := (signed_sign_iff Unsigned.digitValue?_head s w).mp h'
  rw [hn.unique hm]

/-- A reader of numerals without a sign gives a reader of numerals with one. -/
theorem readSigned_iff (hbits : 0 < bits) {read : Bytes → Except Failure Nat}
    {numeral : Bytes → Nat → Prop}
    (hread : ∀ s n, read s = .ok n ↔ numeral s n ∧ n < 2 ^ bits)
    (hhead : ∀ {b s n}, numeral (b :: s) n → (digitValue? b).isSome = true)
    (s : Bytes) (v : Int) :
    (read (sign s).2 >>= signed bits (sign s).1) = .ok v ↔
      Signed numeral s v ∧ Fits bits v := by
  rw [signed_sign_iff hhead]
  constructor
  · intro h
    obtain ⟨n, hn, h⟩ := ok_of_bind h
    obtain ⟨hv, hfits⟩ := signed_iff.mp h
    exact ⟨⟨n, ((hread _ n).mp hn).1, hv⟩, hfits⟩
  · rintro ⟨⟨n, hn, hv⟩, hfits⟩
    have hsmall := lt_of_fits hbits (hv ▸ hfits)
    rw [(hread _ n).mpr ⟨hn, hsmall⟩]
    exact signed_iff.mpr ⟨hv, hfits⟩

/-- The reader of numerals whose base can be seen from them. -/
theorem readInt_iff (hbits : 0 < bits) (s : Bytes) (v : Int) :
    readInt bits s = .ok v ↔ Signed Unsigned s v ∧ Fits bits v := by
  rw [← readSigned_iff hbits readUnsigned_iff Unsigned.digitValue?_head,
    readInt]
  rcases sign s with ⟨negative, rest⟩
  dsimp only
  cases readUnsigned bits rest with
  | error e => exact Iff.rfl
  | ok n => exact Iff.rfl

/-- The reader of decimal numerals. -/
theorem readDecimal_iff (hbits : 0 < bits) (s : Bytes) (v : Int) :
    readDecimal bits s = .ok v ↔ Signed Decimal s v ∧ Fits bits v := by
  have hhead {b : UInt8} {s : Bytes} {n : Nat} (h : Decimal (b :: s) n) :
      (digitValue? b).isSome = true := by
    obtain ⟨-, ds, hrun, -⟩ := h
    exact hrun.digitValue?_head
  rw [← readSigned_iff hbits readDecimalUnsigned_iff hhead, readDecimal]
  rcases sign s with ⟨negative, rest⟩
  dsimp only
  cases readDecimalUnsigned bits rest with
  | error e => exact Iff.rfl
  | ok n => exact Iff.rfl

end Numeral

end StackC
