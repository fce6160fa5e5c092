import StackC.Proofs.Operators

/-!
Integer expressions over whole numbers. Each integer type has a range of
numbers; an expression is computed with numbers as the rules of the language
say, and has no value if a result is outside the range of a type with a sign or
a divisor is zero. A cell stands for a number by its pattern of 64 bits.
-/

namespace StackC

namespace Ty

def bits (t : Ty) : Nat :=
  8 * t.size.toInt.toNat

def least (t : Ty) : Int :=
  if t.isUnsigned then 0 else -2 ^ (t.bits - 1)

def greatest (t : Ty) : Int :=
  if t.isUnsigned then 2 ^ t.bits - 1 else 2 ^ (t.bits - 1) - 1

def Has (t : Ty) (n : Int) : Prop :=
  t.least ≤ n ∧ n ≤ t.greatest

instance (t : Ty) (n : Int) : Decidable (t.Has n) :=
  inferInstanceAs (Decidable (_ ∧ _))

/-- The number of an integer type that is the same modulo the size of its
range. -/
def reduce (t : Ty) (n : Int) : Int :=
  if t.isUnsigned then n % (2 ^ t.bits : Nat) else n.bmod (2 ^ t.bits)

/-- The number that a cell stands for, read as a value of an integer type. -/
def number (t : Ty) (v : Cell) : Int :=
  if t.isUnsigned then v.toUInt64.toNat else v.toInt

/-- Values of types narrower than `int` are computed with as `int`. -/
def promoted (t : Ty) : Ty :=
  if t.bits < Ty.int.bits then .int else t

/-- The type in which two integers are computed with: the wider one, and at
equal width one without a sign if there is one. -/
def usual (s t : Ty) : Ty :=
  if s.promoted.bits < t.promoted.bits then t.promoted
  else if t.promoted.bits < s.promoted.bits then s.promoted
  else if s.promoted.isUnsigned then s.promoted
  else t.promoted

/-- What becomes of an exact result: without a sign it is reduced, with a sign
it has to be in range. -/
def settle (t : Ty) (n : Int) : Option Int :=
  if t.isUnsigned then some (t.reduce n) else if t.Has n then some n else none

end Ty

/-- The exact result of an operator; truth values are 0 and 1. -/
def Operator.exact (op : Operator) (a b : Int) : Option Int :=
  match op with
  | add => some (a + b)
  | sub => some (a - b)
  | mul => some (a * b)
  | div => if b = 0 then none else some (a.tdiv b)
  | mod => if b = 0 then none else some (a.tmod b)
  | eq => some (if a = b then 1 else 0)
  | ne => some (if a ≠ b then 1 else 0)
  | lt => some (if a < b then 1 else 0)
  | le => some (if a ≤ b then 1 else 0)
  | gt => some (if b < a then 1 else 0)
  | ge => some (if b ≤ a then 1 else 0)
  | other _ => none

/-- What an operator gives for two numbers of a type, with the type of the
result. -/
def Operator.compute (op : Operator) (c : Ty) (a b : Int) :
    Option (Ty × Int) := do
  let n ← op.exact a b
  if op.isComparison then return (.int, n)
  else return (c, ← c.settle n)

/-- The type and the value of an expression of integers. It has none if
something else is in it, a literal is not in the range of its type, a result
with a sign is out of range, or a divisor is zero. -/
def Expr.number (vars : Name → Option (Ty × Int)) : Expr → Option (Ty × Int)
  | .int v ty =>
    let t := ty.getD .int
    if t.isInteger ∧ t.Has (t.number v) then some (t, t.number v) else none
  | .var name => vars name
  | .binary op left right => do
    let (s, a) ← left.number vars
    let (t, b) ← right.number vars
    let c := Ty.usual s t
    op.compute c (c.reduce a) (c.reduce b)
  | _ => none

theorem ofInt_congr {a b : Int} (h : a.bmod (2 ^ 64) = b.bmod (2 ^ 64)) :
    Int64.ofInt a = Int64.ofInt b := by
  rw [Int64.ofInt_eq_iff_bmod_eq_toInt, Int64.toInt_ofInt]
  exact h

namespace Ty

variable {t source : Ty} {n m : Int}

theorem bits_of_isInteger (h : t.isInteger = true) :
    t.bits = 8 ∨ t.bits = 16 ∨ t.bits = 32 ∨ t.bits = 64 := by
  cases t with
  | base b unsigned =>
    cases b with
    | void => cases h
    | char | short | int | long =>
      cases unsigned with
      | true | false => decide
  | pointer | array => cases h

theorem bits_eq_iff (h : t.isInteger = true) :
    t.bits = 64 ↔ 8 ≤ t.size.toInt := by
  cases t with
  | base b unsigned =>
    cases b with
    | void => cases h
    | char | short | int | long =>
      cases unsigned with
      | true | false => decide
  | pointer | array => cases h

/-- The reduced number is the one in range that is congruent. -/
theorem eq_reduce_iff (h : t.isInteger = true) :
    m = t.reduce n ↔ t.Has m ∧ m ≡ n [ZMOD (2 ^ t.bits : Nat)] := by
  cases hsign : t.isUnsigned with
  | true =>
    rcases bits_of_isInteger h with hbits | hbits | hbits | hbits
      <;> simp only [reduce, Has, least, greatest, hsign, hbits, Int.ModEq,
        if_true] <;> omega
  | false =>
    rcases bits_of_isInteger h with hbits | hbits | hbits | hbits
      <;> simp only [reduce, Has, least, greatest, hsign, hbits, Int.ModEq,
        Bool.false_eq_true, if_false, Int.bmod_def] <;> split <;> omega

theorem reduce_of_has (h : t.isInteger = true) (hn : t.Has n) :
    t.reduce n = n :=
  ((eq_reduce_iff h).mpr ⟨hn, rfl⟩).symm

theorem has_reduce (h : t.isInteger = true) (n : Int) : t.Has (t.reduce n) :=
  ((eq_reduce_iff h).mp rfl).1

/-- A cell is the pattern of its number. -/
theorem ofInt_number (t : Ty) (v : Cell) : Int64.ofInt (t.number v) = v := by
  simp only [number]
  split
  · apply Int64.toBitVec_inj.mp
    simp
  · exact Int64.ofInt_toInt v

theorem toInt_of_has (h : t.isInteger = true) (hsign : t.isUnsigned = false)
    (hn : t.Has n) : -2 ^ 63 ≤ n ∧ n < 2 ^ 63 ∧ (Int64.ofInt n).toInt = n := by
  have hrange : -2 ^ 63 ≤ n ∧ n < 2 ^ 63 := by
    rcases bits_of_isInteger h with hbits | hbits | hbits | hbits
      <;> simp only [Has, least, greatest, hsign, hbits, Bool.false_eq_true,
        if_false] at hn <;> omega
  exact ⟨hrange.1, hrange.2, Int64.toInt_ofInt_of_le hrange.1 hrange.2⟩

theorem toNat_of_has (h : t.isInteger = true) (hsign : t.isUnsigned = true)
    (hn : t.Has n) : ((Int64.ofInt n).toUInt64.toNat : Int) = n := by
  have hrange : 0 ≤ n ∧ n < 2 ^ 64 := by
    rcases bits_of_isInteger h with hbits | hbits | hbits | hbits <;>
      simp only [Has, least, greatest, hsign, hbits, if_true] at hn <;> omega
  have hpattern : (Int64.ofInt n).toUInt64.toNat = (BitVec.ofInt 64 n).toNat :=
    rfl
  rw [hpattern, BitVec.toNat_ofInt]
  omega

/-- A number in range is read back from its pattern. -/
theorem number_ofInt (h : t.isInteger = true) (hn : t.Has n) :
    t.number (Int64.ofInt n) = n := by
  simp only [number]
  split
  next hsign => exact toNat_of_has h hsign hn
  next hsign => exact (toInt_of_has h (Bool.eq_false_iff.mpr hsign) hn).2.2

/-- Numbers in range have different patterns. -/
theorem ofInt_inj (h : t.isInteger = true) (hn : t.Has n) (hm : t.Has m) :
    Int64.ofInt n = Int64.ofInt m ↔ n = m := by
  constructor
  · intro heq
    rw [← number_ofInt h hn, heq, number_ofInt h hm]
  · rintro rfl
    rfl

/-- Bringing a pattern into the range of a type reduces its number. -/
theorem wrap_ofInt (h : t.isInteger = true) (n : Int) :
    t.wrap (Int64.ofInt n) = Int64.ofInt (t.reduce n) := by
  have hdvd : 2 ^ t.bits ∣ 2 ^ 64 := by
    apply Nat.pow_dvd_pow
    rcases bits_of_isInteger h with hbits | hbits | hbits | hbits <;> omega
  have hmod :
      n.bmod (2 ^ 64) % (2 ^ t.bits : Nat) = n % (2 ^ t.bits : Nat) := by
    have hdvd' : ((2 ^ t.bits : Nat) : Int) ∣ (2 ^ 64 : Nat) :=
      Int.natCast_dvd_natCast.mpr hdvd
    rw [← Int.emod_emod_of_dvd _ hdvd', Int.bmod_emod,
      Int.emod_emod_of_dvd _ hdvd']
  have hwrap (v : Cell) :
      t.wrap v = Int64.ofInt (if t.isUnsigned then v.toInt % (2 ^ t.bits : Nat)
      else v.toInt.bmod (2 ^ t.bits)) := rfl
  have htoInt : (Int64.ofInt n).toInt = n.bmod (2 ^ 64) := Int64.toInt_ofInt
  rw [hwrap, reduce, htoInt, hmod, Int.bmod_bmod_of_dvd hdvd]

/-- In a type as wide as a cell, reducing a number keeps its pattern. -/
theorem ofInt_reduce_of_wide (hbits : t.bits = 64) (n : Int) :
    Int64.ofInt (t.reduce n) = Int64.ofInt n := by
  apply ofInt_congr
  simp only [reduce, hbits]
  split
  · exact Int.emod_bmod n _
  · exact Int.bmod_bmod

/-- A type that holds the values of another one has its numbers. -/
theorem has_of_holds (h : t.holds source = true) (hn : source.Has n) :
    t.Has n := by
  have hrange : t.least ≤ source.least ∧ source.greatest ≤ t.greatest := by
    simp only [holds] at h
    split at h
    next hints =>
      obtain ⟨ht, hsource⟩ := Bool.and_eq_true_iff.mp hints
      obtain ⟨b, unsigned, rfl⟩ := base_of_isInteger ht
      obtain ⟨b', unsigned', rfl⟩ := base_of_isInteger hsource
      cases b <;> cases unsigned <;> cases b' <;> cases unsigned' <;> revert h
        <;> decide
    next => cases h
  exact ⟨Int.le_trans hrange.1 hn.1, Int.le_trans hn.2 hrange.2⟩

/-- What a conversion does to the pattern of a number. -/
theorem convert_ofInt (h : t.isInteger = true) (hn : source.Has n)
    (hsource : source.decay = source) :
    t.convert source (Int64.ofInt n) = Int64.ofInt (t.reduce n) := by
  simp only [convert, h, hsource, Bool.not_true, Bool.false_or]
  split
  next hkept =>
    rcases Bool.or_eq_true_iff.mp hkept with hwide | hholds
    · exact (ofInt_reduce_of_wide
        ((bits_eq_iff h).mpr (of_decide_eq_true hwide)) n).symm
    · rw [reduce_of_has h (has_of_holds hholds hn)]
  next => exact wrap_ofInt h n

/-- The rule for the type of a computation is the usual one. -/
theorem common_eq_usual {s : Ty} (hs : s.isInteger = true)
    (ht : t.isInteger = true) : common s t = usual s t := by
  obtain ⟨b, unsigned, rfl⟩ := base_of_isInteger hs
  obtain ⟨b', unsigned', rfl⟩ := base_of_isInteger ht
  cases b <;> cases unsigned <;> cases b' <;> cases unsigned' <;> decide

theorem has_zero (h : t.isInteger = true) : t.Has 0 := by
  cases hsign : t.isUnsigned <;>
    rcases bits_of_isInteger h with hbits | hbits | hbits | hbits <;>
    simp [Has, least, greatest, hsign, hbits]

/-- Settling an exact result is what the code of sums and products does to its
pattern. -/
theorem settle_spec (h : t.isInteger = true) (hn : t.settle n = some m) :
    Int64.ofInt m =
      (if t.isUnsigned && t.size.toInt < 8 then t.wrap (Int64.ofInt n)
       else Int64.ofInt n) ∧
    t.Has m := by
  simp only [settle] at hn
  split at hn
  next hsign =>
    cases hn
    refine ⟨?_, has_reduce h n⟩
    split
    next => exact (wrap_ofInt h n).symm
    next hnarrow =>
      have hwide : 8 ≤ t.size.toInt := by simpa [hsign] using hnarrow
      exact ofInt_reduce_of_wide ((bits_eq_iff h).mpr hwide) n
  next hsign =>
    obtain ⟨hhas, hn⟩ := Option.ite_none_right_eq_some.mp hn
    cases hn
    rw [if_neg (by simp [hsign])]
    exact ⟨rfl, hhas⟩

/-- A result that is in range anyway stays as it is. -/
theorem settle_eq (h : t.isInteger = true)
    (hhas : t.isUnsigned = true → t.Has n) (hn : t.settle n = some m) :
    m = n := by
  simp only [settle] at hn
  split at hn
  next hsign =>
    cases hn
    exact reduce_of_has h (hhas hsign)
  next =>
    obtain ⟨-, hn⟩ := Option.ite_none_right_eq_some.mp hn
    cases hn; rfl

end Ty

theorem toInt64_eq (v : UInt64) : v.toInt64 = Int64.ofInt v.toNat := by
  apply Int64.toBitVec_inj.mp
  simp

theorem truth_of_iff {b : Bool} {p : Prop} [Decidable p] (h : b = true ↔ p) :
    truth b = Int64.ofInt (if p then 1 else 0) := by
  by_cases hp : p <;> simp [truth, h, hp]

namespace Operator

variable {op : Operator} {c ty : Ty} {a b n : Int}

/-- Without a sign, quotients and remainders are not greater than the
dividend. -/
theorem has_quotient (hop : op = div ∨ op = mod) (hsign : c.isUnsigned = true)
    (ha : c.Has a) (hb : c.Has b) (h : op.exact a b = some n) : c.Has n := by
  have hleast : c.least = 0 := by rw [Ty.least, if_pos hsign]
  obtain ⟨ha0, hahigh⟩ := ha
  obtain ⟨hb0, -⟩ := hb
  rw [hleast] at ha0 hb0
  obtain ⟨x, rfl⟩ := Int.eq_ofNat_of_zero_le ha0
  obtain ⟨y, rfl⟩ := Int.eq_ofNat_of_zero_le hb0
  have hvalue : n = (x / y : Nat) ∨ n = (x % y : Nat) := by
    rcases hop with rfl | rfl
    · simp only [exact] at h
      obtain ⟨-, h⟩ := Option.ite_none_left_eq_some.mp h
      cases h
      exact Or.inl rfl
    · simp only [exact] at h
      obtain ⟨-, h⟩ := Option.ite_none_left_eq_some.mp h
      cases h
      exact Or.inr rfl
  have hle : ∃ r : Nat, n = r ∧ r ≤ x := by
    rcases hvalue with hn | hn
    · exact ⟨_, hn, Nat.div_le_self x y⟩
    · exact ⟨_, hn, Nat.mod_le x y⟩
  obtain ⟨r, rfl, hr⟩ := hle
  rw [Ty.Has, hleast]
  omega

section

variable (hc : c.isInteger = true) (ha : c.Has a) (hb : c.Has b)

include hc ha hb

theorem lt_ofInt :
    (if c.isUnsigned then
      decide ((Int64.ofInt a).toUInt64 < (Int64.ofInt b).toUInt64)
      else decide (Int64.ofInt a < Int64.ofInt b)) = true ↔
    a < b := by
  split
  next hsign =>
    have hna := Ty.toNat_of_has hc hsign ha
    have hnb := Ty.toNat_of_has hc hsign hb
    rw [decide_eq_true_iff, UInt64.lt_iff_toNat_lt]
    omega
  next hsign =>
    have hsign := Bool.eq_false_iff.mpr hsign
    rw [decide_eq_true_iff, Int64.lt_iff_toInt_lt,
      (Ty.toInt_of_has hc hsign ha).2.2, (Ty.toInt_of_has hc hsign hb).2.2]

theorem le_ofInt :
    (if c.isUnsigned then
      decide ((Int64.ofInt a).toUInt64 ≤ (Int64.ofInt b).toUInt64)
      else decide (Int64.ofInt a ≤ Int64.ofInt b)) = true ↔
    a ≤ b := by
  split
  next hsign =>
    have hna := Ty.toNat_of_has hc hsign ha
    have hnb := Ty.toNat_of_has hc hsign hb
    rw [decide_eq_true_iff, UInt64.le_iff_toNat_le]
    omega
  next hsign =>
    have hsign := Bool.eq_false_iff.mpr hsign
    rw [decide_eq_true_iff, Int64.le_iff_toInt_le,
      (Ty.toInt_of_has hc hsign ha).2.2, (Ty.toInt_of_has hc hsign hb).2.2]

theorem div_ofInt :
    (if c.isUnsigned then
      ((Int64.ofInt a).toUInt64 / (Int64.ofInt b).toUInt64).toInt64
      else Int64.ofInt a / Int64.ofInt b) = Int64.ofInt (a.tdiv b) := by
  split
  next hsign =>
    rw [toInt64_eq, UInt64.toNat_div, Int.ofNat_tdiv,
      Ty.toNat_of_has hc hsign ha, Ty.toNat_of_has hc hsign hb]
  next hsign =>
    have hsign := Bool.eq_false_iff.mpr hsign
    obtain ⟨hlow, hhigh, -⟩ := Ty.toInt_of_has hc hsign ha
    obtain ⟨hlow', hhigh', -⟩ := Ty.toInt_of_has hc hsign hb
    exact (Int64.ofInt_tdiv hlow (Int.le_of_lt_add_one hhigh) hlow'
      (Int.le_of_lt_add_one hhigh')).symm

theorem mod_ofInt :
    (if c.isUnsigned then
      ((Int64.ofInt a).toUInt64 % (Int64.ofInt b).toUInt64).toInt64
      else Int64.ofInt a % Int64.ofInt b) = Int64.ofInt (a.tmod b) := by
  split
  next hsign =>
    rw [toInt64_eq, UInt64.toNat_mod, Int.ofNat_tmod,
      Ty.toNat_of_has hc hsign ha, Ty.toNat_of_has hc hsign hb]
  next hsign =>
    have hsign := Bool.eq_false_iff.mpr hsign
    obtain ⟨hlow, hhigh, -⟩ := Ty.toInt_of_has hc hsign ha
    obtain ⟨hlow', hhigh', -⟩ := Ty.toInt_of_has hc hsign hb
    exact (Int64.ofInt_tmod hlow (Int.le_of_lt_add_one hhigh) hlow'
      (Int.le_of_lt_add_one hhigh')).symm

/-- The operators on patterns give the pattern of the exact result. -/
theorem apply_ofInt (h : op.exact a b = some n) :
    op.apply c.isUnsigned (Int64.ofInt a) (Int64.ofInt b) =
      .ok (Int64.ofInt n) := by
  have hequal := Ty.ofInt_inj hc ha hb
  have hzero : Int64.ofInt b = 0 ↔ b = 0 := Ty.ofInt_inj hc hb (Ty.has_zero hc)
  cases op with
  | add | sub | mul =>
    cases h
    simp only [apply, Int64.ofInt_add, Int64.ofInt_sub, Int64.ofInt_mul]
  | div =>
    simp only [exact] at h
    obtain ⟨hb0, h⟩ := Option.ite_none_left_eq_some.mp h
    cases h
    rw [apply, if_neg (hzero.not.mpr hb0), div_ofInt hc ha hb]
  | mod =>
    simp only [exact] at h
    obtain ⟨hb0, h⟩ := Option.ite_none_left_eq_some.mp h
    cases h
    rw [apply, if_neg (hzero.not.mpr hb0), mod_ofInt hc ha hb]
  | eq =>
    cases h
    exact congrArg Except.ok (truth_of_iff (beq_iff_eq.trans hequal))
  | ne =>
    cases h
    exact congrArg Except.ok (truth_of_iff (bne_iff_ne.trans hequal.not))
  | lt =>
    cases h
    exact congrArg Except.ok (truth_of_iff (lt_ofInt hc ha hb))
  | le =>
    cases h
    exact congrArg Except.ok (truth_of_iff (le_ofInt hc ha hb))
  | gt =>
    cases h
    exact congrArg Except.ok (truth_of_iff (lt_ofInt hc hb ha))
  | ge =>
    cases h
    exact congrArg Except.ok (truth_of_iff (le_ofInt hc hb ha))
  | other => cases h

/-- An operator on patterns gives the pattern of what it gives for the
numbers. -/
theorem applyInteger_ofInt (h : op.compute c a b = some (ty, n)) :
    op.applyInteger c (Int64.ofInt a) (Int64.ofInt b) = .ok (Int64.ofInt n) ∧
      ty.isInteger = true ∧ ty.Has n := by
  obtain ⟨e, hexact, h⟩ := Option.bind_eq_some_iff.mp h
  have happly := apply_ofInt hc ha hb hexact
  cases op with
  | add | sub | mul =>
    obtain ⟨m, hsettle, h⟩ := Option.bind_eq_some_iff.mp h
    cases h
    obtain ⟨hpattern, hhas⟩ := Ty.settle_spec hc hsettle
    refine ⟨?_, hc, hhas⟩
    rw [hpattern, applyInteger, happly]
    rfl
  | div | mod =>
    obtain ⟨m, hsettle, h⟩ := Option.bind_eq_some_iff.mp h
    cases h
    have hhas (hsign : c.isUnsigned = true) : c.Has e :=
      has_quotient (by simp) hsign ha hb hexact
    refine ⟨?_, hc, (Ty.settle_spec hc hsettle).2⟩
    rw [Ty.settle_eq hc hhas hsettle]
    exact happly
  | eq | ne | lt | le | gt | ge =>
    cases h
    cases hexact
    refine ⟨happly, rfl, ?_⟩
    split <;> decide
  | other => cases hexact

end

theorem isDefined_of_compute (h : op.compute c a b = some (ty, n)) :
    op.isDefined = true := by
  cases op with
  | other => cases h
  | add | sub | mul | div | mod | eq | ne | lt | le | gt | ge => rfl

theorem ty_of_compute (h : op.compute c a b = some (ty, n)) :
    ty = if op.isComparison then .int else c := by
  obtain ⟨e, -, h⟩ := Option.bind_eq_some_iff.mp h
  split at h
  next hop =>
    cases h
    rw [if_pos hop]
  next hop =>
    obtain ⟨m, -, h⟩ := Option.bind_eq_some_iff.mp h
    cases h
    rw [if_neg hop]

end Operator

end StackC
