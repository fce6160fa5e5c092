import StackC.Proofs.Texts

/-!
Numerals read back. A number that is written in decimal, with or without zeros
in front, is read as the same number as long as it fits the width of the reader;
the reader that takes the base from the text reads it in base ten, since only
zero is written with a zero in front.
-/

namespace StackC

namespace Numeral

variable {greatest n : Nat} {underscores : Bool}

/-- Reading goes on behind the first part with the number read so far. -/
theorem digits_append {base m : Nat} {s : Bytes}
    (h : digits base greatest underscores n s = .ok m) (t : Bytes) :
    digits base greatest underscores n (s ++ t) =
      digits base greatest underscores m t := by
  induction s generalizing n with
  | nil => cases h; rfl
  | cons b s ih =>
    rw [List.cons_append, digits]
    rw [digits] at h
    split at h
    next hunderscore => rw [if_pos hunderscore, ih h]
    next hunderscore =>
      rw [if_neg hunderscore]
      split at h
      next => cases h
      next d hd =>
        split at h
        next => cases h
        next hbase =>
          split at h
          next => cases h
          next hgreatest => simp only [if_neg hbase, if_neg hgreatest, ih h]

/-- A decimal digit is read as its value, in every base that has it. -/
theorem digits_digitChar {base d : Nat} (hd : d < 10) (hbase : d < base)
    (hfits : n * base + d ≤ greatest) :
    digits base greatest underscores n [d.digitChar.toUInt8] =
      .ok (n * base + d) := by
  have hvalue : digitValue? d.digitChar.toUInt8 = some d ∧
      d.digitChar.toUInt8 ≠ byte '_' := by
    revert hd
    clear hbase hfits
    revert d
    decide
  have hunderscore :
      ¬ (underscores && d.digitChar.toUInt8 == byte '_') = true := by
    simp [hvalue.2]
  rw [digits, if_neg hunderscore, hvalue.1]
  simp only [if_neg (Nat.not_le.mpr hbase),
    if_neg (Nat.not_lt.mpr hfits), digits]

theorem decimalNat_of_lt (h : n < 10) :
    decimalNat n = [n.digitChar.toUInt8] := by
  rw [decimalNat, Nat.toDigits_of_lt_base h]
  rfl

theorem decimalNat_of_le (h : 10 ≤ n) :
    decimalNat n = decimalNat (n / 10) ++ [(n % 10).digitChar.toUInt8] := by
  rw [decimalNat, Nat.toDigits_of_base_le (by decide) h, List.map_append]
  rfl

/-- The decimal digits of a number are read as the number. -/
theorem digits_decimalNat (n : Nat) (h : n ≤ greatest) :
    digits 10 greatest underscores 0 (decimalNat n) = .ok n := by
  induction n using Nat.strong_induction_on with
  | _ n ih =>
    by_cases hn : n < 10
    · rw [decimalNat_of_lt hn, digits_digitChar hn hn (by omega)]
      simp
    · have hfirst := ih (n / 10) (by omega) (by omega)
      have hlast : n % 10 < 10 := Nat.mod_lt n (by decide)
      rw [decimalNat_of_le (by omega), digits_append hfirst,
        digits_digitChar hlast hlast (by omega)]
      congr 1
      omega

theorem digits_zeros (k : Nat) :
    digits 10 greatest underscores 0 (List.replicate k (byte '0')) = .ok 0 := by
  induction k with
  | zero => rfl
  | succ k ih =>
    have hzero : digits 10 greatest underscores 0 [byte '0'] = .ok 0 :=
      digits_digitChar (d := 0) (by decide) (by decide) (Nat.zero_le _)
    rw [List.replicate_succ, ← List.singleton_append, digits_append hzero, ih]

/-- The first digit of a number is zero only for zero. -/
theorem decimalNat_cons (n : Nat) :
    ∃ d ds, decimalNat n = d.digitChar.toUInt8 :: ds ∧ d < 10 ∧
      (n ≠ 0 → d ≠ 0) := by
  induction n using Nat.strong_induction_on with
  | _ n ih =>
    by_cases hn : n < 10
    · exact ⟨n, [], decimalNat_of_lt hn, hn, id⟩
    · obtain ⟨d, ds, hfirst, hd, hzero⟩ := ih (n / 10) (by omega)
      refine ⟨d, ds ++ [(n % 10).digitChar.toUInt8], ?_, hd,
        fun _ => hzero (by omega)⟩
      rw [decimalNat_of_le (by omega), hfirst, List.cons_append]

def decimalChars : Int → List Char
  | .ofNat n => Nat.toDigits 10 n
  | .negSucc n => '-' :: Nat.toDigits 10 (n + 1)

theorem isDigit_ascii {c : Char} (h : c.isDigit = true) : c.toNat < 0x80 := by
  simp only [Char.isDigit, Bool.and_eq_true, decide_eq_true_eq] at h
  exact Nat.lt_of_le_of_lt h.2 (by decide)

theorem encode_digits {cs : List Char} (h : ∀ c ∈ cs, c.isDigit = true) :
    Utf8.encode cs = cs.map Char.toUInt8 := by
  induction cs with
  | nil => rfl
  | cons c cs ih =>
    have hc := Utf8.encodeChar_ascii (isDigit_ascii (h c List.mem_cons_self))
    rw [Utf8.encode_cons, hc, ih fun d hd => h d (List.mem_cons_of_mem c hd)]
    rfl

theorem isDigit_of_mem_toDigits {n : Nat} {c : Char}
    (h : c ∈ Nat.toDigits 10 n) : c.isDigit = true :=
  Nat.isDigit_of_mem_toDigits (by decide) (by decide) h

theorem decimalNat_eq_encode (n : Nat) :
    decimalNat n = Utf8.encode (Nat.toDigits 10 n) :=
  (encode_digits fun _ h => isDigit_of_mem_toDigits h).symm

theorem decimal_eq_encode (v : Int) :
    decimal v = Utf8.encode (decimalChars v) := by
  cases v with
  | ofNat n => exact decimalNat_eq_encode n
  | negSucc n =>
    rw [decimal, decimalNat_eq_encode, decimalChars, Utf8.encode_cons,
      Utf8.encodeChar_ascii (by decide)]
    rfl

theorem sign_encode {cs : List Char} (h : ∀ c ∈ cs, c.isDigit = true) :
    sign (Utf8.encode cs) = (false, Utf8.encode cs) := by
  have hnot {d : Char} (hascii : d.toNat < 0x80) (hd : d.isDigit = false) :
      d.toUInt8 ∉ Utf8.encode cs := by
    rw [Utf8.byte_mem_encode hascii]
    intro hmem
    exact Bool.false_ne_true (hd.symm.trans (h d hmem))
  have hminus := hnot (show '-'.toNat < 0x80 by decide) rfl
  have hplus := hnot (show '+'.toNat < 0x80 by decide) rfl
  cases hs : Utf8.encode cs with
  | nil => rfl
  | cons b bs =>
    rw [hs] at hminus hplus
    have hb : b ≠ byte '-' ∧ b ≠ byte '+' :=
      ⟨fun heq => hminus (heq ▸ List.mem_cons_self),
        fun heq => hplus (heq ▸ List.mem_cons_self)⟩
    simp [sign, hb.1, hb.2]

theorem sign_decimalNat (n : Nat) :
    sign (decimalNat n) = (false, decimalNat n) := by
  rw [decimalNat_eq_encode]
  exact sign_encode fun _ h => isDigit_of_mem_toDigits h

theorem underscoresPlaced_of_not_mem {s : Bytes} (h : byte '_' ∉ s)
    (afterDigit : Bool) : underscoresPlaced afterDigit s = true := by
  induction s generalizing afterDigit with
  | nil => rfl
  | cons b s ih =>
    obtain ⟨hb, hs⟩ := not_or.mp (mt List.mem_cons.mpr h)
    have hne : ¬ (b == byte '_') = true := by simpa using Ne.symm hb
    rw [underscoresPlaced.eq_def]
    simp only [if_neg hne]
    exact ih hs true

theorem underscore_not_mem_decimalNat (n : Nat) : byte '_' ∉ decimalNat n := by
  rw [decimalNat_eq_encode, Utf8.byte_mem_encode (by decide)]
  intro h
  exact absurd (isDigit_of_mem_toDigits h) (by decide)

theorem announcedBase_of_ne {b : UInt8} (h : b ≠ byte '0') (s : Bytes) :
    announcedBase (b :: s) = (10, b :: s, false) := by
  have hne : ¬ (b == byte '0') = true := by simpa using h
  match s with
  | [] | [_] => exact if_neg hne
  | _ :: _ :: _ => exact if_neg hne

theorem readUnsigned_decimalNat {bits : Nat} (h : n < 1 <<< bits) :
    readUnsigned bits (decimalNat n) = .ok n := by
  by_cases hzero : n = 0
  · subst hzero
    rfl
  · obtain ⟨d, ds, heq, hd, hfirst⟩ := decimalNat_cons n
    have hne : d.digitChar.toUInt8 ≠ byte '0' := by
      have hnonzero := hfirst hzero
      revert hd hnonzero
      clear heq hfirst
      revert d
      decide
    have hbase := announcedBase_of_ne hne ds
    have hread : digits 10 (1 <<< bits - 1) true 0 (decimalNat n) = .ok n :=
      digits_decimalNat n (Nat.le_sub_one_of_lt h)
    have hplaced :=
      underscoresPlaced_of_not_mem (underscore_not_mem_decimalNat n) false
    rw [heq] at hread hplaced ⊢
    simp only [readUnsigned, underscoresOk, hbase, hread, hplaced,
      List.isEmpty_cons, Bool.false_eq_true, if_false, if_true]

/-- A cell in decimal is read back. -/
theorem readInt_decimal (v : Cell) :
    readInt 64 (Cell.decimal v) = .ok v.toInt := by
  have hmin : -9223372036854775808 ≤ v.toInt := v.le_toInt
  have hmax : v.toInt < 9223372036854775808 := v.toInt_lt
  rw [Cell.decimal]
  generalize v.toInt = x at hmin hmax
  cases x with
  | ofNat n =>
    have hn : n < 9223372036854775808 := by simpa using hmax
    rw [decimal, readInt, sign_decimalNat]
    simp only [readUnsigned_decimalNat (show n < 1 <<< 64 by omega)]
    exact if_neg (show ¬ 1 <<< (64 - 1) ≤ n by omega)
  | negSucc n =>
    have hn : n < 9223372036854775808 := by omega
    have hsign :
        sign (byte '-' :: decimalNat (n + 1)) = (true, decimalNat (n + 1)) :=
      rfl
    rw [decimal, readInt, hsign]
    simp only [readUnsigned_decimalNat (show n + 1 < 1 <<< 64 by omega)]
    exact if_neg (show ¬ 1 <<< (64 - 1) < n + 1 by omega)

/-- The characters of a number with zeros in front. -/
def paddedChars (width n : Nat) : List Char :=
  List.replicate (width - (Nat.toDigits 10 n).length) '0' ++ Nat.toDigits 10 n

theorem isDigit_of_mem_paddedChars {width : Nat} {c : Char}
    (h : c ∈ paddedChars width n) : c.isDigit = true := by
  rcases List.mem_append.mp h with h | h
  · rw [List.eq_of_mem_replicate h]
    rfl
  · exact isDigit_of_mem_toDigits h

theorem zeroPadded_eq_encode (width n : Nat) :
    zeroPadded width n = Utf8.encode (paddedChars width n) := by
  rw [encode_digits fun _ h => isDigit_of_mem_paddedChars h, paddedChars,
    List.map_append, List.map_replicate]
  show List.replicate (width - (decimalNat n).length) _ ++ decimalNat n = _
  rw [decimalNat, List.length_map]

/-- A number with zeros in front is read back. -/
theorem readDecimal_zeroPadded {width : Nat} (h : n < 9223372036854775808) :
    readDecimal 64 (zeroPadded width n) = .ok n := by
  have hdigits : ∀ c ∈ paddedChars width n, c.isDigit = true :=
    fun _ => isDigit_of_mem_paddedChars
  have hsign := sign_encode hdigits
  have hread :
      digits 10 (1 <<< 64 - 1) false 0 (zeroPadded width n) = .ok n := by
    have hrest : digits 10 (1 <<< 64 - 1) false 0 (decimalNat n) = .ok n :=
      digits_decimalNat n (by omega)
    exact (digits_append (digits_zeros _) _).trans hrest
  have hne : (zeroPadded width n).isEmpty = false := by
    rw [zeroPadded_eq_encode, List.isEmpty_eq_false_iff, Ne, Utf8.encode_eq_nil,
      paddedChars, List.append_eq_nil_iff]
    exact fun hnil => Nat.toDigits_ne_nil hnil.2
  rw [zeroPadded_eq_encode] at hread hne ⊢
  rw [readDecimal, hsign]
  simp only [readDecimalUnsigned, hne, hread, Bool.false_eq_true, if_false]
  exact if_neg (show ¬ 1 <<< (64 - 1) ≤ n by omega)

end Numeral

end StackC
