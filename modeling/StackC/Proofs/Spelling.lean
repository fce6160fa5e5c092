import StackC.Proofs.NumeralSyntax
import StackC.Proofs.RoundTrip

/-!
The same listing spelled differently. Comments, blank lines, the column of
addresses, the case of mnemonics and directives, and labels in place of
addresses are matters of spelling: a listing that is assembled into a program is
assembled into the same program after any number of such changes.
-/

namespace StackC

/-! ### Case -/

/-- The lower case of an ASCII letter. Other bytes stay as they are. -/
def asciiLower (b : UInt8) : UInt8 :=
  if byte 'A' ≤ b && b ≤ byte 'Z' then b + 0x20 else b

/-- Two bytes that differ in case only are the same, or one letter in its two
forms. -/
theorem eq_or_letters_of_asciiLower_eq {a b : UInt8}
    (h : asciiLower a = asciiLower b) :
    a = b ∨
      ∃ k : Fin 26, (a = UInt8.ofNat (0x41 + k) ∧ b = UInt8.ofNat (0x61 + k)) ∨
        (a = UInt8.ofNat (0x61 + k) ∧ b = UInt8.ofNat (0x41 + k)) := by
  have hA : (byte 'A').toNat = 0x41 := rfl
  have hZ : (byte 'Z').toNat = 0x5a := rfl
  have hlower (c : UInt8) : (asciiLower c).toNat =
      if 0x41 ≤ c.toNat ∧ c.toNat ≤ 0x5a then c.toNat + 0x20 else c.toNat := by
    rw [asciiLower]
    by_cases hc : 0x41 ≤ c.toNat ∧ c.toNat ≤ 0x5a
    · rw [if_pos hc, if_pos (by simp [UInt8.le_iff_toNat_le, hA, hZ, hc]),
        UInt8.toNat_add]
      exact Nat.mod_eq_of_lt (by simp; omega)
    · rw [if_neg hc, if_neg (by simp [UInt8.le_iff_toNat_le, hA, hZ]; omega)]
  have hof {c : UInt8} {n : Nat} (hc : c.toNat = n) : c = UInt8.ofNat n := by
    rw [← hc, UInt8.ofNat_toNat]
  have hnat := congrArg UInt8.toNat h
  rw [hlower, hlower] at hnat
  split at hnat <;> split at hnat
  next ha hb => exact Or.inl (UInt8.toNat_inj.mp (by omega))
  next ha hb =>
    exact Or.inr ⟨⟨a.toNat - 0x41, by omega⟩,
      Or.inl ⟨hof (by simp; omega), hof (by simp; omega)⟩⟩
  next ha hb =>
    exact Or.inr ⟨⟨b.toNat - 0x41, by omega⟩,
      Or.inr ⟨hof (by simp; omega), hof (by simp; omega)⟩⟩
  next ha hb => exact Or.inl (UInt8.toNat_inj.mp hnat)

/-- A byte that is no letter is not changed with the case of a text. -/
theorem eq_some_iff_of_asciiLower_eq {o o' : Option UInt8}
    (h : o.map asciiLower = o'.map asciiLower) {a : UInt8}
    (ha : ∀ k : Fin 26,
      a ≠ UInt8.ofNat (0x41 + k) ∧ a ≠ UInt8.ofNat (0x61 + k)) :
    o = some a ↔ o' = some a := by
  have hone {b c : UInt8} (hbc : asciiLower b = asciiLower c)
      (hb : b = a) : c = a := by
    rcases eq_or_letters_of_asciiLower_eq hbc with
        rfl | ⟨k, ⟨hupper, -⟩ | ⟨hlower, -⟩⟩
    · exact hb
    · exact absurd (hb.symm.trans hupper) (ha k).1
    · exact absurd (hb.symm.trans hlower) (ha k).2
  cases o with
  | none =>
    cases o' with
    | none => rfl
    | some c => cases h
  | some b =>
    cases o' with
    | none => cases h
    | some c =>
      have hbc : asciiLower b = asciiLower c := Option.some.inj h
      rw [Option.some.injEq, Option.some.injEq]
      exact ⟨hone hbc, hone hbc.symm⟩

variable {s t : Bytes}

/-- A property of characters that both forms of a letter share does not tell
texts apart that differ in case. -/
theorem Utf8.map_chars_of_asciiLower_eq {α : Type} {f : Char → α}
    (hf : ∀ k : Fin 26, f (Char.ofUInt8 (UInt8.ofNat (0x41 + k))) =
      f (Char.ofUInt8 (UInt8.ofNat (0x61 + k))))
    (h : s.map asciiLower = t.map asciiLower) :
    (chars s).map f = (chars t).map f := by
  have hsplit (u : Bytes) {a : UInt8} (ha : a < 0x80)
      (v : Bytes) :
      (chars (u ++ a :: v)).map f = (chars u).map f ++ f (Char.ofUInt8 a) ::
      (chars v).map f := by
    rw [chars_append (startsApart_ascii ha v), List.map_append, chars_ascii ha,
      List.map_cons]
  have hupper (k : Fin 26) : UInt8.ofNat (0x41 + k) < 0x80 := by
    revert k
    decide
  have hlower (k : Fin 26) : UInt8.ofNat (0x61 + k) < 0x80 := by
    revert k
    decide
  -- One letter is changed after the other; `u` is what has been changed
  -- already.
  have hall : ∀ (s t u : Bytes), s.map asciiLower = t.map asciiLower →
      (chars (u ++ s)).map f = (chars (u ++ t)).map f := by
    intro s
    induction s with
    | nil =>
      intro t u h
      rw [List.map_eq_nil_iff.mp h.symm]
    | cons a s ih =>
      intro t u h
      cases t with
      | nil => cases h
      | cons b t =>
        rw [List.map_cons, List.map_cons, List.cons.injEq] at h
        have hrest := ih t (u ++ [b]) h.2
        rw [List.append_assoc, List.append_assoc, List.singleton_append,
          List.singleton_append] at hrest
        refine Eq.trans ?_ hrest
        rcases eq_or_letters_of_asciiLower_eq h.1 with
            rfl | ⟨k, ⟨rfl, rfl⟩ | ⟨rfl, rfl⟩⟩
        · rfl
        · rw [hsplit u (hupper k), hsplit u (hlower k), hf]
        · rw [hsplit u (hupper k), hsplit u (hlower k), hf]
  exact hall s t [] h

theorem Bytes.upper_of_asciiLower_eq (h : s.map asciiLower = t.map asciiLower) :
    upper s = upper t := by
  rw [upper, upper, Utf8.map_chars_of_asciiLower_eq (by decide +kernel) h]

theorem Assembler.isNumber_of_asciiLower_eq
    (h : s.map asciiLower = t.map asciiLower) : isNumber s = isNumber t := by
  have hdigits :=
    Utf8.map_chars_of_asciiLower_eq (f := isDigit) (by decide +kernel) h
  have hempty : s.isEmpty = t.isEmpty := by
    have := congrArg List.isEmpty h
    simpa using this
  have hall :
      (Utf8.chars s).all isDigit = ((Utf8.chars s).map isDigit).all id := by
    rw [List.all_map]
    rfl
  have hall' :
      (Utf8.chars t).all isDigit = ((Utf8.chars t).map isDigit).all id := by
    rw [List.all_map]
    rfl
  rw [isNumber, isNumber, hempty, hall, hall', hdigits]

/-! ### Words -/

/-- A numeral begins with a sign or a digit. -/
theorem Numeral.head_of_readInt {b : UInt8} {v : Int}
    (h : readInt 64 (b :: s) = .ok v) : b ∈ text "+-0123456789" := by
  have hdigit : ∀ n : Fin 256, (digitValue? (UInt8.ofNat n)).any (· < 10) =
      true → UInt8.ofNat n ∈ text "0123456789" := by
    decide +kernel
  have hunsigned {s : Bytes} {n : Nat} (hs : Unsigned (b :: s) n) :
      b ∈ text "+-0123456789" := by
    cases hs with
    | decimal hrun =>
      cases hrun with
      | digit hd rest =>
        have hb := hdigit ⟨b.toNat, b.toNat_lt⟩
        rw [UInt8.ofNat_toNat, hd.1, Option.any_some, decide_eq_true_eq] at hb
        exact List.mem_append_right (text "+-") (hb hd.2)
    | octal | marked => decide
  cases ((readInt_iff (by decide) _ _).mp h).1 with
  | plain hs => exact hunsigned hs
  | plus | minus => decide

/-- A digit of any script is its own upper case. -/
theorem upperChar_of_isDigit {c : Char} (h : isDigit c = true) :
    upperChar c = c := by
  rw [isDigit] at h
  rw [upperChar]
  split at h
  next hascii =>
    have hlow : ¬ (c.val ≥ 'a'.val ∧ c.val ≤ 'z'.val) := by
      simp only [Char.isDigit, Bool.and_eq_true, decide_eq_true_eq] at h
      rintro ⟨hle, -⟩
      exact absurd (UInt32.le_trans hle h.2) (by decide)
    rw [if_pos hascii, Char.toUpper, dif_neg hlow]
  next hascii =>
    have hapart :
        (upperRanges.all fun r => digitRanges.all fun d =>
        r.hi < d.1 || d.2 < r.lo) = true := by
      decide +kernel
    have hnone : upperRanges.find? (·.covers c.toNat) = none := by
      rw [List.find?_eq_none]
      intro r hr hcovers
      obtain ⟨d, hd, hin⟩ := List.any_eq_true.mp h
      have hrd := List.all_eq_true.mp (List.all_eq_true.mp hapart r hr) d hd
      simp only [CaseRange.covers, Bool.and_eq_true, Bool.or_eq_true,
        decide_eq_true_eq] at hcovers hin hrd
      omega
    rw [if_neg hascii, hnone]

theorem Opcode.isUpper_mnemonic :
    ∀ op ∈ Opcode.defined, Utf8.chars op.mnemonic ≠ [] ∧
      (Utf8.chars op.mnemonic).all Char.isUpper = true := by
  decide +kernel

namespace Assembler

theorem le_toNat_of_startsName {c : Char} (h : startsName c = true) :
    0x41 ≤ c.toNat := by
  rw [startsName, Bool.or_eq_true, beq_iff_eq] at h
  rcases h with h | rfl
  · rw [isLetter] at h
    split at h
    next => exact (toNat_of_isAlpha h).1
    next hascii => omega
  · decide

/-- An identifier is no numeral. -/
theorem readInt_of_isIdentifier {name : Name} (h : isIdentifier name = true) :
    ∃ e, Numeral.readInt 64 name = .error e := by
  obtain ⟨c, cs, rfl, hc, -⟩ := isLabel_of_isIdentifier h
  cases hread : Numeral.readInt 64 (Utf8.encode (c :: cs)) with
  | error e => exact ⟨e, rfl⟩
  | ok v =>
    exfalso
    have hbelow : ∀ b ∈ text "+-0123456789", b.toNat < 0x41 := by decide +kernel
    rw [Utf8.encode_cons] at hread
    cases hbytes : String.utf8EncodeChar c with
    | nil => exact String.utf8EncodeChar_ne_nil hbytes
    | cons b bs =>
      rw [hbytes] at hread
      have hb := hbelow b (Numeral.head_of_readInt hread)
      have hmem : b ∈ String.utf8EncodeChar c := by
        rw [hbytes]
        exact List.mem_cons_self
      have hcode := (Utf8.mem_encodeChar (by omega)).mp hmem
      have := le_toNat_of_startsName hc
      omega

/-- The name of an opcode is neither a number nor a directive. -/
theorem word_of_ofMnemonic? {w : Bytes} {op : Opcode}
    (h : Opcode.ofMnemonic? (Bytes.upper w) = some op) :
    isNumber w = false ∧ w.head? ≠ some (byte '.') := by
  have hname : op.mnemonic = Bytes.upper w := by simpa using List.find?_some h
  obtain ⟨hne, hupper⟩ :=
    Opcode.isUpper_mnemonic op (List.mem_of_find?_eq_some h)
  rw [hname, Bytes.upper, Utf8.chars_encode] at hne hupper
  cases hchars : Utf8.chars w with
  | nil =>
    rw [hchars] at hne
    exact absurd rfl hne
  | cons c cs =>
    rw [hchars] at hupper
    have hc : (upperChar c).isUpper = true := (Bool.and_eq_true_iff.mp hupper).1
    constructor
    · refine Bool.eq_false_iff.mpr fun hnumber => ?_
      rw [isNumber, hchars, Bool.and_eq_true, List.all_cons, Bool.and_eq_true]
        at hnumber
      have hdigit := hnumber.2.1
      rw [upperChar_of_isDigit hdigit] at hc
      simp only [Char.isUpper, decide_eq_true_eq, ge_iff_le,
        UInt32.le_iff_toNat_le] at hc
      have hascii : c.toNat < 0x80 := Nat.lt_of_le_of_lt hc.2 (by decide)
      rw [isDigit, if_pos hascii] at hdigit
      simp only [Char.isDigit, Bool.and_eq_true, decide_eq_true_eq, ge_iff_le,
        UInt32.le_iff_toNat_le] at hdigit
      exact absurd (Nat.le_trans hc.1 hdigit.2) (by decide)
    · intro hhead
      cases w with
      | nil => cases hhead
      | cons b w =>
        cases hhead
        rw [Utf8.chars_ascii (by decide)] at hchars
        cases hchars
        exact absurd hc (by decide)

/-- What stands before the operation of a line: nothing, or an address. -/
def IsColumn (column : List Bytes) : Prop :=
  column = [] ∨ ∃ number, column = [number] ∧ isNumber number = true

/-- Changes of a line that leave its meaning alone, when `position` instructions
stand before it. -/
inductive Respelled (funcs : Symbols) (position : Nat) : Bytes → Bytes → Prop
  | addComment (raw comment : Bytes) :
    Respelled funcs position raw (raw ++ text ";" ++ comment)
  | dropComment (raw comment : Bytes) :
    Respelled funcs position (raw ++ text ";" ++ comment) raw
  | addAddress {raw raw' : Bytes} (width : Nat)
    (hraw : isInstruction raw = true)
    (hnone : (words raw).head?.any isNumber = false)
    (h : words raw' = Numeral.zeroPadded width position :: words raw) :
    Respelled funcs position raw raw'
  | dropAddress {raw raw' number : Bytes} (hraw : isInstruction raw = true)
    (hnumber : isNumber number = true) (h : words raw = number :: words raw') :
    Respelled funcs position raw raw'
  | changeCase {raw raw' op op' : Bytes} {column operands : List Bytes}
    (hraw : endsInColon raw = false) (hcolumn : IsColumn column)
    (hop : isNumber op = false) (hcase : op.map asciiLower = op'.map asciiLower)
    (h : words raw = column ++ op :: operands)
    (h' : words raw' = column ++ op' :: operands) :
    Respelled funcs position raw raw'
  | resolveLabel {raw raw' op name : Bytes} {addr : Cell}
    {column operands : List Bytes} (hraw : endsInColon raw = false)
    (hcolumn : IsColumn column) (hop : isNumber op = false)
    (haddr : funcs.get? name = some addr)
    (h : words raw = column ++ op :: name :: operands)
    (h' : words raw' = column ++ op :: Cell.decimal addr :: operands) :
    Respelled funcs position raw raw'

/-- Changes of a listing that leave its meaning alone: a line without words
comes or goes, or a line is respelled. -/
inductive Rewrites (funcs : Symbols) : List Bytes → List Bytes → Prop
  | addBlank (before after : List Bytes) {raw : Bytes} (hraw : words raw = []) :
      Rewrites funcs (before ++ after) (before ++ raw :: after)
  | dropBlank (before after : List Bytes) {raw : Bytes}
    (hraw : words raw = []) :
    Rewrites funcs (before ++ raw :: after) (before ++ after)
  | respell (before after : List Bytes) {raw raw' : Bytes}
      (h : Respelled funcs (before.countP isInstruction) raw raw') :
      Rewrites funcs (before ++ raw :: after) (before ++ raw' :: after)

/-! ### Reading respelled lines -/

theorem content_comment (raw comment : Bytes) :
    content (raw ++ text ";" ++ comment) = content raw := by
  have hsemicolon : text ";" = [byte ';'] := rfl
  rw [content, content, Bytes.cut, Bytes.cut, hsemicolon, List.append_assoc,
    List.takeWhile_append]
  split
  next hall =>
    rw [List.singleton_append, List.takeWhile_cons_of_neg (by simp),
      List.append_nil]
    exact ((List.takeWhile_prefix _).eq_of_length hall).symm
  next => rfl

theorem reads_of_content_eq {raw raw' : Bytes} (h : content raw' = content raw)
    {l : Line} (hl : Reads raw l) : Reads raw' l := by
  intro line
  rw [← hl line, readLine, readLine, ← content, ← content, h]

/-- Whether a line ends with a colon can be seen from its last word. -/
theorem endsInColon_eq (raw : Bytes) :
    endsInColon raw =
      ((words raw).getLast?.bind List.getLast? == some (byte ':')) := by
  rw [endsInColon, Bytes.getLast?_trim, words]

theorem endsInColon_eq_of_words {raw raw' : Bytes} {back : List Bytes}
    (hback : back ≠ []) (front front' : List Bytes)
    (h : words raw = front ++ back) (h' : words raw' = front' ++ back) :
    endsInColon raw' = endsInColon raw := by
  rw [endsInColon_eq, endsInColon_eq, h, h',
    List.getLast?_append_of_ne_nil _ hback,
    List.getLast?_append_of_ne_nil _ hback]

theorem head_of_isNumber (h : isNumber s = true) :
    s.head? ≠ some (byte '.') := by
  intro hhead
  cases s with
  | nil => cases hhead
  | cons b s =>
    cases hhead
    rw [isNumber, Utf8.chars_ascii (by decide), List.all_cons, Bool.and_eq_true,
      Bool.and_eq_true] at h
    exact absurd h.2.1 (by decide)

theorem isNumber_zeroPadded (width n : Nat) :
    isNumber (Numeral.zeroPadded width n) = true := by
  rw [Numeral.zeroPadded_eq_encode, isNumber, Utf8.chars_encode,
    Bool.and_eq_true, Bool.not_eq_true', List.isEmpty_eq_false_iff, Ne,
    Utf8.encode_eq_nil]
  refine ⟨List.append_ne_nil_of_right_ne_nil _ Nat.toDigits_ne_nil,
    List.all_eq_true.mpr fun c hc => ?_⟩
  have hdigit := Numeral.isDigit_of_mem_paddedChars hc
  rw [isDigit, if_pos (Numeral.isDigit_ascii hdigit)]
  exact hdigit

variable {op : Bytes} {line addr : Nat}
  {column operands before after : List Bytes} {t' t : Symbols}

/-- The operands of a line are read apart from what stands before them. -/
theorem readFields_operands {l : Line} (hcolumn : IsColumn column)
    (hop : isNumber op = false)
    (h : readFields line (column ++ op :: operands) = .ok l) :
    ∃ F : List Bytes → Line,
      (F = Line.directive (Bytes.upper op) ∨ ∃ written,
        F = Line.instr written (Bytes.upper op)) ∧
    ∀ other operands, readFields other (column ++ op :: operands) =
      .ok (F operands) := by
  rcases hcolumn with rfl | ⟨number, rfl, hnumber⟩
  · by_cases hdot : op.head? = some (byte '.')
    · exact ⟨_, Or.inl rfl, fun other operands =>
        readFields_of_dot hdot other operands⟩
    · exact ⟨_, Or.inr ⟨none, rfl⟩, fun other operands =>
        readFields_of_word hdot hop other operands⟩
  · have hdot := head_of_isNumber hnumber
    have hread (other : Nat) (operands : List Bytes) :=
      readFields_of_number hdot hnumber other (op :: operands)
    rw [List.singleton_append, hread] at h
    cases haddr : Numeral.readDecimal 64 number with
    | error e =>
      rw [haddr] at h
      cases h
    | ok addr =>
      refine ⟨_, Or.inr ⟨some addr.toNat, rfl⟩, fun other operands => ?_⟩
      rw [List.singleton_append, hread, haddr]

theorem readFields_changeCase {op' : Bytes} (hcolumn : IsColumn column)
    (hop : isNumber op = false)
    (hcase : op.map asciiLower = op'.map asciiLower) :
    readFields line (column ++ op' :: operands) =
      readFields line (column ++ op :: operands) := by
  have hupper := Bytes.upper_of_asciiLower_eq hcase
  have hop' : isNumber op' = false := isNumber_of_asciiLower_eq hcase ▸ hop
  have hheads : op'.head?.map asciiLower = op.head?.map asciiLower := by
    rw [← List.head?_map, ← List.head?_map, hcase]
  have hdots : op'.head? = some (byte '.') ↔ op.head? = some (byte '.') :=
    eq_some_iff_of_asciiLower_eq hheads (by decide)
  rcases hcolumn with rfl | ⟨number, rfl, hnumber⟩
  · by_cases hdot : op.head? = some (byte '.')
    · rw [List.nil_append, List.nil_append, readFields_of_dot hdot,
        readFields_of_dot (hdots.mpr hdot), hupper]
    · rw [List.nil_append, List.nil_append, readFields_of_word hdot hop,
        readFields_of_word (mt hdots.mp hdot) hop', hupper]
  · have hdot := head_of_isNumber hnumber
    rw [List.singleton_append, List.singleton_append,
      readFields_of_number hdot hnumber, readFields_of_number hdot hnumber]
    cases Numeral.readDecimal 64 number with
    | error e => rfl
    | ok addr => simp only [hupper]

/-- One line does for another where that one turns `q` into `q'`. -/
structure StandsIn (labels : Symbols) (q q' : Program) (l l' : Line) :
    Prop where
  isInstr : l'.isInstr = l.isInstr
  label : ∀ name, l' = .label name ↔ l = .label name
  adds : ∀ line, addLine labels q line l' = .ok q'

theorem addLine_instr_iff {labels : Symbols} {q q' : Program}
    {written : Option Nat} {mnemonic : Bytes} :
    addLine labels q line (.instr written mnemonic operands) = .ok q' ↔
      ∃ i, instruction labels line q.code.size written mnemonic operands =
        .ok i ∧
      q' = { q with code := q.code.push i } := by
  rw [addLine]
  cases instruction labels line q.code.size written mnemonic operands with
  | error e => simp
  | ok i => simp [eq_comm]

/-- The address of an instruction can be left out or written in front. -/
theorem standsIn_address {labels : Symbols} {q q' : Program}
    {written : Option Nat} {mnemonic : Bytes} (written' : Option Nat)
    (hwritten : ∀ addr ∈ written', addr = q.code.size)
    (h : ∀ line,
      addLine labels q line (.instr written mnemonic operands) = .ok q') :
    StandsIn labels q q' (.instr written mnemonic operands)
      (.instr written' mnemonic operands) where
  isInstr := rfl
  label := by simp
  adds line := by
    obtain ⟨i, hi, hq'⟩ := addLine_instr_iff.mp (h line)
    obtain ⟨-, hop, hoperand⟩ := instruction_eq_ok_iff.mp hi
    exact addLine_instr_iff.mpr
      ⟨i, instruction_eq_ok_iff.mpr ⟨hwritten, hop, hoperand⟩, hq'⟩

/-- The address of a label can be written in its place. -/
theorem standsIn_resolved {labels : Symbols} {q q' : Program}
    {F : List Bytes → Line} {name : Bytes} {addr : Cell}
    (hF : F = Line.directive op ∨ ∃ written, F = Line.instr written op)
    (hname : isIdentifier name = true) (haddr : labels.get? name = some addr)
    (h : ∀ line, addLine labels q line (F (name :: operands)) = .ok q') :
    StandsIn labels q q' (F (name :: operands))
      (F (Cell.decimal addr :: operands)) := by
  obtain ⟨e, hnot⟩ := readInt_of_isIdentifier hname
  -- The label has the value that its address has as a numeral.
  have hvalue (line : Nat) : operandValue labels line name = .ok addr :=
    operandValue_eq_ok_iff.mpr (Or.inr ⟨⟨e, hnot⟩, haddr⟩)
  have hdecimal (line : Nat) :
      operandValue labels line (Cell.decimal addr) = .ok addr := by
    refine operandValue_eq_ok_iff.mpr
      (Or.inl ⟨addr.toInt, Numeral.readInt_decimal addr, ?_⟩)
    rw [Int64.ofInt_toInt]
  rcases hF with rfl | ⟨written, rfl⟩
  · refine ⟨rfl, by simp, fun line => ?_⟩
    rcases addLine_cases (h line) with
        ⟨hl, -⟩ | ⟨label, hl, -⟩ | ⟨field, entry, hl, hentry, hq'⟩
        | ⟨fields, vs, hl, hvs, -⟩ | ⟨written, mnemonic, operands, i, hl, -⟩
    · cases hl
    · cases hl
    · cases hl
      rw [hvalue line] at hentry
      cases hentry
      simp only [addLine, beq_self_eq_true, if_true, hdecimal line, hq']
    · cases hl
      rw [dataValues, hnot] at hvs
      cases hvs
    · cases hl
  · refine ⟨rfl, by simp, fun line => ?_⟩
    obtain ⟨i, hi, hq'⟩ := addLine_instr_iff.mp (h line)
    obtain ⟨hwritten, hop, hoperand⟩ := instruction_eq_ok_iff.mp hi
    refine addLine_instr_iff.mpr
      ⟨i, instruction_eq_ok_iff.mpr ⟨hwritten, hop, Or.inl ?_⟩, hq'⟩
    rcases hoperand with ⟨hhas, field, hfield, hoperand⟩ | ⟨-, hnil, -⟩
    · cases hfield
      rw [hvalue line] at hoperand
      exact ⟨hhas, Cell.decimal addr, rfl, (hdecimal line).trans hoperand⟩
    · cases hnil

theorem isInstruction_cases {raw : Bytes} (h : isInstruction raw = true) :
    endsInColon raw = false ∧
      ∃ w ws, words raw = w :: ws ∧ w.head? ≠ some (byte '.') := by
  rw [isInstruction, Bool.and_eq_true, Bool.not_eq_true'] at h
  refine ⟨h.1, ?_⟩
  cases hwords : words raw with
  | nil =>
    rw [hwords] at h
    cases h.2
  | cons w ws =>
    rw [hwords, List.head?_cons, Option.any_some, bne_iff_ne] at h
    exact ⟨w, ws, rfl, h.2⟩

section Respelled

variable {labels : Symbols} {q q' : Program} {raw raw' : Bytes} {l : Line}

theorem reads_addAddress (hraw : isInstruction raw = true)
    (hnone : (words raw).head?.any isNumber = false) {width : Nat}
    (h : words raw' = Numeral.zeroPadded width q.code.size :: words raw)
    (hsize : q.code.size < 2 ^ 63) (hl : Reads raw l)
    (hadds : ∀ line, addLine labels q line l = .ok q') :
    ∃ l', Reads raw' l' ∧ StandsIn labels q q' l l' := by
  obtain ⟨hcolon, w, ws, hwords, hdot⟩ := isInstruction_cases hraw
  have hw : isNumber w = false := by rwa [hwords] at hnone
  have hl' := (reads_of_fields hcolon).mp hl 0
  rw [hwords, readFields_of_word hdot hw] at hl'
  cases hl'
  refine ⟨_, ?_, standsIn_address (some q.code.size) (by simp) hadds⟩
  have hcolon' : endsInColon raw' = false := by
    rw [← hcolon]
    refine endsInColon_eq_of_words (List.cons_ne_nil w ws) []
      [Numeral.zeroPadded width q.code.size] hwords ?_
    rw [h, hwords]
    rfl
  rw [reads_of_fields hcolon']
  intro line
  have hnumber := isNumber_zeroPadded width q.code.size
  rw [h, hwords, readFields_of_number (head_of_isNumber hnumber) hnumber,
    Numeral.readDecimal_zeroPadded (by omega)]
  rfl

theorem reads_dropAddress {number : Bytes} (hraw : isInstruction raw = true)
    (hnumber : isNumber number = true) (h : words raw = number :: words raw')
    (hl : Reads raw l) (hadds : ∀ line, addLine labels q line l = .ok q') :
    ∃ l', Reads raw' l' ∧ StandsIn labels q q' l l' := by
  obtain ⟨hcolon, -⟩ := isInstruction_cases hraw
  have hl' := (reads_of_fields hcolon).mp hl 0
  rw [h, readFields_of_number (head_of_isNumber hnumber) hnumber] at hl'
  cases hread : Numeral.readDecimal 64 number with
  | error e =>
    rw [hread] at hl'
    cases hl'
  | ok addr =>
    rw [hread] at hl'
    cases hwords : words raw' with
    | nil =>
      rw [hwords] at hl'
      cases hl'
    | cons w ws =>
      rw [hwords] at hl'
      cases hl'
      -- What is accepted behind the address names an opcode, so it is no
      -- address and no directive itself.
      obtain ⟨i, hi, -⟩ := addLine_instr_iff.mp (hadds 0)
      obtain ⟨hw, hdot⟩ := word_of_ofMnemonic? (instruction_eq_ok_iff.mp hi).2.1
      refine ⟨_, ?_, standsIn_address none (by simp) hadds⟩
      have hcolon' : endsInColon raw' = false := by
        rw [← hcolon]
        refine endsInColon_eq_of_words (List.cons_ne_nil w ws) [number]
          [] ?_ hwords
        rw [h, hwords]
        rfl
      rw [reads_of_fields hcolon', hwords]
      exact fun line => readFields_of_word hdot hw line ws

theorem reads_changeCase {op' : Bytes} (hraw : endsInColon raw = false)
    (hcolumn : IsColumn column) (hop : isNumber op = false)
    (hcase : op.map asciiLower = op'.map asciiLower)
    (h : words raw = column ++ op :: operands)
    (h' : words raw' = column ++ op' :: operands) (hl : Reads raw l) :
    Reads raw' l := by
  have hraw' : endsInColon raw' = false := by
    cases operands with
    | nil =>
      have hlasts :
          op'.getLast?.map asciiLower = op.getLast?.map asciiLower := by
        rw [← List.getLast?_map, ← List.getLast?_map, hcase]
      have hcolons :=
        eq_some_iff_of_asciiLower_eq (a := byte ':') hlasts (by decide)
      rw [endsInColon_eq, h, List.getLast?_concat, Option.bind_some,
        beq_eq_false_iff_ne] at hraw
      rw [endsInColon_eq, h', List.getLast?_concat, Option.bind_some,
        beq_eq_false_iff_ne]
      exact mt hcolons.mp hraw
    | cons w ws =>
      rw [← hraw]
      refine endsInColon_eq_of_words (List.cons_ne_nil w ws) (column ++ [op])
        (column ++ [op']) ?_ ?_
      · rw [h, List.append_assoc, List.singleton_append]
      · rw [h', List.append_assoc, List.singleton_append]
  rw [reads_of_fields hraw, h] at hl
  rw [reads_of_fields hraw', h']
  intro line
  rw [readFields_changeCase hcolumn hop hcase, hl line]

theorem reads_resolveLabel {name : Bytes} {addr : Cell}
    (hraw : endsInColon raw = false) (hcolumn : IsColumn column)
    (hop : isNumber op = false) (hname : isIdentifier name = true)
    (haddr : labels.get? name = some addr)
    (h : words raw = column ++ op :: name :: operands)
    (h' : words raw' = column ++ op :: Cell.decimal addr :: operands)
    (hl : Reads raw l) (hadds : ∀ line, addLine labels q line l = .ok q') :
    ∃ l', Reads raw' l' ∧ StandsIn labels q q' l l' := by
  have hraw' : endsInColon raw' = false := by
    cases operands with
    | nil =>
      rw [endsInColon_eq, h', List.append_cons, List.getLast?_concat,
        Option.bind_some, beq_eq_false_iff_ne]
      intro hlast
      have hmem := List.mem_of_getLast? hlast
      rw [Cell.decimal, Numeral.decimal_eq_encode,
        Utf8.byte_mem_encode (by decide)] at hmem
      exact absurd ((Numeral.isPlainWord_decimalChars _).2 _ hmem) (by decide)
    | cons w ws =>
      rw [← hraw]
      refine endsInColon_eq_of_words (List.cons_ne_nil w ws)
        (column ++ [op, name]) (column ++ [op, Cell.decimal addr]) ?_ ?_
      · rw [h, List.append_assoc]
        rfl
      · rw [h', List.append_assoc]
        rfl
  have hfields := (reads_of_fields hraw).mp hl 0
  rw [h] at hfields
  obtain ⟨F, hF, hreads⟩ := readFields_operands hcolumn hop hfields
  rw [hreads] at hfields
  cases hfields
  refine ⟨F (Cell.decimal addr :: operands), ?_,
    standsIn_resolved hF hname haddr hadds⟩
  rw [reads_of_fields hraw', h']
  exact fun line => hreads line _

/-- A respelled line stands in for the line as it was. -/
theorem Respelled.reads (h : Respelled labels q.code.size raw raw')
    (hnames : ∀ name addr, labels.get? name = some addr →
      isIdentifier name = true)
    (hsize : q.code.size < 2 ^ 63) (hl : Reads raw l)
    (hadds : ∀ line, addLine labels q line l = .ok q') :
    ∃ l', Reads raw' l' ∧ StandsIn labels q q' l l' := by
  have hsame : StandsIn labels q q' l l := ⟨rfl, fun _ => Iff.rfl, hadds⟩
  cases h with
  | addComment _ comment =>
    exact ⟨l, reads_of_content_eq (content_comment raw comment) hl, hsame⟩
  | dropComment _ comment =>
    exact ⟨l, reads_of_content_eq (content_comment raw' comment).symm hl, hsame⟩
  | addAddress width hraw hnone h =>
    exact reads_addAddress hraw hnone h hsize hl hadds
  | dropAddress hraw hnumber h =>
    exact reads_dropAddress hraw hnumber h hl hadds
  | changeCase hraw hcolumn hop hcase h h' =>
    exact ⟨l, reads_changeCase hraw hcolumn hop hcase h h' hl, hsame⟩
  | resolveLabel hraw hcolumn hop haddr h h' =>
    exact reads_resolveLabel hraw hcolumn hop (hnames _ _ haddr) haddr h
      h' hl hadds

end Respelled

/-! ### Assembling rewritten listings -/

/-- Lines can be exchanged for others that collect the same labels. -/
theorem Collects.exchange {back back' : List Line}
    (hback : ∀ addr t, Collects addr t back t' → Collects addr t back' t')
    (before : List Line) (h : Collects addr t (before ++ back) t') :
    Collects addr t (before ++ back') t' := by
  induction before generalizing addr t with
  | nil => exact hback addr t h
  | cons l before ih =>
    cases h with
    | label hnew rest => exact .label hnew (ih rest)
    | other hl rest => exact .other hl (ih rest)

theorem collects_blank_iff {ls : List Line} :
    Collects addr t (.blank :: ls) t' ↔ Collects addr t ls t' :=
  collects_other_iff (by simp)

theorem StandsIn.collects {labels : Symbols} {q q' : Program} {l l' : Line}
    (h : StandsIn labels q q' l l') {ls : List Line}
    (hl : Collects addr t (l :: ls) t') : Collects addr t (l' :: ls) t' := by
  cases hl with
  | label hnew rest =>
    rw [(h.label _).mpr rfl]
    exact .label hnew rest
  | other hl rest =>
    refine .other (fun name hname => hl name ((h.label name).mp hname)) ?_
    rwa [h.isInstr]

theorem adds_append_iff {labels : Symbols} {q q' : Program}
    {ls ls' : List Line} :
    Adds labels q (ls ++ ls') q' ↔
      ∃ mid, Adds labels q ls mid ∧ Adds labels mid ls' q' := by
  induction ls generalizing q with
  | nil =>
    constructor
    · exact fun h => ⟨q, .nil q, h⟩
    · rintro ⟨mid, hnil, h⟩
      cases hnil
      exact h
  | cons l ls ih =>
    constructor
    · intro h
      cases h with
      | cons first rest =>
        obtain ⟨mid, hls, hls'⟩ := ih.mp rest
        exact ⟨mid, .cons first hls, hls'⟩
    · rintro ⟨mid, h, hls'⟩
      cases h with
      | cons first rest => exact .cons first (ih.mpr ⟨mid, rest, hls'⟩)

theorem reads_blank {raw : Bytes} (h : words raw = []) : Reads raw .blank := by
  have hcolon : endsInColon raw = false := by
    rw [endsInColon_eq, h]
    rfl
  rw [reads_of_fields hcolon, h]
  exact fun _ => rfl

variable {raws raws' : List Bytes} {ls : List Line} {p : Program}

theorem Assembled.addBlank {raw : Bytes} (h : Assembled (before ++ after) ls p)
    (hraw : words raw = []) :
    ∃ ls', Assembled (before ++ raw :: after) ls' p := by
  obtain ⟨lb, la, rfl, hbefore, hafter⟩ := reads_append_left h.reads
  refine ⟨lb ++ .blank :: la,
    ⟨List.rel_append hbefore (.cons (reads_blank hraw) hafter), ?_, ?_,
      h.jumps, h.entry⟩⟩
  · exact h.labels.exchange (fun _ _ => collects_blank_iff.mpr) lb
  · obtain ⟨mid, hfront, hback⟩ := adds_append_iff.mp h.adds
    exact adds_append_iff.mpr ⟨mid, hfront, .cons (fun _ => rfl) hback⟩

theorem Assembled.dropBlank {raw : Bytes}
    (h : Assembled (before ++ raw :: after) ls p) (hraw : words raw = []) :
    ∃ ls', Assembled (before ++ after) ls' p := by
  obtain ⟨lb, l, la, rfl, hbefore, hl, hafter⟩ := reads_split_left h.reads
  have hblank : l = .blank :=
    Except.ok.inj ((hl 0).symm.trans (reads_blank hraw 0))
  subst hblank
  refine ⟨lb ++ la, ⟨List.rel_append hbefore hafter, ?_, ?_, h.jumps, h.entry⟩⟩
  · exact h.labels.exchange (fun _ _ => collects_blank_iff.mp) lb
  · obtain ⟨mid, hfront, hback⟩ := adds_append_iff.mp h.adds
    cases hback with
    | cons first rest =>
      cases first 0
      exact adds_append_iff.mpr ⟨mid, hfront, rest⟩

theorem Assembled.respell {raw raw' : Bytes}
    (h : Assembled (before ++ raw :: after) ls p) (hsize : p.code.size < 2 ^ 63)
    (hraw : Respelled p.funcs (before.countP isInstruction) raw raw') :
    ∃ ls', Assembled (before ++ raw' :: after) ls' p := by
  obtain ⟨lb, l, la, rfl, hbefore, hl, hafter⟩ := reads_split_left h.reads
  obtain ⟨mid, hfront, hback⟩ := adds_append_iff.mp h.adds
  cases hback with
  | cons first rest =>
    have hposition : mid.code.size = before.countP isInstruction := by
      rw [hfront.size, countP_isInstr hbefore]
      exact Nat.zero_add _
    have hle : mid.code.size ≤ p.code.size := by
      rw [hposition, h.size, List.countP_append]
      exact Nat.le_add_right _ _
    rw [← hposition] at hraw
    obtain ⟨l', hl', hstands⟩ :=
      hraw.reads (fun _ _ => h.isIdentifier) (Nat.lt_of_le_of_lt hle hsize)
        hl first
    refine ⟨lb ++ l' :: la,
      ⟨List.rel_append hbefore (.cons hl' hafter), ?_, ?_, h.jumps, h.entry⟩⟩
    · exact h.labels.exchange (fun _ _ => hstands.collects) lb
    · exact adds_append_iff.mpr ⟨mid, hfront, .cons hstands.adds rest⟩

/-- A rewritten listing is assembled into the same program. -/
theorem Assembled.rewrite (h : Assembled raws ls p)
    (hsize : p.code.size < 2 ^ 63) (hstep : Rewrites p.funcs raws raws') :
    ∃ ls', Assembled raws' ls' p := by
  cases hstep with
  | addBlank before after hraw => exact h.addBlank hraw
  | dropBlank before after hraw => exact h.dropBlank hraw
  | respell before after hraw => exact h.respell hsize hraw

theorem Assembled.rewrites (h : Assembled raws ls p)
    (hsize : p.code.size < 2 ^ 63)
    (hsteps : Relation.ReflTransGen (Rewrites p.funcs) raws raws') :
    ∃ ls', Assembled raws' ls' p := by
  induction hsteps with
  | refl => exact ⟨ls, h⟩
  | tail _ hstep ih =>
    obtain ⟨mid, hmid⟩ := ih
    exact hmid.rewrite hsize hstep

end Assembler

/-- The address of a label is the number of instructions before it, and any
respelling of a listing is assembled into the same program. -/
theorem Program.spelling_of_listing_is_irrelevant {listing : Bytes}
    {p : Program} (h : ofListing listing = .ok p)
    (hsize : p.code.size < 2 ^ 63) :
    (∀ name addr, p.funcs.get? name = some addr ↔
      ∃ before raw after, Bytes.lines listing = before ++ raw :: after ∧
        Assembler.labelOf? raw = some name ∧
        addr.toInt = before.countP Assembler.isInstruction) ∧
    ∀ listing', Relation.ReflTransGen (Assembler.Rewrites p.funcs)
      (Bytes.lines listing) (Bytes.lines listing') →
    ofListing listing' = .ok p := by
  obtain ⟨ls, hassembled⟩ := ofListing_eq_ok_iff.mp h
  constructor
  · intro name addr
    rw [hassembled.get?_eq_some_iff]
    -- The number of instructions before a line fits in a cell.
    have hcell {before after : List Bytes} {raw : Bytes}
        (hlines : Bytes.lines listing = before ++ raw :: after) :
        addr = Int64.ofNat (before.countP Assembler.isInstruction) ↔
        addr.toInt = before.countP Assembler.isInstruction := by
      have hle : before.countP Assembler.isInstruction ≤ p.code.size := by
        rw [hassembled.size, hlines, List.countP_append]
        exact Nat.le_add_right _ _
      rw [← Int64.toInt_inj, Int64.toInt_ofNat_of_lt (by omega)]
    constructor
    · rintro ⟨before, raw, after, hlines, hlabel, haddr⟩
      exact ⟨before, raw, after, hlines, hlabel, (hcell hlines).mp haddr⟩
    · rintro ⟨before, raw, after, hlines, hlabel, haddr⟩
      exact ⟨before, raw, after, hlines, hlabel, (hcell hlines).mpr haddr⟩
  · intro listing' hsteps
    exact ofListing_eq_ok_iff.mpr (hassembled.rewrites hsize hsteps)

/-- A program that runs in a circle. -/
def Program.circle : Program where
  code := #[{ op := .push, operand := 1 }, { op := .jump, operand := 0 }]
  funcs := ({} : Symbols).insert (text "main") 0

theorem Program.spelling_of_listing_is_irrelevant_circle :
    ofListing (text ".entry main\nmain:\n push 1\n0001 JMP main") = .ok circle ∧
      circle.funcs.get? (text "main") = some 0 ∧
      ofListing (text ".ENTRY 0; start\nmain:\n\n00 push 1\nJMP main") =
        .ok circle := by
  have h : ofListing (text ".entry main\nmain:\n push 1\n0001 JMP main") =
      .ok circle := by decide +kernel
  obtain ⟨hlabels, hspelling⟩ := spelling_of_listing_is_irrelevant h (by decide)
  have hlines :
      Bytes.lines (text ".entry main\nmain:\n push 1\n0001 JMP main") =
      [text ".entry main", text "main:", text " push 1",
      text "0001 JMP main"] := by decide +kernel
  have hlines' :
      Bytes.lines (text ".ENTRY 0; start\nmain:\n\n00 push 1\nJMP main") =
      [text ".ENTRY 0" ++ text ";" ++ text " start", text "main:", [],
      text "00 push 1", text "JMP main"] := by
    decide +kernel
  refine ⟨h, ?_, hspelling _ ?_⟩
  · refine (hlabels _ _).mpr ⟨[text ".entry main"], text "main:", _,
      hlines, ?_, ?_⟩
    · decide +kernel
    · decide +kernel
  · have hresolve :
      Assembler.Respelled circle.funcs (List.countP Assembler.isInstruction [])
        (text ".entry main") (text ".entry 0") :=
      .resolveLabel (by decide +kernel) (.inl rfl) (by decide +kernel)
        (show circle.funcs.get? (text "main") = some 0 by decide +kernel)
        (show Assembler.words (text ".entry main") = [] ++ text ".entry" ::
          text "main" :: [] by decide +kernel)
        (by decide +kernel)
    have hcase :
      Assembler.Respelled circle.funcs (List.countP Assembler.isInstruction [])
        (text ".entry 0") (text ".ENTRY 0") :=
      .changeCase (by decide +kernel) (.inl rfl) (by decide +kernel)
        (show (text ".entry").map asciiLower =
          (text ".ENTRY").map asciiLower by decide +kernel)
        (show Assembler.words (text ".entry 0") = [] ++ text ".entry" ::
          [text "0"] by decide +kernel)
        (by decide +kernel)
    have hcomment :
        Assembler.Respelled circle.funcs
        (List.countP Assembler.isInstruction []) (text ".ENTRY 0")
        (text ".ENTRY 0" ++ text ";" ++ text " start") :=
      .addComment _ (text " start")
    have hadd :
        Assembler.Respelled circle.funcs
        (List.countP Assembler.isInstruction
        [text ".ENTRY 0" ++ text ";" ++ text " start", text "main:", []])
        (text " push 1") (text "00 push 1") :=
      .addAddress 2 (by decide +kernel) (by decide +kernel) (by decide +kernel)
    have hdrop :
        Assembler.Respelled circle.funcs
        (List.countP Assembler.isInstruction
        [text ".ENTRY 0" ++ text ";" ++ text " start", text "main:", [],
        text "00 push 1"]) (text "0001 JMP main") (text "JMP main") :=
      .dropAddress (by decide +kernel) (show Assembler.isNumber (text "0001") =
        true by decide +kernel) (by decide +kernel)
    rw [hlines, hlines']
    refine .head
      (.respell [] [text "main:", text " push 1", text "0001 JMP main"]
        hresolve) ?_
    refine .head
      (.respell [] [text "main:", text " push 1", text "0001 JMP main"] hcase)
      ?_
    refine .head
      (.respell [] [text "main:", text " push 1", text "0001 JMP main"]
        hcomment) ?_
    refine .head
      (.addBlank [text ".ENTRY 0" ++ text ";" ++ text " start", text "main:"]
        [text " push 1", text "0001 JMP main"]
        (show Assembler.words [] = [] by decide +kernel)) ?_
    refine .head
      (.respell [text ".ENTRY 0" ++ text ";" ++ text " start", text "main:", []]
        [text "0001 JMP main"] hadd) ?_
    exact .single
      (.respell [text ".ENTRY 0" ++ text ";" ++ text " start", text "main:", [],
        text "00 push 1"] [] hdrop)

end StackC
