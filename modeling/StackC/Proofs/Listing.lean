import StackC.Proofs.Numerals
import StackC.Proofs.Placed

/-!
Listings read back. The listing of a program has one line for the entry, at most
one for the data, and for each instruction its labels and a line of its own.
Assembling it gives the program back if every instruction can be written (its
opcode is defined, and its operand is 0 if it takes none), jumps and the entry
go to instructions, and the names of functions can be labels and stand at
instructions.
-/

namespace StackC

/-! ### Tables of names -/

variable {name : Name} {addr : Nat}

namespace Symbols

theorem nodup_names (t : Symbols) : (t.entries.map (·.1)).Nodup := by
  rw [List.Nodup, List.pairwise_map]
  refine t.ordered.imp fun {a b} hbefore heq => ?_
  rw [heq, Bytes.before_irrefl] at hbefore
  exact Bool.false_ne_true hbefore

variable {t : Symbols}

theorem get?_eq_some_iff {addr : Cell} :
    t.get? name = some addr ↔ (name, addr) ∈ t.entries := by
  rw [get?, Option.map_eq_some_iff]
  constructor
  · rintro ⟨e, hfind, rfl⟩
    have hname : e.1 = name := by simpa using List.find?_some hfind
    exact hname ▸ List.mem_of_find?_eq_some hfind
  · intro hmem
    exact ⟨(name, addr), find?_of_mem _ t.nodup_names hmem, rfl⟩

/-- Tables with the same addresses are equal. -/
theorem ext_get? {t' : Symbols}
    (h : ∀ name addr, t.get? name = some addr ↔ t'.get? name = some addr) :
    t = t' := by
  have hmem : ∀ e, e ∈ t.entries ↔ e ∈ t'.entries := by
    intro e
    rw [← get?_eq_some_iff, ← get?_eq_some_iff]
    exact h e.1 e.2
  have hperm : t.entries.Perm t'.entries :=
    (List.perm_ext_iff_of_nodup t.nodup_names.of_map t'.nodup_names.of_map).mpr
      hmem
  have heq : t.entries = t'.entries := by
    refine hperm.eq_of_pairwise (fun a b _ _ hab hba => ?_) t.ordered t'.ordered
    have := Bytes.before_trans hab hba
    rw [Bytes.before_irrefl] at this
    cases this
  cases t
  cases t'
  cases heq
  rfl

theorem mem_namesAt {addr : Cell} :
    name ∈ t.namesAt addr ↔ t.get? name = some addr := by
  rw [get?_eq_some_iff, namesAt, List.mem_map]
  constructor
  · rintro ⟨e, he, rfl⟩
    obtain ⟨hmem, haddr⟩ := List.mem_filter.mp he
    have : e.2 = addr := by simpa using haddr
    exact this ▸ hmem
  · intro hmem
    exact ⟨(name, addr), List.mem_filter.mpr ⟨hmem, by simp⟩, rfl⟩

theorem nodup_namesAt (t : Symbols) (addr : Cell) : (t.namesAt addr).Nodup :=
  t.nodup_names.sublist (List.filter_sublist.map _)

def insertAll (t : Symbols) (names : List Name) (addr : Cell) : Symbols :=
  names.foldl (fun t name => t.insert name addr) t

theorem get?_insertAll (t : Symbols) (names : List Name) (addr : Cell)
    (name : Name) :
    (t.insertAll names addr).get? name = if name ∈ names then some addr
      else t.get? name := by
  induction names generalizing t with
  | nil => simp [insertAll]
  | cons first names ih =>
    rw [insertAll, List.foldl_cons, ← insertAll, ih, get?_insert]
    by_cases hmem : name ∈ names
    · simp [hmem]
    · by_cases hfirst : name = first
      · simp [hfirst]
      · simp [hmem, hfirst]

end Symbols

/-! ### Characters of names -/

theorem inRanges_of_disjoint {rs ss : List (Nat × Nat)}
    (h : (rs.all fun r => ss.all fun s => r.2 < s.1 || s.2 < r.1) = true)
    {n : Nat} (hn : inRanges rs n = true) : inRanges ss n = false := by
  obtain ⟨r, hr, hin⟩ := List.any_eq_true.mp hn
  apply List.any_eq_false.mpr
  intro s hs
  have hapart := List.all_eq_true.mp (List.all_eq_true.mp h r hr) s hs
  simp only [Bool.or_eq_true, Bool.and_eq_true, decide_eq_true_eq]
    at hapart hin ⊢
  omega

theorem toNat_of_isAlpha {c : Char} (h : c.isAlpha = true) :
    0x41 ≤ c.toNat ∧ c.toNat < 0x80 := by
  simp only [Char.isAlpha, Char.isUpper, Char.isLower, Bool.or_eq_true,
    Bool.and_eq_true, decide_eq_true_eq, ge_iff_le, UInt32.le_iff_toNat_le] at h
  rcases h with ⟨hlow, hhigh⟩ | ⟨hlow, hhigh⟩
  · exact ⟨hlow, Nat.lt_of_le_of_lt hhigh (by decide)⟩
  · exact ⟨Nat.le_trans (by decide) hlow, Nat.lt_of_le_of_lt hhigh (by decide)⟩

theorem isBlank_of_isLetter {c : Char} (h : isLetter c = true) :
    isBlank c = false := by
  rw [isLetter] at h
  rw [isBlank]
  split at h
  next hascii =>
    have hrange := (toNat_of_isAlpha h).1
    rw [if_pos hascii]
    simp
    omega
  next hascii =>
    rw [if_neg hascii]
    exact inRanges_of_disjoint (by decide +kernel) h

theorem isBlank_of_isDigit {c : Char} (h : isDigit c = true) :
    isBlank c = false := by
  rw [isDigit] at h
  rw [isBlank]
  split at h
  next hascii =>
    have hrange : 0x30 ≤ c.toNat := by
      simp only [Char.isDigit, Bool.and_eq_true, decide_eq_true_eq, ge_iff_le,
        UInt32.le_iff_toNat_le] at h
      exact h.1
    rw [if_pos hascii]
    simp
    omega
  next hascii =>
    rw [if_neg hascii]
    exact inRanges_of_disjoint (by decide +kernel) h

namespace Assembler

/-- A text that can be a label. -/
def IsLabel (name : Name) : Prop :=
  ∃ c cs, name = Utf8.encode (c :: cs) ∧ startsName c = true ∧
    ∀ d ∈ cs, continuesName d = true

variable {c : Char} {w : List Char} {ws : List (Nat × List Char)} {s : Bytes}

theorem continuesName_of_startsName (h : startsName c = true) :
    continuesName c = true := by
  simp only [startsName, continuesName, Bool.or_eq_true] at h ⊢
  rcases h with h | h
  · exact .inl (.inl h)
  · exact .inr h

theorem isBlank_of_continuesName (h : continuesName c = true) :
    isBlank c = false := by
  simp only [continuesName, Bool.or_eq_true, beq_iff_eq] at h
  rcases h with (h | h) | rfl
  · exact isBlank_of_isLetter h
  · exact isBlank_of_isDigit h
  · rfl

theorem IsLabel.isIdentifier {name : Name} (h : IsLabel name) :
    isIdentifier name = true := by
  obtain ⟨c, cs, rfl, hc, hcs⟩ := h
  rw [Assembler.isIdentifier, Utf8.chars_encode]
  exact Bool.and_eq_true_iff.mpr ⟨hc, List.all_eq_true.mpr hcs⟩

theorem IsLabel.exists_chars (h : IsLabel name) :
    ∃ cs, name = Utf8.encode cs ∧ cs ≠ [] ∧
      ∀ c ∈ cs, continuesName c = true := by
  obtain ⟨c, cs, rfl, hc, hcs⟩ := h
  refine ⟨c :: cs, rfl, List.cons_ne_nil c cs, ?_⟩
  intro d hd
  rcases List.mem_cons.mp hd with rfl | hd
  · exact continuesName_of_startsName hc
  · exact hcs d hd

/-! ### Single lines -/

/-- A printed character that neither ends a label nor starts a comment. -/
def isPlain (c : Char) : Bool :=
  0x20 < c.toNat && c.toNat < 0x7f && c != ';' && c != ':'

def IsPlainWord (w : List Char) : Prop :=
  w ≠ [] ∧ ∀ c ∈ w, isPlain c = true

theorem IsPlainWord.isWord (h : IsPlainWord w) : Bytes.IsWord w := by
  refine ⟨h.1, fun c hc => ?_⟩
  have hplain := h.2 c hc
  simp only [isPlain, Bool.and_eq_true, decide_eq_true_eq] at hplain
  rw [isBlank, if_pos (by omega)]
  simp
  omega

theorem isPlain_of_isDigit (h : c.isDigit = true) : isPlain c = true := by
  have hrange : 0x30 ≤ c.toNat ∧ c.toNat ≤ 0x39 := by
    simp only [Char.isDigit, Bool.and_eq_true, decide_eq_true_eq, ge_iff_le,
      UInt32.le_iff_toNat_le] at h
    exact h
  have hne {d : Char} (hd : 0x39 < d.toNat) : (c != d) = true := by
    apply bne_iff_ne.mpr
    rintro rfl
    omega
  simp only [isPlain, hne (show 0x39 < ';'.toNat by decide),
    hne (show 0x39 < ':'.toNat by decide),
    Bool.and_true, Bool.and_eq_true, decide_eq_true_eq]
  omega

/-- A text of plain words is one line, has no comment, no blanks at its ends and
no label, and divides into its words. -/
theorem spaced_spec (hw : IsPlainWord w) (hws : ∀ e ∈ ws, IsPlainWord e.2)
    (hs : s = Utf8.encode (Bytes.spaced w ws)) :
    Bytes.trim (Bytes.cut (byte ';') s).1 = s ∧ s.isEmpty = false ∧
      ¬ (s.getLast? == some (byte ':')) = true ∧
      Bytes.fields s = Utf8.encode w :: ws.map (Utf8.encode ·.2) ∧
      byte '\n' ∉ s := by
  subst hs
  have hwords : ∀ e ∈ ws, Bytes.IsWord e.2 := fun e he => (hws e he).isWord
  have hnot {d : Char} (hd : isPlain d = false) (hspace : d ≠ ' ') :
      d ∉ Bytes.spaced w ws := by
    intro hmem
    have hplain : isPlain d = true := by
      rcases Bytes.mem_spaced hmem with h | h | ⟨e, he, h⟩
      · exact hw.2 d h
      · exact absurd h hspace
      · exact (hws e he).2 d h
    exact Bool.false_ne_true (hd.symm.trans hplain)
  have hcomment : byte ';' ∉ Utf8.encode (Bytes.spaced w ws) :=
    mt (Utf8.byte_mem_encode (by decide)).mp (hnot (by decide) (by decide))
  have hcolon : byte ':' ∉ Utf8.encode (Bytes.spaced w ws) :=
    mt (Utf8.byte_mem_encode (by decide)).mp (hnot (by decide) (by decide))
  have hnewline : byte '\n' ∉ Utf8.encode (Bytes.spaced w ws) :=
    mt (Utf8.byte_mem_encode (by decide)).mp (hnot (by decide) (by decide))
  have hne : (Utf8.encode (Bytes.spaced w ws)).isEmpty = false := by
    rw [List.isEmpty_eq_false_iff, Ne, Utf8.encode_eq_nil]
    exact Bytes.spaced_ne_nil hw.isWord ws
  have hlast :
      ¬ ((Utf8.encode (Bytes.spaced w ws)).getLast? == some (byte ':')) =
      true := by
    intro h
    exact hcolon (List.mem_of_getLast? (eq_of_beq h))
  refine ⟨?_, hne, hlast, Bytes.fields_spaced hw.isWord hwords, hnewline⟩
  rw [Bytes.cut_of_not_mem hcomment, Bytes.trim_spaced hw.isWord hwords]

/-- A line with a directive. -/
theorem readLine_directive (hw : IsPlainWord ('.' :: w))
    (hws : ∀ e ∈ ws, IsPlainWord e.2) (line : Nat) :
    readLine line (Utf8.encode (Bytes.spaced ('.' :: w) ws)) =
      .ok (.directive (Bytes.upper (Utf8.encode ('.' :: w)))
        (ws.map (Utf8.encode ·.2))) := by
  obtain ⟨htrim, hne, hlast, hfields, -⟩ := spaced_spec hw hws rfl
  simp only [readLine, readFields, htrim, hne, if_neg hlast, hfields,
    Bool.false_eq_true, if_false]
  exact if_pos rfl

theorem isPlainWord_paddedChars (addr : Nat) :
    IsPlainWord (Numeral.paddedChars 4 addr) :=
  ⟨List.append_ne_nil_of_right_ne_nil _ Nat.toDigits_ne_nil,
    fun _ hc => isPlain_of_isDigit (Numeral.isDigit_of_mem_paddedChars hc)⟩

/-- A line with an address and an instruction. -/
theorem readLine_instr (haddr : addr < 9223372036854775808) {gap : Nat}
    (hw : IsPlainWord w) (hws : ∀ e ∈ ws, IsPlainWord e.2) (line : Nat) :
    readLine line
      (Utf8.encode
        (Bytes.spaced (Numeral.paddedChars 4 addr) ((gap, w) :: ws))) =
        .ok (.instr (some addr) (Bytes.upper (Utf8.encode w))
          (ws.map (Utf8.encode ·.2))) := by
  have hdigits : ∀ c ∈ Numeral.paddedChars 4 addr, c.isDigit = true :=
    fun _ => Numeral.isDigit_of_mem_paddedChars
  have hplain := isPlainWord_paddedChars addr
  have hread :
      Numeral.readDecimal 64 (Utf8.encode (Numeral.paddedChars 4 addr)) =
      .ok addr := by
    rw [← Numeral.zeroPadded_eq_encode]
    exact Numeral.readDecimal_zeroPadded haddr
  have hnumber :
      isNumber (Utf8.encode (Numeral.paddedChars 4 addr)) = true := by
    rw [isNumber, Utf8.chars_encode, Bool.and_eq_true, Bool.not_eq_true',
      List.isEmpty_eq_false_iff, Ne, Utf8.encode_eq_nil]
    refine ⟨hplain.1, List.all_eq_true.mpr fun c hc => ?_⟩
    rw [isDigit, if_pos (Numeral.isDigit_ascii (hdigits c hc))]
    exact hdigits c hc
  have hdot :
      ¬ ((Utf8.encode (Numeral.paddedChars 4 addr)).head? == some (byte '.')) =
      true := by
    intro h
    have hmem := List.mem_of_mem_head? (eq_of_beq h)
    rw [Utf8.byte_mem_encode (by decide)] at hmem
    exact absurd (hdigits _ hmem) (by decide)
  have hrest : ∀ e ∈ (gap, w) :: ws, IsPlainWord e.2 := by
    intro e he
    rcases List.mem_cons.mp he with rfl | he
    · exact hw
    · exact hws e he
  obtain ⟨htrim, hempty, hlast, hfields, -⟩ := spaced_spec hplain hrest rfl
  simp only [readLine, readFields, htrim, hempty, if_neg hlast, hfields,
    if_neg hdot, if_pos hnumber, hread, List.map_cons, Bool.false_eq_true,
    if_false]
  rfl

/-- A line with a label. -/
theorem readLine_label (h : IsLabel name) (line : Nat) :
    readLine line (name ++ text ":") = .ok (.label name) := by
  obtain ⟨cs, hname, hne, hcs⟩ := h.exists_chars
  have hnot {d : Char} (hd : continuesName d = false) : d ∉ cs :=
    fun hmem => Bool.false_ne_true (hd.symm.trans (hcs d hmem))
  have htext : name ++ text ":" = Utf8.encode (cs ++ [':']) := by
    rw [hname, Utf8.encode_append]; rfl
  have hcomment : byte ';' ∉ name ++ text ":" := by
    rw [htext, Utf8.byte_mem_encode (by decide), List.mem_append]
    rintro (hmem | hmem)
    · exact hnot (by decide) hmem
    · exact absurd hmem (by decide)
  have hblank : ∀ c ∈ cs ++ [':'], isBlank c = false := by
    intro c hc
    rcases List.mem_append.mp hc with hc | hc
    · exact isBlank_of_continuesName (hcs c hc)
    · rw [List.mem_singleton.mp hc]
      rfl
  have htrim : Bytes.trim (name ++ text ":") = name ++ text ":" := by
    rw [htext]
    exact Bytes.trim_encode (fun c hc => hblank c (List.mem_of_mem_head? hc))
      fun c hc => hblank c (List.mem_of_mem_getLast? hc)
  have htrimName : Bytes.trim name = name := by
    rw [hname]
    exact Bytes.trim_encode
      (fun c hc => isBlank_of_continuesName (hcs c (List.mem_of_mem_head? hc)))
      fun c hc => isBlank_of_continuesName (hcs c (List.mem_of_mem_getLast? hc))
  have hcolon : text ":" = [byte ':'] := rfl
  rw [readLine, Bytes.cut_of_not_mem hcomment, htrim, hcolon]
  simp [htrimName, h.isIdentifier]

/-! ### Lines of a listing -/

/-- Lines with their numbers, from `line` on. -/
def numbered : Nat → List Line → List (Nat × Line)
  | _, [] => []
  | line, l :: ls => (line, l) :: numbered (line + 1) ls

/-- A text is read as the given lines. -/
def ReadsAs (s : Bytes) (ls : List Line) : Prop :=
  ∀ line, readLines line (Bytes.lines s) = .ok (numbered line ls)

theorem readsAs_nil : ReadsAs [] [.blank] := by
  intro line
  rfl

theorem ReadsAs.cons {raw : Bytes} {l : Line} {ls : List Line}
    (h : ReadsAs s ls) (hnewline : byte '\n' ∉ raw)
    (hl : ∀ line, readLine line raw = .ok l) :
    ReadsAs (raw ++ text "\n" ++ s) (l :: ls) := by
  intro line
  have hsplit : Bytes.lines (raw ++ text "\n" ++ s) = raw :: Bytes.lines s := by
    rw [List.append_assoc]
    exact Bytes.splitOn_append hnewline s
  rw [hsplit, readLines, hl line, h (line + 1)]
  rfl

theorem ReadsAs.labels {names : List Name}
    (hnames : ∀ name ∈ names, IsLabel name) {ls : List Line}
    (h : ReadsAs s ls) :
    ReadsAs (names.flatMap (fun name => name ++ text ":\n") ++ s)
      (names.map .label ++ ls) := by
  induction names with
  | nil => exact h
  | cons name names ih =>
    have hname := hnames name List.mem_cons_self
    have hrest :=
      ih fun other hother => hnames other (List.mem_cons_of_mem name hother)
    have hnewline : byte '\n' ∉ name ++ text ":" := by
      obtain ⟨cs, rfl, -, hcs⟩ := hname.exists_chars
      rw [List.mem_append, Utf8.byte_mem_encode (by decide)]
      rintro (hmem | hmem)
      · exact absurd (hcs _ hmem) (by decide)
      · exact absurd hmem (by decide)
    have hcons := hrest.cons hnewline (readLine_label hname)
    have hend : name ++ text ":\n" = name ++ text ":" ++ text "\n" := by
      rw [List.append_assoc]
      rfl
    rw [List.flatMap_cons, List.append_assoc, hend]
    exact hcons

end Assembler

/-! ### Instructions -/

/-- An instruction that can be written in a listing. -/
def Instr.Writable (i : Instr) : Prop :=
  i.op ∈ Opcode.defined ∧ (i.op.hasOperand = false → i.operand = 0)

/-- Every defined opcode has a name of its own, a plain word in upper case. -/
theorem Opcode.mnemonic_spec :
    ∀ op ∈ Opcode.defined, Utf8.encode (Utf8.chars op.mnemonic) = op.mnemonic ∧
      Utf8.chars op.mnemonic ≠ [] ∧
      (Utf8.chars op.mnemonic).all Assembler.isPlain = true ∧
      Bytes.upper op.mnemonic = op.mnemonic ∧
      Opcode.ofMnemonic? op.mnemonic = some op := by
  decide +kernel

theorem Numeral.isPlainWord_decimalChars (v : Int) :
    Assembler.IsPlainWord (decimalChars v) := by
  have hdigits (n : Nat) : ∀ c ∈ Nat.toDigits 10 n,
      Assembler.isPlain c = true :=
    fun c hc => Assembler.isPlain_of_isDigit (isDigit_of_mem_toDigits hc)
  cases v with
  | ofNat n => exact ⟨Nat.toDigits_ne_nil, hdigits n⟩
  | negSucc n =>
    refine ⟨List.cons_ne_nil _ _, fun c hc => ?_⟩
    rcases List.mem_cons.mp hc with rfl | hc
    · decide
    · exact hdigits (n + 1) c hc

namespace Instr

def operands (i : Instr) : List Bytes :=
  if i.op.hasOperand then [Cell.decimal i.operand] else []

def line (addr : Nat) (i : Instr) : Assembler.Line :=
  .instr (some addr) i.op.mnemonic i.operands

/-- The words of an instruction in a listing, behind its address. -/
def words (i : Instr) : List (Nat × List Char) :=
  (1, Utf8.chars i.op.mnemonic) :: if i.op.hasOperand then
    [(6 - (Utf8.chars i.op.mnemonic).length,
      Numeral.decimalChars i.operand.toInt)] else []

variable {i : Instr}

theorem render_eq_encode (h : i.op ∈ Opcode.defined) (addr : Nat) :
    Numeral.zeroPadded 4 addr ++ text "  " ++ i.render =
      Utf8.encode (Bytes.spaced (Numeral.paddedChars 4 addr) i.words) := by
  obtain ⟨hencode, -⟩ := Opcode.mnemonic_spec i.op h
  have hlength :
      Utf8.length i.op.mnemonic = (Utf8.chars i.op.mnemonic).length := by
    rw [Utf8.length, Utf8.chars, List.length_map]
  rw [Numeral.zeroPadded_eq_encode, words, render]
  split
  next hoperand =>
    rw [padRight, hlength, Cell.decimal, Numeral.decimal_eq_encode]
    simp only [Bytes.spaced, Utf8.encode_append, hencode, Utf8.encode_spaces,
      List.replicate_succ', List.append_assoc]
    rfl
  next hoperand =>
    simp only [Bytes.spaced, Utf8.encode_append, hencode, Utf8.encode_spaces,
      List.append_assoc]
    rfl

theorem isPlainWord_words (h : i.op ∈ Opcode.defined) :
    ∀ e ∈ i.words, Assembler.IsPlainWord e.2 := by
  obtain ⟨-, hne, hplain, -⟩ := Opcode.mnemonic_spec i.op h
  intro e he
  rcases List.mem_cons.mp he with rfl | he
  · exact ⟨hne, List.all_eq_true.mp hplain⟩
  · split at he
    · rw [List.mem_singleton.mp he]
      exact Numeral.isPlainWord_decimalChars _
    · cases he

/-- The line of an instruction is read as the instruction with its address. -/
theorem readLine_render (h : i.op ∈ Opcode.defined)
    (haddr : addr < 9223372036854775808) (line : Nat) :
    Assembler.readLine line
      (Numeral.zeroPadded 4 addr ++ text "  " ++ i.render) =
      .ok (i.line addr) := by
  obtain ⟨hencode, -, -, hupper, -⟩ := Opcode.mnemonic_spec i.op h
  have hwords := isPlainWord_words h
  rw [render_eq_encode h, words]
  rw [words] at hwords
  rw [Assembler.readLine_instr haddr (hwords _ List.mem_cons_self) fun e he =>
    hwords e (List.mem_cons_of_mem _ he)]
  rw [hencode, hupper, Instr.line, operands]
  split
  · rw [Cell.decimal, Numeral.decimal_eq_encode]
    rfl
  · rfl

theorem newline_not_mem_render (h : i.op ∈ Opcode.defined) (addr : Nat) :
    byte '\n' ∉ Numeral.zeroPadded 4 addr ++ text "  " ++ i.render := by
  rw [render_eq_encode h]
  have hpadded : Assembler.IsPlainWord (Numeral.paddedChars 4 addr) :=
    Assembler.isPlainWord_paddedChars addr
  exact (Assembler.spaced_spec hpadded (isPlainWord_words h) rfl).2.2.2.2

/-- The assembler makes the instruction out of its line. -/
theorem instruction_line (h : i.Writable) (labels : Symbols) (line addr : Nat) :
    Assembler.instruction labels line addr (some addr) i.op.mnemonic
      i.operands = .ok i := by
  obtain ⟨hdefined, hzero⟩ := h
  obtain ⟨-, -, -, -, hop⟩ := Opcode.mnemonic_spec i.op hdefined
  have haddr : (some addr).filter (· != addr) = none := by simp
  rw [Assembler.instruction, haddr]
  simp only [hop]
  rw [operands]
  split
  next hoperand =>
    simp only [Assembler.operandValue, Numeral.readInt_decimal,
      Int64.ofInt_toInt]
  next hoperand =>
    have := hzero (by simpa using hoperand)
    simp only [List.isEmpty_nil, if_true]
    rw [← this]

end Instr

/-! ### Programs -/

namespace Program

/-- A program whose listing can be read back. -/
structure Listable (p : Program) : Prop where
  size : p.code.size < 2 ^ 63
  writable : ∀ i ∈ p.code.toList, i.Writable
  jumps : ∀ i ∈ p.code.toList, i.jumpsOutside p.code.size = false
  entry : p.code.size ≠ 0 → 0 ≤ p.entry.toInt ∧ p.entry.toInt < p.code.size
  labels : ∀ name addr, p.funcs.get? name = some addr →
    Assembler.IsLabel name ∧ ∃ k < p.code.size, addr = Int64.ofNat k

/-- The lines of instructions from `addr` on as they are read, with the blank
behind the last newline. -/
def codeListed (funcs : Symbols) : Nat → List Instr → List Assembler.Line
  | _, [] => [.blank]
  | addr, i :: is =>
    (funcs.namesAt (Int64.ofNat addr)).map .label ++ i.line addr :: codeListed
      funcs (addr + 1) is

def dataListed (data : Array Cell) : List Assembler.Line :=
  if data.isEmpty then []
  else [.directive (text ".DATA") (data.toList.map Cell.decimal)]

def listed (p : Program) : List Assembler.Line :=
  .directive (text ".ENTRY") [Cell.decimal p.entry] ::
    (dataListed p.data ++ codeListed p.funcs 0 p.code.toList)

variable {funcs t : Symbols} {p : Program}

theorem readsAs_codeLines
    (hlabels : ∀ name addr, funcs.get? name = some addr →
      Assembler.IsLabel name)
    {is : List Instr} (his : ∀ i ∈ is, i.Writable) (addr : Nat)
    (hsize : addr + is.length < 2 ^ 63) :
    Assembler.ReadsAs (codeLines funcs addr is) (codeListed funcs addr is) := by
  induction is generalizing addr with
  | nil => exact Assembler.readsAs_nil
  | cons i is ih =>
    rw [List.length_cons] at hsize
    have hi := (his i List.mem_cons_self).1
    have hrest :=
      ih (fun j hj => his j (List.mem_cons_of_mem i hj)) (addr + 1) (by omega)
    have hline :=
      hrest.cons (i.newline_not_mem_render hi addr)
        (Instr.readLine_render hi (by omega))
    have hnames : ∀ name ∈ funcs.namesAt (Int64.ofNat addr),
        Assembler.IsLabel name :=
      fun name hname => hlabels name _ (Symbols.mem_namesAt.mp hname)
    simpa only [codeLines, codeListed, instrLines, List.append_assoc]
      using hline.labels hnames

theorem dataLine_eq_encode (vs : List Cell) :
    text ".data" ++ vs.flatMap (fun v => text " " ++ Cell.decimal v) =
      Utf8.encode
      (Bytes.spaced ".data".toList
        (vs.map fun v => (0, Numeral.decimalChars v.toInt))) := by
  have hwords :
    vs.flatMap (fun v => text " " ++ Cell.decimal v) = Utf8.encode
    ((vs.map fun v => (0, Numeral.decimalChars v.toInt)).flatMap fun e =>
        List.replicate (e.1 + 1) ' ' ++ e.2) := by
    induction vs with
    | nil => rfl
    | cons v vs ih =>
      rw [List.flatMap_cons, ih, List.map_cons, List.flatMap_cons,
        Utf8.encode_append, Utf8.encode_append, Cell.decimal,
        Numeral.decimal_eq_encode]
      rfl
  rw [Bytes.spaced_eq_append, Utf8.encode_append, hwords]
  rfl

theorem readsAs_dataLine (data : Array Cell) {s : Bytes}
    {ls : List Assembler.Line} (h : Assembler.ReadsAs s ls) :
    Assembler.ReadsAs (dataLine data ++ s) (dataListed data ++ ls) := by
  rw [dataLine, dataListed]
  split
  · exact h
  · have hplain : Assembler.IsPlainWord ".data".toList :=
      ⟨by decide, List.all_eq_true.mp (by decide)⟩
    have hws : ∀ e ∈ data.toList.map fun v => (0, Numeral.decimalChars v.toInt),
        Assembler.IsPlainWord e.2 := by
      intro e he
      obtain ⟨v, -, rfl⟩ := List.mem_map.mp he
      exact Numeral.isPlainWord_decimalChars _
    have hspec := Assembler.spaced_spec hplain hws rfl
    rw [dataLine_eq_encode]
    refine h.cons hspec.2.2.2.2 fun line => ?_
    have hread :=
      Assembler.readLine_directive (w := "data".toList) hplain hws line
    have hdirective : Bytes.upper (Utf8.encode ".data".toList) =
        text ".DATA" := by decide +kernel
    have hfields :
        (data.toList.map fun v => (0, Numeral.decimalChars v.toInt)).map
        (Utf8.encode ·.2) = data.toList.map Cell.decimal := by
      rw [List.map_map]
      apply List.map_congr_left
      intro v _
      exact (Numeral.decimal_eq_encode v.toInt).symm
    rw [← hdirective, ← hfields]
    exact hread

theorem readsAs_entryLine (entry : Cell) {s : Bytes} {ls : List Assembler.Line}
    (h : Assembler.ReadsAs s ls) :
    Assembler.ReadsAs (text ".entry " ++ Cell.decimal entry ++ text "\n" ++ s)
      (.directive (text ".ENTRY") [Cell.decimal entry] :: ls) := by
  have hplain : Assembler.IsPlainWord ".entry".toList :=
    ⟨by decide, List.all_eq_true.mp (by decide)⟩
  have hws : ∀ e ∈ [(0, Numeral.decimalChars entry.toInt)],
      Assembler.IsPlainWord e.2 := by
    intro e he
    rw [List.mem_singleton.mp he]
    exact Numeral.isPlainWord_decimalChars _
  have htext :
      text ".entry " ++ Cell.decimal entry =
      Utf8.encode
      (Bytes.spaced ".entry".toList
      [(0, Numeral.decimalChars entry.toInt)]) := by
    rw [Bytes.spaced, Bytes.spaced, Utf8.encode_append, Cell.decimal,
      Numeral.decimal_eq_encode]
    rfl
  have hdirective : Bytes.upper (Utf8.encode ".entry".toList) =
      text ".ENTRY" := by decide +kernel
  rw [htext]
  refine h.cons (Assembler.spaced_spec hplain hws rfl).2.2.2.2 fun line => ?_
  rw [← hdirective, Cell.decimal, Numeral.decimal_eq_encode]
  exact Assembler.readLine_directive (w := "entry".toList) hplain hws line

/-- The listing of a program is read as its lines, if its names can be labels
and its instructions can be written. -/
theorem readsAs_listing (hsize : p.code.size < 2 ^ 63)
    (hwritable : ∀ i ∈ p.code.toList, i.Writable)
    (hlabels : ∀ name addr, p.funcs.get? name = some addr →
      Assembler.IsLabel name) : Assembler.ReadsAs p.listing p.listed := by
  have hcode := readsAs_codeLines hlabels hwritable 0 (by simpa using hsize)
  have hall := readsAs_entryLine p.entry (readsAs_dataLine p.data hcode)
  simpa only [listing, listed, List.append_assoc] using hall

/-! ### Assembling -/

/-- A table has exactly the functions at the first `size` addresses. -/
def KnownBelow (funcs : Symbols) (size : Nat) (t : Symbols) : Prop :=
  ∀ name addr, t.get? name = some addr ↔
    funcs.get? name = some addr ∧ ∃ k < size, addr = Int64.ofNat k

theorem collectLabels_labels {names : List Name} (hnodup : names.Nodup)
    (hnew : ∀ name ∈ names, t.get? name = none) (addr line : Nat)
    (ls : List Assembler.Line) :
    Assembler.collectLabels addr t
      (Assembler.numbered line (names.map .label ++ ls)) =
      Assembler.collectLabels addr (t.insertAll names (Int64.ofNat addr))
      (Assembler.numbered (line + names.length) ls) := by
  induction names generalizing t line with
  | nil => rfl
  | cons name names ih =>
    obtain ⟨hname, hnames⟩ := List.nodup_cons.mp hnodup
    have hrest : ∀ other ∈ names,
        (t.insert name (Int64.ofNat addr)).get? other = none := by
      intro other hother
      have hne : other ≠ name := fun heq => hname (heq ▸ hother)
      rw [Symbols.get?_insert, if_neg hne]
      exact hnew other (List.mem_cons_of_mem name hother)
    have hfresh : ¬ (t.get? name).isSome = true := by
      rw [hnew name List.mem_cons_self]
      exact Bool.false_ne_true
    rw [List.map_cons, List.cons_append, Assembler.numbered,
      Assembler.collectLabels]
    simp only [if_neg hfresh]
    rw [ih hnames hrest, List.length_cons, Nat.add_right_comm]
    rfl

/-- Behind the labels of an address, the functions at that address are known
too. -/
theorem KnownBelow.succ (h : KnownBelow funcs addr t) :
    KnownBelow funcs (addr + 1)
      (t.insertAll (funcs.namesAt (Int64.ofNat addr)) (Int64.ofNat addr)) := by
  intro name a
  rw [Symbols.get?_insertAll]
  split
  next hmem =>
    have hget := Symbols.mem_namesAt.mp hmem
    constructor
    · intro heq
      cases heq
      exact ⟨hget, addr, Nat.lt_succ_self addr, rfl⟩
    · rintro ⟨hget', -⟩
      exact hget.symm.trans hget'
  next hmem =>
    rw [h name a]
    constructor
    · rintro ⟨hget, k, hk, rfl⟩
      exact ⟨hget, k, Nat.lt_succ_of_lt hk, rfl⟩
    · rintro ⟨hget, k, hk, rfl⟩
      refine ⟨hget, k, ?_, rfl⟩
      rcases Nat.lt_succ_iff_lt_or_eq.mp hk with hk | rfl
      · exact hk
      · exact absurd (Symbols.mem_namesAt.mpr hget) hmem

/-- The labels of the instructions are collected without finding one twice. -/
theorem collectLabels_codeListed (is : List Instr) (h : KnownBelow funcs addr t)
    (hsize : addr + is.length < 2 ^ 63) (line : Nat) :
    ∃ t', Assembler.collectLabels addr t
      (Assembler.numbered line (codeListed funcs addr is)) = (t', none) ∧
    KnownBelow funcs (addr + is.length) t' := by
  induction is generalizing addr t line with
  | nil => exact ⟨t, rfl, h⟩
  | cons i is ih =>
    rw [List.length_cons] at hsize
    -- A function at this address has no smaller one, since addresses in range
    -- differ as cells too.
    have hnew : ∀ name ∈ funcs.namesAt (Int64.ofNat addr),
        t.get? name = none := by
      intro name hname
      rw [Option.eq_none_iff_forall_ne_some]
      intro a ha
      obtain ⟨hget, k, hk, rfl⟩ := (h name a).mp ha
      have heq : Int64.ofNat addr = Int64.ofNat k :=
        Option.some.inj ((Symbols.mem_namesAt.mp hname).symm.trans hget)
      have hint := congrArg Int64.toInt heq
      rw [Int64.toInt_ofNat_of_lt (by omega),
        Int64.toInt_ofNat_of_lt (by omega)] at hint
      omega
    obtain ⟨t', hcollect, hknown⟩ := ih h.succ (by omega)
      (line + (funcs.namesAt (Int64.ofNat addr)).length + 1)
    refine ⟨t', ?_, ?_⟩
    · rw [codeListed, collectLabels_labels (funcs.nodup_namesAt _) hnew]
      exact hcollect
    · rwa [List.length_cons, Nat.add_comm is.length 1, ← Nat.add_assoc]

theorem addLines_labels (labels : Symbols) (q : Program) (names : List Name)
    (line : Nat) (ls : List Assembler.Line) :
    Assembler.addLines labels q
      (Assembler.numbered line (names.map .label ++ ls)) = Assembler.addLines
      labels q (Assembler.numbered (line + names.length) ls) := by
  induction names generalizing line with
  | nil => rfl
  | cons name names ih =>
    rw [List.map_cons, List.cons_append, Assembler.numbered, Assembler.addLines,
      Assembler.addLine]
    simp only
    rw [ih, List.length_cons, Nat.add_right_comm]
    rfl

/-- The instructions are added in their order. -/
theorem addLines_codeListed (labels funcs : Symbols) {is : List Instr}
    (his : ∀ i ∈ is, i.Writable) {q : Program} (line : Nat) :
    Assembler.addLines labels q
      (Assembler.numbered line (codeListed funcs q.code.size is)) =
      .ok { q with code := q.code ++ is } := by
  induction is generalizing q line with
  | nil =>
    rw [codeListed, Assembler.numbered, Assembler.addLines]
    simp [Assembler.addLine, Assembler.numbered, Assembler.addLines]
  | cons i is ih =>
    have hi := i.instruction_line (his i List.mem_cons_self) labels
    have hrest :=
      ih (fun j hj => his j (List.mem_cons_of_mem i hj))
        (q := { q with code := q.code.push i })
    rw [Array.size_push] at hrest
    rw [codeListed, addLines_labels, Assembler.numbered, Assembler.addLines,
      Instr.line, Assembler.addLine]
    simp only [hi, hrest]
    simp

theorem dataValues_decimal (line : Nat) (vs : List Cell) :
    Assembler.dataValues line (vs.map Cell.decimal) = .ok vs := by
  induction vs with
  | nil => rfl
  | cons v vs ih =>
    simp only [List.map_cons, Assembler.dataValues, Numeral.readInt_decimal, ih,
      Int64.ofInt_toInt]

theorem Listable.checkTargets {p : Program} (h : p.Listable) :
    Assembler.checkTargets p = .ok p := by
  have hentry :
      ¬ (p.code.size ≠ 0 ∧
      (p.entry.toInt < 0 ∨ (p.code.size : Int) ≤ p.entry.toInt)) := by
    rintro ⟨hne, hout⟩
    have := h.entry hne
    omega
  simp only [Assembler.checkTargets, Instr.firstOutside_eq_none h.jumps,
    if_neg hentry]

theorem addLine_entry (labels : Symbols) (q : Program) (line : Nat)
    (entry : Cell) :
    Assembler.addLine labels q line
      (.directive (text ".ENTRY") [Cell.decimal entry]) =
      .ok { q with entry } := by
  simp only [Assembler.addLine, beq_self_eq_true, if_true,
    Assembler.operandValue, Numeral.readInt_decimal, Int64.ofInt_toInt]

theorem addLine_data (labels : Symbols) (q : Program) (line : Nat)
    (vs : List Cell) :
    Assembler.addLine labels q line
      (.directive (text ".DATA") (vs.map Cell.decimal)) =
      .ok { q with data := q.data ++ vs } := by
  have hentry : (text ".DATA" == text ".ENTRY") = false := by decide
  simp only [Assembler.addLine, hentry, Bool.false_eq_true, if_false,
    beq_self_eq_true, if_true, dataValues_decimal]

theorem addLines_dataListed (labels : Symbols) {q : Program} (hq : q.data = #[])
    (data : Array Cell) (line : Nat) (ls : List Assembler.Line) :
    Assembler.addLines labels q
      (Assembler.numbered line (dataListed data ++ ls)) =
      Assembler.addLines labels { q with data }
      (Assembler.numbered (line + (dataListed data).length) ls) := by
  rw [dataListed]
  split
  next hempty =>
    rw [Array.isEmpty_iff.mp hempty, ← hq]
    rfl
  next =>
    rw [List.singleton_append, Assembler.numbered, Assembler.addLines,
      addLine_data]
    simp [hq]

/-- The lines of a listing are assembled into the program, when its labels are
known. -/
theorem Listable.addLines {p : Program} (h : p.Listable) (line : Nat) :
    Assembler.addLines p.funcs { funcs := p.funcs }
      (Assembler.numbered line p.listed) = .ok p := by
  rw [listed, Assembler.numbered, Assembler.addLines, addLine_entry]
  simp only
  rw [addLines_dataListed p.funcs rfl]
  have hcode := addLines_codeListed p.funcs p.funcs h.writable
    (q := { data := p.data, entry := p.entry, funcs := p.funcs })
  rw [show (#[] : Array Instr).size = 0 from rfl] at hcode
  rw [hcode]
  simp

theorem collectLabels_dataListed (t : Symbols) (data : Array Cell) (line : Nat)
    (ls : List Assembler.Line) :
    Assembler.collectLabels 0 t
      (Assembler.numbered line (dataListed data ++ ls)) =
      Assembler.collectLabels 0 t
      (Assembler.numbered (line + (dataListed data).length) ls) := by
  rw [dataListed]
  split <;> rfl

/-- The labels of a listing are the functions of the program that stand at
instructions. -/
theorem collectLabels_listed (hsize : p.code.size < 2 ^ 63) (line : Nat) :
    ∃ t, Assembler.collectLabels 0 {} (Assembler.numbered line p.listed) =
      (t, none) ∧
    KnownBelow p.funcs p.code.size t := by
  have hstart : KnownBelow p.funcs 0 {} := by
    intro name addr
    constructor
    · intro hget
      cases hget
    · rintro ⟨-, k, hk, -⟩
      exact absurd hk (Nat.not_lt_zero k)
  obtain ⟨t, hcollect, hknown⟩ := collectLabels_codeListed p.code.toList hstart
    (by simpa using hsize) (line + 1 + (dataListed p.data).length)
  -- The line of the entry has no label.
  refine ⟨t,
    (collectLabels_dataListed {} p.data (line + 1) _).trans hcollect, ?_⟩
  simpa using hknown

theorem Listable.collectLabels (h : p.Listable) (line : Nat) :
    Assembler.collectLabels 0 {} (Assembler.numbered line p.listed) =
      (p.funcs, none) := by
  obtain ⟨t, hcollect, hknown⟩ := collectLabels_listed h.size line
  have heq : t = p.funcs := by
    apply Symbols.ext_get?
    intro name addr
    rw [hknown name addr]
    exact ⟨And.left, fun hget => ⟨hget, (h.labels name addr hget).2⟩⟩
  rwa [heq] at hcollect

/-- Assembling the listing of a program gives the program back. -/
theorem Listable.ofListing_listing (h : p.Listable) :
    ofListing p.listing = .ok p := by
  have hread :=
    readsAs_listing h.size h.writable
      (fun name addr hget => (h.labels name addr hget).1) 1
  have hlabels := h.collectLabels 1
  rw [ofListing, Assembler.assemble, hread]
  simp only [hlabels, h.addLines, h.checkTargets]

end Program

end StackC
