import StackC.Proofs.Fields
import StackC.Proofs.Listing

/-!
What the assembler makes of any listing. Whether a line can be read, and what it
adds to the program, does not depend on its number, so assembling is a relation
between the lines and the program. From it follows what every assembled program
is like: its instructions can be written, its jumps and its entry go to
instructions, and the address of a label is the number of instructions that
stand before it.
-/

namespace StackC

theorem Instr.firstOutside_eq_none_iff {size : Nat} {is : List Instr}
    (addr : Nat) :
    firstOutside size addr is = none ↔
      ∀ i ∈ is, i.jumpsOutside size = false := by
  refine ⟨fun h => ?_, firstOutside_eq_none⟩
  induction is generalizing addr with
  | nil => simp
  | cons i is ih =>
    rw [firstOutside] at h
    split at h
    next => cases h
    next hin =>
      exact List.forall_mem_cons.mpr ⟨by simpa using hin, ih (addr + 1) h⟩

namespace Assembler

/-! ### Lines -/

/-- What stands in a line before its comment. -/
def content (raw : Bytes) : Bytes :=
  (Bytes.cut (byte ';') raw).1

def words (raw : Bytes) : List Bytes :=
  Bytes.fields (content raw)

def endsInColon (raw : Bytes) : Bool :=
  (Bytes.trim (content raw)).getLast? == some (byte ':')

def labelOf? (raw : Bytes) : Option Name :=
  if endsInColon raw then some (Bytes.trim (Bytes.trim (content raw)).dropLast)
  else none

/-- Whether a line holds an instruction: it has words, is no label, and does not
begin with a dot. -/
def isInstruction (raw : Bytes) : Bool :=
  !endsInColon raw && (words raw).head?.any (·.head? != some (byte '.'))

variable {field raw : Bytes} {line addr : Nat} {t t' : Symbols} {q q' : Program}

theorem readFields_of_dot (h : field.head? = some (byte '.')) (line : Nat)
    (rest : List Bytes) :
    readFields line (field :: rest) =
      .ok (.directive (Bytes.upper field) rest) :=
  if_pos (beq_iff_eq.mpr h)

theorem readFields_of_number (hdot : field.head? ≠ some (byte '.'))
    (h : isNumber field = true)
    (line : Nat) (rest : List Bytes) :
    readFields line (field :: rest) =
      match Numeral.readDecimal 64 field, rest with
      | .error _, _ => .error (.invalidAddress field line)
      | .ok _, [] => .error (.missingInstruction line)
      | .ok addr, mnemonic :: operands =>
        .ok (.instr (some addr.toNat) (Bytes.upper mnemonic) operands) :=
  (if_neg (mt eq_of_beq hdot)).trans (if_pos h)

theorem readFields_of_word (hdot : field.head? ≠ some (byte '.'))
    (h : isNumber field = false) (line : Nat) (rest : List Bytes) :
    readFields line (field :: rest) =
      .ok (.instr none (Bytes.upper field) rest) :=
  (if_neg (mt eq_of_beq hdot)).trans
    (if_neg (by rw [h]; exact Bool.false_ne_true))

theorem readLine_of_fields (h : endsInColon raw = false) (line : Nat) :
    readLine line raw = readFields line (words raw) := by
  rw [words, ← Bytes.fields_trim, readLine]
  rw [endsInColon] at h
  simp only [content] at h ⊢
  by_cases hempty : (Bytes.trim (Bytes.cut (byte ';') raw).1).isEmpty = true
  · rw [if_pos hempty, List.isEmpty_iff.mp hempty]
    rfl
  · rw [if_neg hempty, h, if_neg Bool.false_ne_true]

theorem readLine_of_colon (h : endsInColon raw = true) (line : Nat) :
    readLine line raw =
      let name := Bytes.trim (Bytes.trim (content raw)).dropLast
      if isIdentifier name then .ok (.label name)
      else .error (.invalidLabel name line) := by
  rw [readLine]
  rw [endsInColon] at h
  simp only [content] at h ⊢
  by_cases hempty : (Bytes.trim (Bytes.cut (byte ';') raw).1).isEmpty = true
  · rw [List.isEmpty_iff.mp hempty] at h
    cases h
  · rw [if_neg hempty, if_pos h]
    rfl

/-- A line is read as the given one, whatever its number. -/
def Reads (raw : Bytes) (l : Line) : Prop :=
  ∀ line, readLine line raw = .ok l

/-- What can be read as the fields of a line. -/
theorem readFields_cases {fs : List Bytes} {l : Line}
    (h : readFields line fs = .ok l) :
    (fs = [] ∧ l = .blank) ∨
      (∃ field rest, fs = field :: rest ∧ field.head? = some (byte '.') ∧
        l = .directive (Bytes.upper field) rest) ∨
      (∃ field mnemonic operands addr, fs = field :: mnemonic :: operands ∧
        field.head? ≠ some (byte '.') ∧ isNumber field = true ∧
        Numeral.readDecimal 64 field = .ok addr ∧
        l = .instr (some addr.toNat) (Bytes.upper mnemonic) operands) ∨
      (∃ field operands, fs = field :: operands ∧
        field.head? ≠ some (byte '.') ∧ isNumber field = false ∧
        l = .instr none (Bytes.upper field) operands) := by
  cases fs with
  | nil =>
    cases h
    exact Or.inl ⟨rfl, rfl⟩
  | cons field rest =>
    right
    by_cases hdot : field.head? = some (byte '.')
    · rw [readFields_of_dot hdot] at h
      cases h
      exact Or.inl ⟨field, rest, rfl, hdot, rfl⟩
    right
    by_cases hnumber : isNumber field = true
    · rw [readFields_of_number hdot hnumber] at h
      cases hread : Numeral.readDecimal 64 field with
      | error e =>
        rw [hread] at h
        cases h
      | ok addr =>
        rw [hread] at h
        cases rest with
        | nil => cases h
        | cons mnemonic operands =>
          cases h
          exact Or.inl ⟨field, mnemonic, operands, addr, rfl, hdot, hnumber,
            hread, rfl⟩
    · rw [Bool.not_eq_true] at hnumber
      rw [readFields_of_word hdot hnumber] at h
      cases h
      exact Or.inr ⟨field, rest, rfl, hdot, hnumber, rfl⟩

/-- Fields that can be read are read alike on every line. -/
theorem readFields_line {fs : List Bytes} {l : Line}
    (h : readFields line fs = .ok l) (other : Nat) :
    readFields other fs = .ok l := by
  rcases readFields_cases h with ⟨rfl, rfl⟩ | ⟨field, rest, rfl, hdot, rfl⟩ |
    ⟨field, mnemonic, operands, addr, rfl, hdot, hnumber, hread, rfl⟩ |
    ⟨field, operands, rfl, hdot, hnumber, rfl⟩
  · rfl
  · exact readFields_of_dot hdot other rest
  · rw [readFields_of_number hdot hnumber, hread]
  · exact readFields_of_word hdot hnumber other operands

theorem readLine_line {l : Line} (h : readLine line raw = .ok l) :
    Reads raw l := by
  intro other
  by_cases hcolon : endsInColon raw = true
  · rw [readLine_of_colon hcolon] at h ⊢
    simp only at h ⊢
    obtain ⟨hname, h⟩ := ok_of_then h
    rw [if_pos hname, h]
  · rw [Bool.not_eq_true] at hcolon
    rw [readLine_of_fields hcolon] at h ⊢
    exact readFields_line h other

theorem reads_of_fields {l : Line} (h : endsInColon raw = false) :
    Reads raw l ↔ ∀ line, readFields line (words raw) = .ok l := by
  simp only [Reads, readLine_of_fields h]

/-- A line is a label if and only if it ends with a colon, and then the label is
an identifier. -/
theorem Reads.label_iff {l : Line} (h : Reads raw l) (name : Name) :
    l = .label name ↔ labelOf? raw = some name := by
  have hread := h 0
  rw [labelOf?]
  by_cases hcolon : endsInColon raw = true
  · rw [readLine_of_colon hcolon] at hread
    simp only at hread
    obtain ⟨-, hread⟩ := ok_of_then hread
    cases hread
    rw [if_pos hcolon, Option.some.injEq, Line.label.injEq]
  · rw [if_neg hcolon]
    rw [Bool.not_eq_true] at hcolon
    rw [readLine_of_fields hcolon] at hread
    rcases readFields_cases hread with
        ⟨-, rfl⟩ | ⟨field, rest, -, -, rfl⟩
        | ⟨field, mnemonic, operands, addr, -, -, -, -, rfl⟩
        | ⟨field, operands, -, -, -, rfl⟩ <;> simp

theorem Reads.isIdentifier {name : Name} (h : Reads raw (.label name)) :
    isIdentifier name = true := by
  have hread := h 0
  by_cases hcolon : endsInColon raw = true
  · rw [readLine_of_colon hcolon] at hread
    simp only at hread
    obtain ⟨hname, hread⟩ := ok_of_then hread
    cases hread
    exact hname
  · rw [Bool.not_eq_true] at hcolon
    rw [readLine_of_fields hcolon] at hread
    rcases readFields_cases hread with
        ⟨-, hl⟩ | ⟨field, rest, -, -, hl⟩
        | ⟨field, mnemonic, operands, addr, -, -, -, -, hl⟩
        | ⟨field, operands, -, -, -, hl⟩ <;> cases hl

def Line.isInstr : Line → Bool
  | .instr .. => true
  | _ => false

theorem Reads.isInstr {l : Line} (h : Reads raw l) :
    l.isInstr = isInstruction raw := by
  by_cases hcolon : endsInColon raw = true
  · have hlabel : labelOf? raw = some _ := if_pos hcolon
    rw [(h.label_iff _).mpr hlabel, isInstruction, hcolon]
    rfl
  · rw [Bool.not_eq_true] at hcolon
    have hread := (reads_of_fields hcolon).mp h 0
    rw [isInstruction, hcolon]
    rcases readFields_cases hread with
        ⟨hfs, rfl⟩ | ⟨field, rest, hfs, hdot, rfl⟩
        | ⟨field, mnemonic, operands, addr, hfs, hdot, -, -, rfl⟩
        | ⟨field, operands, hfs, hdot, -, rfl⟩
    · rw [hfs]
      rfl
    · rw [hfs, List.head?_cons, Option.any_some, hdot]
      rfl
    · rw [hfs, List.head?_cons, Option.any_some, bne_iff_ne.mpr hdot]
      rfl
    · rw [hfs, List.head?_cons, Option.any_some, bne_iff_ne.mpr hdot]
      rfl

theorem countP_isInstr {raws : List Bytes} {ls : List Line}
    (h : List.Forall₂ Reads raws ls) :
    ls.countP Line.isInstr = raws.countP isInstruction := by
  induction h with
  | nil => rfl
  | cons hl rest ih => rw [List.countP_cons, List.countP_cons, ih, hl.isInstr]

/-- Where a line is read, the lines around it are read too. -/
theorem reads_split_right {raws : List Bytes} {before after : List Line}
    {l : Line} (h : List.Forall₂ Reads raws (before ++ l :: after)) :
    ∃ rb raw ra, raws = rb ++ raw :: ra ∧ List.Forall₂ Reads rb before ∧
      Reads raw l ∧ List.Forall₂ Reads ra after := by
  have hdrop := List.forall₂_drop_append raws before (l :: after) h
  obtain ⟨raw, ra, hl, hafter, hraws⟩ := List.forall₂_cons_right_iff.mp hdrop
  refine ⟨raws.take before.length, raw, ra, ?_,
    List.forall₂_take_append raws before _ h, hl, hafter⟩
  rw [← hraws, List.take_append_drop]

theorem reads_append_left {before after : List Bytes} {ls : List Line}
    (h : List.Forall₂ Reads (before ++ after) ls) :
    ∃ lb la, ls = lb ++ la ∧ List.Forall₂ Reads before lb ∧
      List.Forall₂ Reads after la := by
  have hflip : List.Forall₂ (flip Reads) ls (before ++ after) :=
    List.Forall₂.flip h
  refine ⟨ls.take before.length, ls.drop before.length,
    (List.take_append_drop _ ls).symm, ?_, ?_⟩
  · exact (List.forall₂_take_append ls before after hflip).flip
  · exact (List.forall₂_drop_append ls before after hflip).flip

theorem reads_split_left {before after : List Bytes} {ls : List Line}
    (h : List.Forall₂ Reads (before ++ raw :: after) ls) :
    ∃ lb l la, ls = lb ++ l :: la ∧ List.Forall₂ Reads before lb ∧ Reads raw l ∧
      List.Forall₂ Reads after la := by
  obtain ⟨lb, back, rfl, hbefore, hback⟩ := reads_append_left h
  obtain ⟨l, la, hl, hafter, rfl⟩ := List.forall₂_cons_left_iff.mp hback
  exact ⟨lb, l, la, rfl, hbefore, hl, hafter⟩

/-- Lines can be read if and only if each can. -/
theorem readLines_eq_ok_iff {raws : List Bytes} {ls : List (Nat × Line)} :
    readLines line raws = .ok ls ↔
      ∃ plain, ls = numbered line plain ∧ List.Forall₂ Reads raws plain := by
  induction raws generalizing line ls with
  | nil =>
    rw [readLines]
    constructor
    · intro h
      cases h
      exact ⟨[], rfl, .nil⟩
    · rintro ⟨plain, rfl, hreads⟩
      cases hreads
      rfl
  | cons raw raws ih =>
    rw [readLines]
    constructor
    · intro h
      cases hl : readLine line raw with
      | error e =>
        rw [hl] at h
        cases h
      | ok l =>
        rw [hl] at h
        cases hrest : readLines (line + 1) raws with
        | error e =>
          simp only [hrest] at h
          cases h
        | ok rest =>
          simp only [hrest] at h
          cases h
          obtain ⟨plain, rfl, hreads⟩ := ih.mp hrest
          exact ⟨l :: plain, rfl, .cons (readLine_line hl) hreads⟩
    · rintro ⟨plain, rfl, hreads⟩
      cases hreads with
      | cons hl hrest =>
        rw [hl line]
        simp only [ih.mpr ⟨_, rfl, hrest⟩]
        rfl

/-! ### Labels -/

/-- The labels of the lines, where `addr` instructions stand before them, are
added to a table in which none of them is known. -/
inductive Collects : Nat → Symbols → List Line → Symbols → Prop
  | nil (addr : Nat) (t : Symbols) : Collects addr t [] t
  | label {addr : Nat} {t t' : Symbols} {name : Name} {ls : List Line}
    (hnew : t.get? name = none)
    (rest : Collects addr (t.insert name (Int64.ofNat addr)) ls t') :
    Collects addr t (.label name :: ls) t'
  | other {addr : Nat} {t t' : Symbols} {l : Line} {ls : List Line}
    (hl : ∀ name, l ≠ .label name)
    (rest : Collects (addr + if l.isInstr then 1 else 0) t ls t') :
    Collects addr t (l :: ls) t'

theorem collects_other_iff {l : Line} {ls : List Line}
    (hl : ∀ name, l ≠ .label name) :
    Collects addr t (l :: ls) t' ↔
      Collects (addr + if l.isInstr then 1 else 0) t ls t' := by
  refine ⟨fun h => ?_, .other hl⟩
  cases h with
  | label hnew rest => exact absurd rfl (hl _)
  | other hl rest => exact rest

theorem collectLabels_eq_iff {ls : List Line} :
    collectLabels addr t (numbered line ls) = (t', none) ↔
      Collects addr t ls t' := by
  induction ls generalizing addr line t with
  | nil =>
    constructor
    · intro h
      cases h
      exact .nil addr _
    · intro h
      cases h
      rfl
  | cons l ls ih =>
    cases l with
    | label name =>
      rw [numbered, collectLabels]
      split
      next hsome =>
        constructor
        · intro h
          cases h
        · intro h
          cases h with
          | label hnew rest =>
            rw [hnew] at hsome
            cases hsome
          | other hl rest => exact absurd rfl (hl name)
      next hnone =>
        rw [ih]
        constructor
        · exact .label (Option.not_isSome_iff_eq_none.mp hnone)
        · intro h
          cases h with
          | label hnew rest => exact rest
          | other hl rest => exact absurd rfl (hl name)
    | blank =>
      rw [collects_other_iff (by simp)]
      exact ih
    | directive name operands =>
      rw [collects_other_iff (by simp)]
      exact ih
    | instr written mnemonic operands =>
      rw [collects_other_iff (by simp)]
      exact ih

/-- A name is in the table afterwards if and only if it was known, or its label
is one of the lines; then its address is the number of instructions before
it. -/
theorem Collects.get?_eq_some_iff {ls : List Line} (h : Collects addr t ls t')
    (name : Name) (a : Cell) :
    t'.get? name = some a ↔
      t.get? name = some a ∨
        ∃ before after, ls = before ++ .label name :: after ∧
          a = Int64.ofNat (addr + before.countP Line.isInstr) := by
  induction h with
  | nil addr t => simp
  | @label addr t t' first ls hnew rest ih =>
    rw [ih, Symbols.get?_insert]
    constructor
    · rintro (hget | ⟨before, after, rfl, rfl⟩)
      · split at hget
        next heq =>
          cases hget
          exact Or.inr ⟨[], ls, by rw [heq]; rfl, rfl⟩
        next => exact Or.inl hget
      · refine Or.inr ⟨.label first :: before, after, rfl, ?_⟩
        rw [List.countP_cons_of_neg (by simp [Line.isInstr])]
    · rintro (hget | ⟨before, after, hls, rfl⟩)
      · have hne : name ≠ first := by
          rintro rfl
          rw [hnew] at hget
          cases hget
        exact Or.inl ((if_neg hne).trans hget)
      · cases before with
        | nil =>
          cases hls
          exact Or.inl (if_pos rfl)
        | cons l before =>
          cases hls
          refine Or.inr ⟨before, after, rfl, ?_⟩
          rw [List.countP_cons_of_neg (by simp [Line.isInstr])]
  | @other addr t t' l ls hl rest ih =>
    rw [ih]
    apply or_congr_right
    constructor
    · rintro ⟨before, after, rfl, rfl⟩
      refine ⟨l :: before, after, rfl, ?_⟩
      rw [List.countP_cons, Nat.add_assoc, Nat.add_comm (before.countP _)]
    · rintro ⟨before, after, hls, rfl⟩
      cases before with
      | nil =>
        cases hls
        exact absurd rfl (hl name)
      | cons first before =>
        cases hls
        refine ⟨before, after, rfl, ?_⟩
        rw [List.countP_cons, Nat.add_assoc, Nat.add_comm (before.countP _)]

/-! ### Programs -/

theorem operandValue_eq_ok_iff {labels : Symbols} {v : Cell} :
    operandValue labels line field = .ok v ↔
      (∃ n, Numeral.readInt 64 field = .ok n ∧ v = Int64.ofInt n) ∨
        ((∃ e, Numeral.readInt 64 field = .error e) ∧
          labels.get? field = some v) := by
  rw [operandValue]
  cases hread : Numeral.readInt 64 field with
  | ok n => simp [eq_comm]
  | error e =>
    cases hget : labels.get? field with
    | some addr => simp
    | none =>
      simp only [reduceCtorEq, false_and, exists_false, and_false, or_false,
        iff_false]
      split <;> simp

theorem instruction_eq_ok_iff {labels : Symbols} {position : Nat}
    {written : Option Nat} {mnemonic : Bytes} {operands : List Bytes}
    {i : Instr} :
    instruction labels line position written mnemonic operands = .ok i ↔
      (∀ addr ∈ written, addr = position) ∧
        Opcode.ofMnemonic? mnemonic = some i.op ∧
        ((i.op.hasOperand = true ∧
          ∃ field, operands = [field] ∧
            operandValue labels line field = .ok i.operand) ∨
          (i.op.hasOperand = false ∧ operands = [] ∧ i.operand = 0)) := by
  have hfilter : written.filter (· != position) = none ↔
      ∀ addr ∈ written, addr = position := by
    simp [Option.filter_eq_none_iff]
  rw [instruction]
  cases hwritten : written.filter (· != position) with
  | some addr =>
    rw [← hfilter, hwritten]
    simp
  | none =>
    rw [and_iff_right (hfilter.mp hwritten)]
    cases hop : Opcode.ofMnemonic? mnemonic with
    | none => simp
    | some op =>
      simp only [Option.some.injEq]
      cases hoperand : op.hasOperand with
      | false =>
        simp only [Bool.false_eq_true, if_false]
        cases operands with
        | nil =>
          constructor
          · intro h
            cases h
            exact ⟨rfl, Or.inr ⟨hoperand, rfl, rfl⟩⟩
          · rintro ⟨rfl, ⟨htrue, -⟩ | ⟨-, -, hzero⟩⟩
            · rw [hoperand] at htrue
              cases htrue
            · exact congrArg (fun v => Except.ok (Instr.mk i.op v)) hzero.symm
        | cons field rest =>
          simp only [List.isEmpty_cons, Bool.false_eq_true, if_false,
            reduceCtorEq, false_iff]
          rintro ⟨rfl, ⟨htrue, -⟩ | ⟨-, hnil, -⟩⟩
          · rw [hoperand] at htrue
            cases htrue
          · cases hnil
      | true =>
        simp only [if_true]
        constructor
        · intro h
          rcases operands with _ | ⟨field, _ | ⟨other, operands⟩⟩
          · cases h
          · cases hvalue : operandValue labels line field with
            | error e =>
              simp only [hvalue] at h
              cases h
            | ok v =>
              simp only [hvalue] at h
              cases h
              exact ⟨rfl, Or.inl ⟨hoperand, field, rfl, hvalue⟩⟩
          · cases h
        · rintro ⟨rfl, ⟨-, field, rfl, hvalue⟩ | ⟨hfalse, -⟩⟩
          · simp only [hvalue]
          · rw [hoperand] at hfalse
            cases hfalse

theorem dataValues_line {fields : List Bytes} {vs : List Cell}
    (h : dataValues line fields = .ok vs) (other : Nat) :
    dataValues other fields = .ok vs := by
  induction fields generalizing vs with
  | nil => exact h
  | cons field fields ih =>
    rw [dataValues] at h ⊢
    cases hread : Numeral.readInt 64 field with
    | error e =>
      rw [hread] at h
      cases h
    | ok v =>
      rw [hread] at h
      cases hrest : dataValues line fields with
      | error e =>
        simp only [hrest] at h
        cases h
      | ok rest =>
        simp only [hrest] at h
        cases h
        simp only [ih hrest]

theorem operandValue_line {labels : Symbols} {v : Cell}
    (h : operandValue labels line field = .ok v) (other : Nat) :
    operandValue labels other field = .ok v :=
  operandValue_eq_ok_iff.mpr (operandValue_eq_ok_iff.mp h)

/-- What a line can add to a program. -/
theorem addLine_cases {labels : Symbols} {l : Line}
    (h : addLine labels q line l = .ok q') :
    (l = .blank ∧ q' = q) ∨ (∃ name, l = .label name ∧ q' = q) ∨
      (∃ field entry, l = .directive (text ".ENTRY") [field] ∧
        operandValue labels line field = .ok entry ∧ q' = { q with entry }) ∨
      (∃ fields vs, l = .directive (text ".DATA") fields ∧
        dataValues line fields = .ok vs ∧
        q' = { q with data := q.data ++ vs }) ∨
      (∃ written mnemonic operands i, l = .instr written mnemonic operands ∧
        instruction labels line q.code.size written mnemonic operands = .ok i ∧
        q' = { q with code := q.code.push i }) := by
  cases l with
  | blank =>
    cases h
    exact Or.inl ⟨rfl, rfl⟩
  | label name =>
    cases h
    exact Or.inr (Or.inl ⟨name, rfl, rfl⟩)
  | directive name operands =>
    right; right
    by_cases hentry : name = text ".ENTRY"
    · subst hentry
      match operands, h with
      | [field], h =>
        cases hvalue : operandValue labels line field with
        | error e =>
          simp only [addLine, hvalue, beq_self_eq_true, if_true] at h
          cases h
        | ok entry =>
          simp only [addLine, hvalue, beq_self_eq_true, if_true] at h
          cases h
          exact Or.inl ⟨field, entry, rfl, hvalue, rfl⟩
    by_cases hdata : name = text ".DATA"
    · subst hdata
      have hnot : (text ".DATA" == text ".ENTRY") = false := by decide
      cases hvalues : dataValues line operands with
      | error e =>
        simp only [addLine, hvalues, hnot, Bool.false_eq_true, if_false,
          beq_self_eq_true, if_true] at h
        cases h
      | ok vs =>
        simp only [addLine, hvalues, hnot, Bool.false_eq_true, if_false,
          beq_self_eq_true, if_true] at h
        cases h
        exact Or.inr (Or.inl ⟨operands, vs, rfl, hvalues, rfl⟩)
    · simp only [addLine, beq_eq_false_iff_ne.mpr hentry,
        beq_eq_false_iff_ne.mpr hdata, Bool.false_eq_true, if_false] at h
      cases h
  | instr written mnemonic operands =>
    right; right; right; right
    rw [addLine] at h
    cases hi :
      instruction labels line q.code.size written mnemonic operands with
    | error e =>
      rw [hi] at h
      cases h
    | ok i =>
      rw [hi] at h
      cases h
      exact ⟨written, mnemonic, operands, i, rfl, hi, rfl⟩

/-- What a line adds does not depend on its number. -/
theorem addLine_line {labels : Symbols} {l : Line}
    (h : addLine labels q line l = .ok q') (other : Nat) :
    addLine labels q other l = .ok q' := by
  rcases addLine_cases h with
      ⟨rfl, rfl⟩ | ⟨name, rfl, rfl⟩ | ⟨field, entry, rfl, hvalue, rfl⟩
      | ⟨fields, vs, rfl, hvalues, rfl⟩
      | ⟨written, mnemonic, operands, i, rfl, hi, rfl⟩
  · rfl
  · rfl
  · simp only [addLine, operandValue_line hvalue other,
      beq_self_eq_true, if_true]
  · have hnot : (text ".DATA" == text ".ENTRY") = false := by decide
    simp only [addLine, dataValues_line hvalues other, hnot, Bool.false_eq_true,
      if_false, beq_self_eq_true, if_true]
  · have hother :
        instruction labels other q.code.size written mnemonic operands =
          .ok i := by
      obtain ⟨hwritten, hop, hoperand⟩ := instruction_eq_ok_iff.mp hi
      refine instruction_eq_ok_iff.mpr ⟨hwritten, hop, hoperand.imp_left ?_⟩
      rintro ⟨hhas, field, hfield, hvalue⟩
      exact ⟨hhas, field, hfield, operandValue_line hvalue other⟩
    simp only [addLine, hother]

inductive Adds (labels : Symbols) : Program → List Line → Program → Prop
  | nil (q : Program) : Adds labels q [] q
  | cons {q q₁ q₂ : Program} {l : Line} {ls : List Line}
    (first : ∀ line, addLine labels q line l = .ok q₁)
    (rest : Adds labels q₁ ls q₂) : Adds labels q (l :: ls) q₂

theorem addLines_eq_iff {labels : Symbols} {ls : List Line} :
    addLines labels q (numbered line ls) = .ok q' ↔ Adds labels q ls q' := by
  induction ls generalizing q line with
  | nil =>
    constructor
    · intro h
      cases h
      exact .nil _
    · intro h
      cases h
      rfl
  | cons l ls ih =>
    rw [numbered, addLines]
    constructor
    · intro h
      cases hl : addLine labels q line l with
      | error e =>
        rw [hl] at h
        cases h
      | ok q₁ =>
        rw [hl] at h
        exact .cons (addLine_line hl) (ih.mp h)
    · intro h
      cases h with
      | cons first rest =>
        rw [first line]
        exact ih.mpr rest

/-- The code grows by one instruction for each line that holds one. -/
theorem Adds.size {labels : Symbols} {ls : List Line}
    (h : Adds labels q ls q') :
    q'.code.size = q.code.size + ls.countP Line.isInstr := by
  induction h with
  | nil => simp
  | @cons q q₁ q₂ l ls first rest ih =>
    rw [ih, List.countP_cons]
    rcases addLine_cases (first 0) with
        ⟨rfl, rfl⟩ | ⟨name, rfl, rfl⟩ | ⟨field, entry, rfl, hvalue, rfl⟩
        | ⟨fields, vs, rfl, hvalues, rfl⟩
        | ⟨written, mnemonic, operands, i, rfl, hi, rfl⟩
    · rfl
    · rfl
    · rfl
    · rfl
    · rw [Array.size_push, Line.isInstr, if_pos rfl, Nat.add_assoc,
        Nat.add_comm 1]

theorem Adds.funcs {labels : Symbols} {ls : List Line}
    (h : Adds labels q ls q') : q'.funcs = q.funcs := by
  induction h with
  | nil => rfl
  | @cons q q₁ q₂ l ls first rest ih =>
    rw [ih]
    rcases addLine_cases (first 0) with
        ⟨-, rfl⟩ | ⟨name, -, rfl⟩ | ⟨field, entry, -, hvalue, rfl⟩
        | ⟨fields, vs, -, hvalues, rfl⟩
        | ⟨written, mnemonic, operands, i, -, hi, rfl⟩ <;> rfl

/-- Only instructions that can be written are added. -/
theorem Adds.writable {labels : Symbols} {ls : List Line}
    (h : Adds labels q ls q') (hq : ∀ i ∈ q.code.toList, i.Writable) :
    ∀ i ∈ q'.code.toList, i.Writable := by
  induction h with
  | nil => exact hq
  | @cons q q₁ q₂ l ls first rest ih =>
    apply ih
    rcases addLine_cases (first 0) with
        ⟨-, rfl⟩ | ⟨name, -, rfl⟩ | ⟨field, entry, -, hvalue, rfl⟩
        | ⟨fields, vs, -, hvalues, rfl⟩
        | ⟨written, mnemonic, operands, i, -, hi, rfl⟩
    · exact hq
    · exact hq
    · exact hq
    · exact hq
    · obtain ⟨-, hop, hoperand⟩ := instruction_eq_ok_iff.mp hi
      intro j hj
      rw [Array.toList_push, List.mem_append, List.mem_singleton] at hj
      rcases hj with hj | rfl
      · exact hq j hj
      · refine ⟨List.mem_of_find?_eq_some hop, fun hnone => ?_⟩
        rcases hoperand with ⟨hhas, -⟩ | ⟨-, -, hzero⟩
        · rw [hnone] at hhas
          cases hhas
        · exact hzero

theorem checkTargets_eq_ok_iff {p : Program} :
    checkTargets p = .ok q ↔
      q = p ∧ (∀ i ∈ p.code.toList, i.jumpsOutside p.code.size = false) ∧
        (p.code.size ≠ 0 →
          0 ≤ p.entry.toInt ∧ p.entry.toInt < p.code.size) := by
  have hentry :
      ¬ (p.code.size ≠ 0 ∧
      (p.entry.toInt < 0 ∨ (p.code.size : Int) ≤ p.entry.toInt)) ↔
      (p.code.size ≠ 0 → 0 ≤ p.entry.toInt ∧ p.entry.toInt < p.code.size) := by
    omega
  rw [checkTargets, ← hentry, ← Instr.firstOutside_eq_none_iff 0]
  cases hfirst : Instr.firstOutside p.code.size 0 p.code.toList with
  | some e => simp
  | none =>
    simp only
    split
    next hout =>
      constructor
      · intro h
        cases h
      · rintro ⟨-, -, hin⟩
        exact absurd hout hin
    next hin =>
      constructor
      · intro h
        cases h
        exact ⟨rfl, trivial, hin⟩
      · rintro ⟨rfl, -⟩
        rfl

/-- The lines are assembled into a program: each is read, the labels are its
functions, and it is what the lines add up to. -/
structure Assembled (raws : List Bytes) (ls : List Line) (p : Program) :
    Prop where
  reads : List.Forall₂ Reads raws ls
  labels : Collects 0 {} ls p.funcs
  adds : Adds p.funcs { funcs := p.funcs } ls p
  jumps : ∀ i ∈ p.code.toList, i.jumpsOutside p.code.size = false
  entry : p.code.size ≠ 0 → 0 ≤ p.entry.toInt ∧ p.entry.toInt < p.code.size

namespace Assembled

variable {raws : List Bytes} {ls : List Line} {p : Program}

theorem size (h : Assembled raws ls p) :
    p.code.size = raws.countP isInstruction := by
  rw [h.adds.size, countP_isInstr h.reads]
  exact Nat.zero_add _

/-- The address of a label is the number of instructions before its line. -/
theorem get?_eq_some_iff (h : Assembled raws ls p) (name : Name) (addr : Cell) :
    p.funcs.get? name = some addr ↔
      ∃ before raw after, raws = before ++ raw :: after ∧
        labelOf? raw = some name ∧
        addr = Int64.ofNat (before.countP isInstruction) := by
  rw [h.labels.get?_eq_some_iff]
  constructor
  · rintro (hget | ⟨before, after, rfl, rfl⟩)
    · cases hget
    · obtain ⟨rb, raw, ra, hraws, hbefore, hl, -⟩ := reads_split_right h.reads
      refine ⟨rb, raw, ra, hraws, (hl.label_iff name).mp rfl, ?_⟩
      rw [Nat.zero_add, countP_isInstr hbefore]
  · rintro ⟨before, raw, after, rfl, hlabel, rfl⟩
    obtain ⟨lb, l, la, hls, hbefore, hl, -⟩ := reads_split_left h.reads
    refine Or.inr ⟨lb, la, ?_, ?_⟩
    · rw [hls, (hl.label_iff name).mpr hlabel]
    · rw [Nat.zero_add, countP_isInstr hbefore]

theorem isIdentifier (h : Assembled raws ls p) {name : Name} {addr : Cell}
    (hget : p.funcs.get? name = some addr) : isIdentifier name = true := by
  obtain hget | ⟨before, after, rfl, -⟩ :=
    (h.labels.get?_eq_some_iff name addr).mp hget
  · cases hget
  · obtain ⟨rb, raw, ra, -, -, hl, -⟩ := reads_split_right h.reads
    exact hl.isIdentifier

theorem writable (h : Assembled raws ls p) :
    ∀ i ∈ p.code.toList, i.Writable := by
  refine h.adds.writable fun i hi => ?_
  cases hi

end Assembled

end Assembler

/-- A program is the assembled one if and only if its lines are assembled into
it. -/
theorem Program.ofListing_eq_ok_iff {listing : Bytes} {p : Program} :
    ofListing listing = .ok p ↔
      ∃ ls, Assembler.Assembled (Bytes.lines listing) ls p := by
  rw [ofListing, Assembler.assemble]
  constructor
  · intro h
    cases hread : Assembler.readLines 1 (Bytes.lines listing) with
    | error e =>
      rw [hread] at h
      cases h
    | ok ls =>
      obtain ⟨plain, rfl, hreads⟩ := Assembler.readLines_eq_ok_iff.mp hread
      rw [hread] at h
      simp only at h
      rcases hcollect :
        Assembler.collectLabels 0 {} (Assembler.numbered 1 plain)
        with ⟨labels, _ | e⟩
      · cases hadd :
          Assembler.addLines labels { funcs := labels }
          (Assembler.numbered 1 plain) with
        | error e =>
          simp only [hcollect, hadd] at h
          cases h
        | ok q =>
          simp only [hcollect, hadd] at h
          obtain ⟨rfl, hjumps, hentry⟩ := Assembler.checkTargets_eq_ok_iff.mp h
          have hadds := Assembler.addLines_eq_iff.mp hadd
          have hfuncs : p.funcs = labels := hadds.funcs
          exact ⟨plain, hreads,
            hfuncs ▸ Assembler.collectLabels_eq_iff.mp hcollect, hfuncs ▸ hadds,
            hjumps, hentry⟩
      · simp only [hcollect] at h
        cases h
  · rintro ⟨ls, h⟩
    have hread :
        Assembler.readLines 1 (Bytes.lines listing) =
        .ok (Assembler.numbered 1 ls) :=
      Assembler.readLines_eq_ok_iff.mpr ⟨ls, rfl, h.reads⟩
    rw [hread]
    simp only [Assembler.collectLabels_eq_iff.mpr h.labels,
      Assembler.addLines_eq_iff.mpr h.adds]
    exact Assembler.checkTargets_eq_ok_iff.mpr ⟨rfl, h.jumps, h.entry⟩

end StackC
