import Mathlib.Data.List.TakeWhile
import StackC.Basic
import StackC.Emit.Expr
import StackC.Machine.Format

/-!
Formats, as the checker counts their verbs and as the machine expands them. A
format that the checker accepts is made of plain bytes, double percent signs and
verbs. The machine reads the same pieces from memory, up to the first zero byte,
so with one argument for each verb nothing can go wrong but reading the strings
among the arguments.
-/

namespace StackC

def HoldsString (memory : Array Cell) (addr : Nat) (s : Bytes) : Prop :=
  Pool.cells s <+: memory.toList.drop addr

instance (memory : Array Cell) (addr : Nat) (s : Bytes) :
    Decidable (HoldsString memory addr s) :=
  inferInstanceAs (Decidable (_ <+: _))

theorem Cell.lowByte_ofNat (b : UInt8) : lowByte (Int64.ofNat b.toNat) = b := by
  simp [lowByte]

theorem Cell.ofNat_eq_zero_iff (b : UInt8) :
    Int64.ofNat b.toNat = 0 ↔ b = 0 := by
  constructor
  · intro h
    have hbyte := lowByte_ofNat b
    rw [h] at hbyte
    exact hbyte.symm
  · rintro rfl
    rfl

variable {memory : Array Cell} {addr : Nat} {s : Bytes}

theorem getElem?_of_prefix {α : Type} {l l' : List α} {i : Nat} {a : α}
    (h : l <+: l') (ha : l[i]? = some a) : l'[i]? = some a := by
  obtain ⟨hi, rfl⟩ := List.getElem?_eq_some_iff.mp ha
  exact List.prefix_iff_getElem?.mp h i hi

theorem HoldsString.get? {i : Nat} {c : Cell} (h : HoldsString memory addr s)
    (hc : (Pool.cells s)[i]? = some c) : memory[addr + i]? = some c := by
  have hget : (memory.toList.drop addr)[i]? = some c := getElem?_of_prefix h hc
  rwa [List.getElem?_drop, Array.getElem?_toList] at hget

theorem HoldsString.first {b : UInt8} (h : HoldsString memory addr (b :: s)) :
    memory[addr]? = some (Int64.ofNat b.toNat) :=
  h.get? (i := 0) rfl

theorem HoldsString.rest {b : UInt8} (h : HoldsString memory addr (b :: s)) :
    HoldsString memory (addr + 1) s := by
  obtain ⟨rest, hrest⟩ := h
  refine ⟨rest, ?_⟩
  rw [← List.tail_drop, ← hrest]
  rfl

theorem HoldsString.lt_size (h : HoldsString memory addr s) :
    addr + s.length < memory.size := by
  have hclosing : memory[addr + s.length]? = some 0 :=
    h.get? (by simp [Pool.cells])
  exact (Array.getElem?_eq_some_iff.mp hclosing).1

/-- A string is read up to its first zero byte, or to its end. -/
theorem bytesFrom_of_holds {count : Nat} (h : HoldsString memory addr s)
    (hcount : s.length < count) :
    bytesFrom memory count addr = .ok (s.takeWhile (· != 0)) := by
  induction s generalizing addr count with
  | nil =>
    obtain ⟨count, rfl⟩ := Nat.exists_eq_add_of_lt hcount
    have hclosing : memory[addr]? = some 0 := h.get? (i := 0) rfl
    simp [bytesFrom, hclosing]
  | cons b s ih =>
    obtain ⟨left, rfl⟩ : ∃ left, count = left + 1 := ⟨count - 1, by omega⟩
    have hleft : s.length < left := by simpa using hcount
    rw [bytesFrom, h.first]
    by_cases hb : b = 0
    · simp [hb]
    · have hcell : ¬ Int64.ofNat b.toNat = 0 :=
        fun hzero => hb ((Cell.ofNat_eq_zero_iff b).mp hzero)
      simp only [hcell, if_false, ih h.rest hleft, Cell.lowByte_ofNat]
      simp [hb, Except.map]

variable {a : Cell} {f : Fault}

theorem stringAt_of_holds (ha : 0 < a.toInt)
    (h : HoldsString memory a.toInt.toNat s) :
    stringAt memory a = .ok (s.takeWhile (· != 0)) := by
  have hlt := h.lt_size
  have hne : a ≠ 0 := by
    rintro rfl
    exact absurd ha (by decide)
  have hinside : ¬ (a.toInt < 0 ∨ (memory.size : Int) ≤ a.toInt) := by omega
  simp only [stringAt, checkAddr, if_neg hne, if_neg hinside]
  exact bytesFrom_of_holds h (by omega)

theorem fault_of_checkAddr (h : checkAddr memory a = .error f) :
    f = .nullPointer ∨ f = .badAddress a := by
  simp only [checkAddr] at h
  split at h
  next =>
    cases h
    exact Or.inl rfl
  next =>
    split at h <;> cases h
    exact Or.inr rfl

theorem fault_of_bytesFrom {count : Nat}
    (h : bytesFrom memory count addr = .error f) : ∃ a, f = .badAddress a := by
  induction count generalizing addr with
  | zero =>
    cases h
    exact ⟨_, rfl⟩
  | succ count ih =>
    simp only [bytesFrom] at h
    split at h
    next =>
      cases h
      exact ⟨_, rfl⟩
    next =>
      split at h
      next => cases h
      next => exact ih (error_of_map h)

/-- Reading a string fails for the address of one of its cells only. -/
theorem fault_of_stringAt (h : stringAt memory a = .error f) :
    f = .nullPointer ∨ ∃ b, f = .badAddress b := by
  simp only [stringAt] at h
  split at h
  next hcheck =>
    cases h
    exact (fault_of_checkAddr hcheck).imp_right (fun hf => ⟨a, hf⟩)
  next => exact Or.inr (fault_of_bytesFrom h)

namespace Format

/-- The ways to show an argument. -/
inductive Verb where
  | decimal
  | unsigned
  | hexadecimal
  | char
  | string
  deriving DecidableEq, Repr

def Verb.letter : Verb → UInt8
  | .decimal => byte 'd'
  | .unsigned => byte 'u'
  | .hexadecimal => byte 'x'
  | .char => byte 'c'
  | .string => byte 's'

/-- An argument as a verb shows it; only a string has to be read. -/
def Verb.render (memory : Array Cell) : Verb → Cell → Except Fault Bytes
  | .decimal, v => .ok (Cell.decimal v)
  | .unsigned, v => .ok (Numeral.decimalNat v.toUInt64.toNat)
  | .hexadecimal, v => .ok (Numeral.hexNat v.toUInt64.toNat)
  | .char, v => .ok [Cell.lowByte v]
  | .string, v => stringAt memory v

/-- A piece of a format: a byte that stands for itself, a double percent sign,
or a verb. -/
inductive Piece where
  | literal (b : UInt8) (plain : b ≠ byte '%')
  | percent
  | verb (v : Verb)
  deriving DecidableEq, Repr

def Piece.spelling : Piece → Bytes
  | .literal b _ => [b]
  | .percent => [byte '%', byte '%']
  | .verb v => [byte '%', v.letter]

def Piece.verb? : Piece → Option Verb
  | .verb v => some v
  | _ => none

def Piece.isNul : Piece → Bool
  | .literal b _ => b == 0
  | _ => false

def spelling (ps : List Piece) : Bytes :=
  ps.flatMap Piece.spelling

def verbs (ps : List Piece) : List Verb :=
  ps.filterMap Piece.verb?

/-- The pieces before the first zero byte, where a string in memory ends. -/
def beforeNul (ps : List Piece) : List Piece :=
  ps.takeWhile (!·.isNul)

/-- Pieces with a text in place of each verb: a double percent sign becomes a
single one. -/
def fillIn : List Piece → List Bytes → Bytes
  | [], _ => []
  | .literal b _ :: ps, shown => b :: fillIn ps shown
  | .percent :: ps, shown => byte '%' :: fillIn ps shown
  | .verb _ :: ps, shown => shown.headD [] ++ fillIn ps shown.tail

/-- Arguments as verbs show them, each by its own. -/
def showAll (memory : Array Cell) :
    List Verb → List Cell → Except Fault (List Bytes)
  | verb :: verbs, v :: args =>
    match verb.render memory v with
    | .error f => .error f
    | .ok shown => (showAll memory verbs args).map (shown :: ·)
  | _, _ => .ok []

section
variable {b : UInt8} {plain : b ≠ byte '%'} {v : Verb} {p : Piece}
  {ps : List Piece}

@[simp] theorem spelling_literal :
    spelling (.literal b plain :: ps) = b :: spelling ps := rfl

@[simp] theorem spelling_percent :
    spelling (.percent :: ps) = byte '%' :: byte '%' :: spelling ps := rfl

@[simp] theorem spelling_verb :
    spelling (.verb v :: ps) = byte '%' :: v.letter :: spelling ps := rfl

@[simp] theorem verbs_literal : verbs (.literal b plain :: ps) = verbs ps := rfl

@[simp] theorem verbs_percent : verbs (.percent :: ps) = verbs ps := rfl

@[simp] theorem verbs_verb : verbs (.verb v :: ps) = v :: verbs ps := rfl

theorem Piece.spelling_of_isNul (h : p.isNul = true) : p.spelling = [0] := by
  cases p with
  | literal b plain =>
    rw [isNul, beq_iff_eq] at h
    rw [spelling, h]
  | percent | verb => cases h

theorem Piece.all_spelling (h : p.isNul = false) :
    p.spelling.all (· != 0) = true := by
  cases p with
  | literal b plain => simpa [spelling, isNul] using h
  | percent => rfl
  | verb v => cases v <;> rfl

end

theorem isVerb_letter (verb : Verb) : isVerb verb.letter = true := by
  cases verb <;> rfl

theorem exists_letter {b : UInt8} (h : isVerb b = true) :
    ∃ verb : Verb, verb.letter = b := by
  simp only [isVerb, Bool.or_eq_true, beq_iff_eq] at h
  rcases h with (((h | h) | h) | h) | h
  · exact ⟨.decimal, h.symm⟩
  · exact ⟨.unsigned, h.symm⟩
  · exact ⟨.hexadecimal, h.symm⟩
  · exact ⟨.char, h.symm⟩
  · exact ⟨.string, h.symm⟩

theorem letter_ne_percent (verb : Verb) :
    (verb.letter == byte '%') = false := by
  cases verb <;> rfl

/-- The checker counts the verbs of written pieces. -/
theorem countVerbs_spelling (ps : List Piece) :
    countVerbs (spelling ps) = .ok (verbs ps).length := by
  induction ps with
  | nil => rfl
  | cons p ps ih =>
    cases p with
    | literal b plain =>
      -- the equations look at two bytes, and only the first one is known here
      rw [spelling_literal, verbs_literal, countVerbs.eq_def]
      simp only [beq_iff_eq, plain, if_false, ih]
    | percent =>
      simp only [spelling_percent, verbs_percent, countVerbs, beq_self_eq_true,
        if_true, ih]
    | verb v =>
      simp only [spelling_verb, verbs_verb, countVerbs, beq_self_eq_true,
        if_true, letter_ne_percent, Bool.false_eq_true, if_false,
        isVerb_letter, ih]
      rfl

/-- A format that the checker accepts is written with pieces. -/
theorem exists_pieces {n : Nat} (h : countVerbs s = .ok n) :
    ∃ ps, spelling ps = s := by
  fun_induction countVerbs s generalizing n with
  | case1 => exact ⟨[], rfl⟩
  | case2 => cases h
  | case3 b hb v rest hv ih =>
    obtain ⟨ps, rfl⟩ := ih h
    rw [beq_iff_eq] at hb hv
    subst hb hv
    exact ⟨.percent :: ps, rfl⟩
  | case4 b hb v rest _ hv ih =>
    obtain ⟨m, hm, -⟩ := ok_of_map h
    obtain ⟨ps, rfl⟩ := ih hm
    obtain ⟨verb, rfl⟩ := exists_letter hv
    rw [beq_iff_eq] at hb
    subst hb
    exact ⟨.verb verb :: ps, rfl⟩
  | case5 => cases h
  | case6 b rest hb ih =>
    obtain ⟨ps, rfl⟩ := ih h
    rw [beq_iff_eq] at hb
    exact ⟨.literal b hb :: ps, rfl⟩

theorem showArg_letter (verb : Verb) (v : Cell) :
    showArg memory verb.letter v = verb.render memory v := by
  cases verb <;> rfl

variable {args : List Cell}

/-- The machine shows the arguments by the verbs in turn and fills them in, if
there are enough of them. -/
theorem expandFormat_spelling {used : Nat} {ps : List Piece}
    (h : (verbs ps).length ≤ args.length) :
    expandFormat memory used (spelling ps) args =
      (showAll memory (verbs ps) args).map (fillIn ps) := by
  induction ps generalizing used args with
  | nil => rfl
  | cons p ps ih =>
    cases p with
    | literal b plain =>
      have hplain : (b != byte '%') = true := by simpa using plain
      rw [spelling_literal, verbs_literal, expandFormat.eq_def]
      simp only [hplain, if_true, ih h]
      cases showAll memory (verbs ps) args <;> rfl
    | percent =>
      simp only [spelling_percent, verbs_percent, expandFormat,
        bne_self_eq_false, Bool.false_eq_true, if_false, beq_self_eq_true,
        if_true, ih h]
      cases showAll memory (verbs ps) args <;> rfl
    | verb verb =>
      cases args with
      | nil => cases h
      | cons v args =>
        have hrest : (verbs ps).length ≤ args.length := Nat.le_of_succ_le_succ h
        simp only [spelling_verb, verbs_verb, expandFormat, bne_self_eq_false,
          Bool.false_eq_true, if_false, letter_ne_percent, showArg_letter,
          showAll, ih hrest]
        cases verb.render memory v with
        | error f => rfl
        | ok shown => cases showAll memory (verbs ps) args <;> rfl

/-- A zero byte is a piece of its own, so a format that is read up to it ends
between two pieces. -/
theorem takeWhile_spelling (ps : List Piece) :
    (spelling ps).takeWhile (· != 0) = spelling (beforeNul ps) := by
  induction ps with
  | nil => rfl
  | cons p ps ih =>
    rw [spelling, List.flatMap_cons]
    cases hp : p.isNul with
    | true =>
      rw [Piece.spelling_of_isNul hp, beforeNul, List.takeWhile_cons, hp]
      rfl
    | false =>
      rw [List.takeWhile_append_of_pos
        (List.all_eq_true.mp (Piece.all_spelling hp)), beforeNul,
        List.takeWhile_cons, hp]
      exact congrArg (p.spelling ++ ·) ih

theorem verbs_beforeNul (ps : List Piece) : verbs (beforeNul ps) <+: verbs ps :=
  List.IsPrefix.filterMap Piece.verb? <| List.takeWhile_prefix _

/-- Showing fails at a string only, with the fault of reading it. -/
theorem error_of_showAll {vs : List Verb}
    (h : showAll memory vs args = .error f) :
    ∃ (i : Nat) (v : Cell), vs[i]? = some .string ∧ args[i]? = some v ∧
      stringAt memory v = .error f := by
  induction vs generalizing args with
  | nil => cases h
  | cons verb vs ih =>
    cases args with
    | nil => cases h
    | cons v args =>
      simp only [showAll] at h
      split at h
      next hrender =>
        cases h
        cases verb with
        | string => exact ⟨0, v, rfl, rfl, hrender⟩
        | decimal | unsigned | hexadecimal | char => cases hrender
      next =>
        obtain ⟨i, w, hi⟩ := ih (error_of_map h)
        exact ⟨i + 1, w, hi⟩

/-- What is shown: a text for each argument, by the verb in the same place. -/
theorem ok_of_showAll {vs : List Verb} {shown : List Bytes}
    (h : showAll memory vs args = .ok shown)
    (hlength : vs.length = args.length) :
    shown.length = args.length ∧
      ∀ (i : Nat) (verb : Verb) (v : Cell), vs[i]? = some verb →
        args[i]? = some v →
        ∃ t, shown[i]? = some t ∧ verb.render memory v = .ok t := by
  induction vs generalizing args shown with
  | nil =>
    cases h
    refine ⟨hlength, ?_⟩
    intro i verb v hverb
    cases hverb
  | cons verb vs ih =>
    cases args with
    | nil => cases hlength
    | cons v args =>
      simp only [showAll] at h
      split at h
      next => cases h
      next t hrender =>
        obtain ⟨texts, hshow, rfl⟩ := ok_of_map h
        obtain ⟨hcount, htexts⟩ := ih hshow (Nat.succ.inj hlength)
        refine ⟨congrArg (· + 1) hcount, ?_⟩
        intro i other w hother hw
        cases i with
        | zero =>
          cases hother
          cases hw
          exact ⟨t, rfl, hrender⟩
        | succ i => exact htexts i other w hother hw

theorem formatAt_spelling {ps : List Piece} (ha : 0 < a.toInt)
    (h : HoldsString memory a.toInt.toNat (spelling ps))
    (hargs : (verbs ps).length ≤ args.length) :
    formatAt memory a args = (showAll memory (verbs (beforeNul ps)) args).map
      (fillIn (beforeNul ps)) := by
  have hfewer := (verbs_beforeNul ps).length_le
  rw [formatAt, stringAt_of_holds ha h, takeWhile_spelling]
  exact expandFormat_spelling (Nat.le_trans hfewer hargs)

/-- Without a zero byte every piece is read. -/
theorem beforeNul_eq_self {ps : List Piece} (h : 0 ∉ spelling ps) :
    beforeNul ps = ps := by
  rw [beforeNul, List.takeWhile_eq_self_iff]
  intro p hp
  by_contra hnul
  have hspelling : p.spelling = [0] :=
    Piece.spelling_of_isNul (by simpa using hnul)
  exact h (List.mem_flatMap.mpr ⟨p, hp, by simp [hspelling]⟩)

/-- Formats are expanded as they are checked: with as many arguments as the
checker counts, expansion fails only where an argument for `%s` cannot be read
as a string, and if the format has no zero byte its text is the format with each
verb replaced by its argument, in order, and each double percent sign by a
single one. -/
theorem expansion_agrees_with_check {memory : Array Cell} {s : Bytes} {a : Cell}
    {args : List Cell} (hcount : countVerbs s = .ok args.length)
    (ha : 0 < a.toInt) (hs : HoldsString memory a.toInt.toNat s) :
    (∃ ps, spelling ps = s) ∧
      ∀ ps, spelling ps = s →
        (verbs ps).length = args.length ∧
          (∀ f, formatAt memory a args = .error f →
            (∀ k, f ≠ .missingArgument k) ∧ (∀ b, f ≠ .unknownVerb b) ∧
              ∃ (i : Nat) (v : Cell), (verbs ps)[i]? = some .string ∧
                args[i]? = some v ∧ stringAt memory v = .error f) ∧
          (0 ∉ s →
            ∀ text, formatAt memory a args = .ok text →
              ∃ shown, shown.length = args.length ∧
                (∀ (i : Nat) (verb : Verb) (v : Cell),
                  (verbs ps)[i]? = some verb →
                  args[i]? = some v →
                  ∃ t, shown[i]? = some t ∧ verb.render memory v = .ok t) ∧
                text = fillIn ps shown) := by
  refine ⟨exists_pieces hcount, ?_⟩
  rintro ps rfl
  have hlength : (verbs ps).length = args.length := by
    rw [countVerbs_spelling] at hcount
    exact Except.ok.inj hcount
  have hformat := formatAt_spelling ha hs (Nat.le_of_eq hlength)
  refine ⟨hlength, ?_, ?_⟩
  · intro f hf
    -- a zero byte may end the format early, but the verbs before it keep their
    -- places
    rw [hformat] at hf
    obtain ⟨i, v, hverb, hv, hread⟩ := error_of_showAll (error_of_map hf)
    have hverb' : (verbs ps)[i]? = some .string :=
      getElem?_of_prefix (verbs_beforeNul ps) hverb
    have hfault := fault_of_stringAt hread
    refine ⟨?_, ?_, i, v, hverb', hv, hread⟩
    · rintro k rfl
      simp at hfault
    · rintro b rfl
      simp at hfault
  · intro hnul text htext
    rw [hformat, beforeNul_eq_self hnul] at htext
    obtain ⟨shown, hshow, rfl⟩ := ok_of_map htext
    obtain ⟨hshown, htexts⟩ := ok_of_showAll hshow hlength
    exact ⟨shown, hshown, htexts, rfl⟩

/-- `%s=%d%%`, in pieces. -/
def share : List Piece :=
  [.verb .string, .literal (byte '=') (by decide), .verb .decimal, .percent]

/-- A memory with the format from cell 1 on and the string `hi` from cell 9
on. -/
def shareMemory : Array Cell :=
  (0 :: Pool.cells (spelling share) ++ Pool.cells [byte 'h', byte 'i']).toArray

/-- Two arguments are printed; a null address for the string is a fault. -/
theorem expansion_agrees_with_check_share :
    countVerbs (spelling share) = .ok 2 ∧ (0 : Int) < (1 : Cell).toInt ∧
      HoldsString shareMemory (1 : Cell).toInt.toNat (spelling share) ∧
      formatAt shareMemory 1 [9, 42] =
        .ok [byte 'h', byte 'i', byte '=', byte '4', byte '2', byte '%'] ∧
      (∃ shown : List Bytes, shown.length = 2 ∧
        [byte 'h', byte 'i', byte '=', byte '4', byte '2', byte '%'] =
          fillIn share shown) ∧
      formatAt shareMemory 1 [0, 42] = .error .nullPointer ∧
      ∃ (i : Nat) (v : Cell), (verbs share)[i]? = some .string ∧
        [0, 42][i]? = some v ∧
        stringAt shareMemory v = .error .nullPointer := by
  have hcount : countVerbs (spelling share) = .ok 2 := by decide +kernel
  have hpositive : (0 : Int) < (1 : Cell).toInt := by decide
  have hholds :
      HoldsString shareMemory (1 : Cell).toInt.toNat (spelling share) := by
        decide +kernel
  have hprinted :
      formatAt shareMemory 1 [9, 42] = .ok [byte 'h', byte 'i', byte '=',
      byte '4', byte '2', byte '%'] := by decide +kernel
  have hnull : formatAt shareMemory 1 [0, 42] = .error .nullPointer := by
    decide +kernel
  obtain ⟨-, hpieces⟩ :=
    @expansion_agrees_with_check shareMemory (spelling share) 1 [9, 42] hcount
      hpositive hholds
  obtain ⟨-, -, htext⟩ := hpieces share rfl
  obtain ⟨shown, hlength, -, hshown⟩ := htext (by decide +kernel) _ hprinted
  obtain ⟨-, hpieces'⟩ :=
    @expansion_agrees_with_check shareMemory (spelling share) 1 [0, 42] hcount
      hpositive hholds
  obtain ⟨-, hfault, -⟩ := hpieces' share rfl
  exact ⟨hcount, hpositive, hholds, hprinted, ⟨shown, hlength, hshown⟩, hnull,
    (hfault _ hnull).2.2⟩

end Format

end StackC
