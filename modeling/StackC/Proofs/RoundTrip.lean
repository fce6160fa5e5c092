import StackC.Proofs.Assembling

/-!
Which programs can be read back from their listings. A listing says nothing
about a function that stands at no instruction, and a name that is no identifier
does not stay a label, so exactly the programs without such functions, with
instructions that can be written and targets inside the code, come back as they
were. What an assembler makes of a listing is of this kind unless a label stands
behind the last instruction.
-/

namespace StackC

theorem Piece.eq_char_of_continuesName {p : Piece}
    (h : Assembler.continuesName p.toChar = true) : p = .char p.toChar := by
  cases p with
  | char c => rfl
  | stray b =>
    exact absurd (show Assembler.continuesName Piece.replacement = true
      from h) (by decide +kernel)

variable {name : Name}

namespace Assembler

/-- An identifier is well formed text: where text is not, it reads as a
character that no name has. -/
theorem isLabel_of_isIdentifier (h : isIdentifier name = true) :
    IsLabel name := by
  rw [isIdentifier] at h
  cases hchars : Utf8.chars name with
  | nil =>
    rw [hchars] at h
    cases h
  | cons c cs =>
    rw [hchars] at h
    obtain ⟨hc, hcs⟩ := Bool.and_eq_true_iff.mp h
    rw [List.all_eq_true] at hcs
    refine ⟨c, cs, ?_, hc, hcs⟩
    have hcontinues : ∀ d ∈ Utf8.chars name, continuesName d = true := by
      rw [hchars]
      exact List.forall_mem_cons.mpr ⟨continuesName_of_startsName hc, hcs⟩
    have hpieces : Utf8.pieces name = (Utf8.chars name).map .char := by
      rw [Utf8.chars, List.map_map]
      refine (List.map_id _).symm.trans (List.map_congr_left fun p hp => ?_)
      exact Piece.eq_char_of_continuesName
        (hcontinues _ (List.mem_map_of_mem hp))
    rw [← hchars, ← Utf8.join_map_char, ← hpieces, Utf8.join_pieces]

/-- Whether behind each line with a label there is one with an instruction. -/
def labelsFollowed : List Bytes → Bool
  | [] => true
  | raw :: raws =>
    (!endsInColon raw || raws.any isInstruction) && labelsFollowed raws

theorem any_of_labelsFollowed {before after : List Bytes} {raw : Bytes}
    (h : labelsFollowed (before ++ raw :: after) = true)
    (hcolon : endsInColon raw = true) : after.any isInstruction = true := by
  induction before with
  | nil =>
    have hfirst := (Bool.and_eq_true_iff.mp h).1
    rwa [hcolon] at hfirst
  | cons first before ih => exact ih (Bool.and_eq_true_iff.mp h).2

theorem endsInColon_of_labelOf? {raw : Bytes} (h : labelOf? raw = some name) :
    endsInColon raw = true := by
  rw [labelOf?] at h
  obtain ⟨hcolon, h⟩ := Option.ite_none_right_eq_some.mp h
  exact hcolon

end Assembler

namespace Program

/-- What a program has to be like to be read back from its listing. -/
structure Expressible (p : Program) : Prop where
  defined : ∀ i ∈ p.code.toList, i.op ∈ Opcode.defined
  noOperand : ∀ i ∈ p.code.toList, i.op.hasOperand = false → i.operand = 0
  jumps : ∀ i ∈ p.code.toList, i.op.isJump = true → 0 ≤ i.operand.toInt ∧
    i.operand.toInt < p.code.size
  entry : p.code.size ≠ 0 → 0 ≤ p.entry.toInt ∧ p.entry.toInt < p.code.size
  funcs : ∀ e ∈ p.funcs.entries, Assembler.isIdentifier e.1 = true ∧
    0 ≤ e.2.toInt ∧ e.2.toInt < p.code.size

instance (p : Program) : Decidable p.Expressible :=
  decidable_of_iff ((∀ i ∈ p.code.toList, i.op ∈ Opcode.defined) ∧
    (∀ i ∈ p.code.toList, i.op.hasOperand = false → i.operand = 0) ∧
    (∀ i ∈ p.code.toList, i.op.isJump = true → 0 ≤ i.operand.toInt ∧
      i.operand.toInt < p.code.size) ∧
      (p.code.size ≠ 0 → 0 ≤ p.entry.toInt ∧ p.entry.toInt < p.code.size) ∧
      ∀ e ∈ p.funcs.entries, Assembler.isIdentifier e.1 = true ∧ 0 ≤ e.2.toInt ∧
      e.2.toInt < p.code.size) ⟨fun ⟨h₁, h₂, h₃, h₄, h₅⟩ =>
      ⟨h₁, h₂, h₃, h₄, h₅⟩, fun h => ⟨h.1, h.2, h.3, h.4, h.5⟩⟩

variable {p : Program} {ls : List Assembler.Line}

theorem Expressible.listable (h : p.Expressible)
    (hsize : p.code.size < 2 ^ 63) : p.Listable where
  size := hsize
  writable i hi := ⟨h.defined i hi, h.noOperand i hi⟩
  jumps i hi := by
    cases hjump : i.op.isJump with
    | false => rw [Instr.jumpsOutside, hjump, Bool.false_and]
    | true =>
      obtain ⟨hlow, hhigh⟩ := h.jumps i hi hjump
      rw [Instr.jumpsOutside, hjump, Bool.true_and, Bool.or_eq_false_iff,
        decide_eq_false_iff_not, decide_eq_false_iff_not]
      exact ⟨Int.not_lt.mpr hlow, Int.not_le.mpr hhigh⟩
  entry := h.entry
  labels name addr hget := by
    obtain ⟨hname, hlow, hhigh⟩ :=
      h.funcs (name, addr) (Symbols.get?_eq_some_iff.mp hget)
    have hbelow : addr.toInt < p.code.size := hhigh
    refine ⟨Assembler.isLabel_of_isIdentifier hname,
      addr.toInt.toNat, by omega, ?_⟩
    rw [← Int64.ofInt_eq_ofNat, Int.toNat_of_nonneg hlow, Int64.ofInt_toInt]

/-- An assembled program can be expressed if its functions stand at
instructions. -/
theorem expressible_of_assembled {raws : List Bytes}
    (h : Assembler.Assembled raws ls p) (hsize : p.code.size < 2 ^ 63)
    (hfuncs : ∀ name addr, p.funcs.get? name = some addr → ∃ k < p.code.size,
      addr = Int64.ofNat k) : p.Expressible where
  defined i hi := (h.writable i hi).1
  noOperand i hi := (h.writable i hi).2
  jumps i hi hjump := by
    have hinside := h.jumps i hi
    rw [Instr.jumpsOutside, hjump, Bool.true_and, Bool.or_eq_false_iff,
      decide_eq_false_iff_not, decide_eq_false_iff_not] at hinside
    exact ⟨Int.not_lt.mp hinside.1, Int.not_le.mp hinside.2⟩
  entry := h.entry
  funcs e he := by
    have hget : p.funcs.get? e.1 = some e.2 := Symbols.get?_eq_some_iff.mpr he
    obtain ⟨k, hk, haddr⟩ := hfuncs e.1 e.2 hget
    rw [haddr, Int64.toInt_ofNat_of_lt (by omega)]
    exact ⟨h.isIdentifier hget, by omega, by omega⟩

/-- A program that is read back from its listing has no functions but those at
its instructions. -/
theorem funcs_of_ofListing_listing (hsize : p.code.size < 2 ^ 63)
    (h : Assembler.Assembled (Bytes.lines p.listing) ls p) {addr : Cell}
    (hget : p.funcs.get? name = some addr) :
    ∃ k < p.code.size, addr = Int64.ofNat k := by
  have hlabels : ∀ name addr, p.funcs.get? name = some addr →
      Assembler.IsLabel name :=
    fun _ _ hget => Assembler.isLabel_of_isIdentifier (h.isIdentifier hget)
  have hread := readsAs_listing hsize h.writable hlabels 0
  have hls :
      Assembler.readLines 0 (Bytes.lines p.listing) =
      .ok (Assembler.numbered 0 ls) :=
    Assembler.readLines_eq_ok_iff.mpr ⟨ls, rfl, h.reads⟩
  have hnumbered : Assembler.numbered 0 p.listed = Assembler.numbered 0 ls := by
    rw [hread] at hls
    exact Except.ok.inj hls
  obtain ⟨t, hcollect, hknown⟩ := collectLabels_listed hsize 0
  rw [hnumbered, Assembler.collectLabels_eq_iff.mpr h.labels] at hcollect
  cases hcollect
  exact ((hknown name addr).mp hget).2

/-- Behind a label that is followed by an instruction the code goes on. -/
theorem funcs_of_labelsFollowed {raws : List Bytes}
    (h : Assembler.Assembled raws ls p)
    (hfollowed : Assembler.labelsFollowed raws = true) {addr : Cell}
    (hget : p.funcs.get? name = some addr) :
    ∃ k < p.code.size, addr = Int64.ofNat k := by
  obtain ⟨before, raw, after, rfl, hlabel, rfl⟩ :=
    (h.get?_eq_some_iff name addr).mp hget
  have hany :=
    Assembler.any_of_labelsFollowed hfollowed
      (Assembler.endsInColon_of_labelOf? hlabel)
  have hpos : 0 < after.countP Assembler.isInstruction := by
    rw [List.countP_pos_iff]
    exact List.any_eq_true.mp hany
  refine ⟨_, ?_, rfl⟩
  rw [h.size, List.countP_append, List.countP_cons]
  omega

/-- Exactly the expressible programs are read back from their listings. What is
assembled from a listing in which every label is followed by an instruction is
such a program. -/
theorem listing_reads_back_iff_expressible (p : Program)
    (hsize : p.code.size < 2 ^ 63) :
    (ofListing p.listing = .ok p ↔ p.Expressible) ∧
      ∀ listing, Assembler.labelsFollowed (Bytes.lines listing) = true →
        ofListing listing = .ok p →
        p.Expressible ∧ ofListing p.listing = .ok p := by
  have hback : p.Expressible → ofListing p.listing = .ok p :=
    fun h => (h.listable hsize).ofListing_listing
  constructor
  · refine ⟨fun h => ?_, hback⟩
    obtain ⟨ls, hassembled⟩ := ofListing_eq_ok_iff.mp h
    exact expressible_of_assembled hassembled hsize fun _ _ =>
      funcs_of_ofListing_listing hsize hassembled
  · intro listing hfollowed h
    obtain ⟨ls, hassembled⟩ := ofListing_eq_ok_iff.mp h
    have hexpressible : p.Expressible :=
      expressible_of_assembled hassembled hsize fun _ _ =>
        funcs_of_labelsFollowed hassembled hfollowed
    exact ⟨hexpressible, hback hexpressible⟩

/-- A program with two functions at one instruction. -/
def twoNamed : Program where
  code := #[{ op := .push, operand := 7 }, { op := .ret }]
  data := #[0]
  funcs := (({} : Symbols).insert (text "start") 0).insert (text "main") 0

/-- A program with a function whose name would end its label's line. -/
def oddlyNamed : Program where
  code := #[{ op := .ret }]
  funcs := ({} : Symbols).insert (text "a:\nb") 0

theorem listing_reads_back_iff_expressible_named :
    ofListing twoNamed.listing = .ok twoNamed ∧
      ofListing
      (text "start: ; here\n.data 0\nmain:\n push 0x7\n\n1 Ret\n.ENTRY start") =
      .ok twoNamed ∧
      twoNamed.Expressible ∧ ofListing oddlyNamed.listing ≠ .ok oddlyNamed := by
  have hassembled :
      ofListing
      (text "start: ; here\n.data 0\nmain:\n push 0x7\n\n1 Ret\n.ENTRY start") =
      .ok twoNamed := by
    decide +kernel
  obtain ⟨hexpressible, hback⟩ :=
    (listing_reads_back_iff_expressible twoNamed (by decide)).2
      _ (by decide +kernel) hassembled
  refine ⟨hback, hassembled, hexpressible, ?_⟩
  rw [Ne, (listing_reads_back_iff_expressible oddlyNamed (by decide)).1]
  decide +kernel

end Program

end StackC
