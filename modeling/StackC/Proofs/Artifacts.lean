import StackC.Machine.Step
import StackC.Proofs.Acceptance
import StackC.Proofs.Derivations
import StackC.Proofs.Images
import StackC.Proofs.Tiling

/-!
Programs of source texts as files. The program of a source text has a listing
and an image, and reading either gives the program back, so a run of what was
read is a run of the program.
-/

namespace StackC

theorem Opcode.mem_defined {op : Opcode} (h : ∀ n hn, op ≠ .illegal n hn) :
    op ∈ defined := by
  cases op with
  | illegal n hn => exact absurd rfl (h n hn)
  | arith f => cases f <;> decide
  | _ => decide

variable {p : Program} {fs : List Function}

namespace Program

/-- The address of a function is the place of an instruction. -/
theorem Places.exists_addr (h : p.Places fs) {name : Name} {addr : Cell}
    (hget : p.funcs.get? name = some addr) :
    ∃ f ∈ fs, f.name = name ∧ ∃ k < p.code.size, addr = Int64.ofNat k := by
  obtain ⟨f, hf, rfl⟩ := (h.funcs name).mp (by rw [hget]; rfl)
  obtain ⟨first, last, hlaid⟩ := h.laid.exists_start hf
  refine ⟨f, hf, rfl, first, hlaid.start_lt, ?_⟩
  have hentry : (p.funcs.get? f.name).getD (-1) = Int64.ofNat first :=
    hlaid.entry
  rwa [hget] at hentry

/-- A program that is put together from functions can be listed if the names of
the functions can be labels. -/
theorem Places.listable (h : p.Places fs) (hsize : p.code.size < 2 ^ 63)
    (hnames : ∀ f ∈ fs, Assembler.IsLabel f.name) : p.Listable := by
  have hinstr : ∀ i ∈ p.code.toList, i.Writable ∧
      i.jumpsOutside p.code.size = false := by
    intro i hi
    obtain ⟨addr, haddr⟩ := List.mem_iff_getElem?.mp hi
    rw [Array.getElem?_toList] at haddr
    have hlt : addr < p.code.size := (Array.getElem?_eq_some_iff.mp haddr).1
    obtain ⟨j, hj, hdefined, hinside, hzero⟩ := h.laid.instr rfl hsize hlt
    cases hj.symm.trans haddr
    exact ⟨⟨Opcode.mem_defined hdefined, hzero⟩, hinside⟩
  constructor
  · exact hsize
  · exact fun i hi => (hinstr i hi).1
  · exact fun i hi => (hinstr i hi).2
  · intro _
    obtain ⟨f, -, -, k, hk, haddr⟩ := h.exists_addr h.entry
    rw [haddr]
    exact toInt_ofNat_inside hk hsize
  · intro name addr hget
    obtain ⟨f, hf, rfl, hplace⟩ := h.exists_addr hget
    exact ⟨hnames f hf, hplace⟩

end Program

/-- The functions of a source text have names that can be labels. -/
theorem isLabel_of_parse {src : Bytes} {ts : List Token}
    (hlex : lex src = .ok ts) (hparse : parse ts = .ok fs) {f : Function}
    (hf : f ∈ fs) : Assembler.IsLabel f.name := by
  obtain ⟨p, rest, rfl, rfl, -⟩ :=
    Grammar.derived_functions ts (Nat.le_refl _) hparse
  obtain ⟨t, ht, hkind, hname⟩ := Grammar.ProgramTree.exists_name hf rest
  have htiles := (lex_eq_ok_iff_tiles src _).mp hlex
  rcases htiles.spells t ht with hend | ⟨region, next, hspells⟩
  · cases hend.symm.trans hkind
  · exact hname ▸ hspells.isLabel hkind

/-- The program of a source text can be listed. -/
theorem listable_of_compileIn {s : Session} {fs? : Option FileSystem}
    {dir : Path} {src : Bytes} (h : compileIn s fs? dir src = .ok p)
    (hsize : p.code.size < 2 ^ 63) : p.Listable := by
  rw [compileIn] at h
  split at h
  next => cases h
  next expanded _ =>
    rw [compileExpanded] at h
    split at h
    next => cases h
    next ts hlex =>
      split at h
      next => cases h
      next fs hparse =>
        split at h
        next => cases h
        next q hprogram =>
          cases h
          exact (Program.places_of_ofFunctions hprogram hsize).listable hsize
            fun _ hf =>
            isLabel_of_parse hlex hparse hf

/-- The program of a source text, with any predefined macros and any files to
include, is read back from its listing and from its image, and so both run as
the program does: with the same machine at the end, hence the same output and
number of steps, and the same result. -/
theorem Program.artifacts_read_back {s : Session} {fs? : Option FileSystem}
    {dir : Path} {src : Bytes} {p : Program}
    (h : compileIn s fs? dir src = .ok p) (hsize : p.code.size < 2 ^ 63) :
    ofListing p.listing = .ok p ∧ Image.decode (Image.encode p) = .ok p ∧
      ∀ lim : Limits, (ofListing p.listing).map (·.run lim) = .ok (p.run lim) ∧
        (Image.decode (Image.encode p)).map (·.run lim) = .ok (p.run lim) := by
  have hlisting := (listable_of_compileIn h hsize).ofListing_listing
  have himage := Image.decode_encode p
  refine ⟨hlisting, himage, fun lim => ?_⟩
  rw [hlisting, himage]
  exact ⟨rfl, rfl⟩

/-- A text with a macro, a function whose name is not ASCII, and a format with a
semicolon in it. -/
def downwards : Bytes :=
  text "#define START 2\n" ++ text "int été(int n) \x7b return n - 1; \x7d\n" ++
    text "int main() \x7b\n  int n = START;\n" ++
    text "  while (n) \x7b printf(\"%d;\\n\", n); n = été(n); \x7d\n" ++
    text "  return n;\n\x7d\n"

def downwardsProgram : Program where
  code := #[ { op := .entry, operand := 0 },
    { op := .loadLocal, operand := -1 }, { op := .push, operand := 1 },
    { op := .arith .sub }, { op := .ret }, { op := .entry, operand := 1 },
    { op := .push, operand := 2 }, { op := .storeLocal, operand := 1 },
    { op := .loadLocal, operand := 1 }, { op := .jumpZero, operand := 18 },
    { op := .push, operand := 1 }, { op := .loadLocal, operand := 1 },
    { op := .printf, operand := 2 }, { op := .loadLocal, operand := 1 },
    { op := .frame, operand := 1 }, { op := .call, operand := 0 },
    { op := .storeLocal, operand := 1 }, { op := .jump, operand := 8 },
    { op := .loadLocal, operand := 1 }, { op := .ret }]
  data := #[0, 37, 100, 59, 10, 0]
  entry := 5
  funcs := .ofList [(text "été", 0), (mainName, 5)]

theorem compile_downwards : compile downwards = .ok downwardsProgram :=
  ok_of_toOption (by decide +kernel)

theorem Program.artifacts_read_back_downwards :
    compile downwards = .ok downwardsProgram ∧
      downwardsProgram.code.size < 2 ^ 63 ∧
      ofListing downwardsProgram.listing = .ok downwardsProgram ∧
      Image.decode (Image.encode downwardsProgram) = .ok downwardsProgram := by
  have hsize : downwardsProgram.code.size < 2 ^ 63 := by decide
  obtain ⟨hlisting, himage, -⟩ := artifacts_read_back compile_downwards hsize
  exact ⟨compile_downwards, hsize, hlisting, himage⟩

end StackC
