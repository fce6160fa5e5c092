import StackC.Proofs.Comments

/-!
A text without includes keeps its lines. A directive leaves an empty line, and
any other line becomes its expansion under the macros in force, which never
holds a newline. If a directive is faulty, the first one that is stops
expansion, and the error has the number of its line.
-/

namespace StackC

namespace Directive

/-- What is wrong with a directive, other than with the file that it
includes. -/
def fault? : Directive → Option SourceError
  | define rest =>
    match definition rest with
    | .ok _ => none
    | .error e => some e
  | unknown word => some (.unknownDirective word)
  | undefine _ | inclusion _ => none

/-- What is wrong with a line, if it is a directive. -/
def lineFault? (line : Bytes) : Option SourceError :=
  (ofLine? line).bind fault?

def isInclusion : Directive → Bool
  | inclusion _ => true
  | define _ | undefine _ | unknown _ => false

def includesFile (line : Bytes) : Bool :=
  (ofLine? line).any isInclusion

theorem includesFile_eq_true_iff {line : Bytes} :
    includesFile line = true ↔
      ∃ rest, ofLine? line = some (.inclusion rest) := by
  rw [includesFile]
  rcases ofLine? line with _ | _ | _ | _ | _ <;> simp [isInclusion]

end Directive

namespace Macros

def afterLine (t : Macros) (line : Bytes) : Macros :=
  match Directive.ofLine? line with
  | some (.define rest) =>
    match Directive.definition rest with
    | .ok (name, m) => t.insert name m
    | .error _ => t
  | some (.undefine name) => t.erase name
  | _ => t

def afterLines (t : Macros) (ls : List Bytes) : Macros :=
  ls.foldl afterLine t

/-- What a line leaves: nothing if it is a directive, its expansion
otherwise. -/
def lineOutput (t : Macros) (line : Bytes) : Bytes :=
  if (Directive.ofLine? line).isSome then [] else t.expand line

/-- What lines leave, each under the macros that those before it have put in
force. -/
def lineOutputs : Macros → List Bytes → List Bytes
  | _, [] => []
  | t, line :: ls => t.lineOutput line :: lineOutputs (t.afterLine line) ls

theorem length_lineOutputs (t : Macros) (ls : List Bytes) :
    (t.lineOutputs ls).length = ls.length := by
  induction ls generalizing t with
  | nil => rfl
  | cons line ls ih => rw [lineOutputs, List.length_cons, ih, List.length_cons]

theorem getElem?_lineOutputs {t : Macros} {ls : List Bytes} {k : Nat}
    {line : Bytes} (h : ls[k]? = some line) :
    (t.lineOutputs ls)[k]? =
      some ((t.afterLines (ls.take k)).lineOutput line) := by
  induction ls generalizing t k with
  | nil => cases h
  | cons first ls ih =>
    cases k with
    | zero =>
      cases h
      rfl
    | succ k => exact ih h

end Macros

namespace Session

variable {includeFile : Session → Bytes → Session × Except SourceError Bytes}
  {s : Session} {line : Bytes} {ls : List Bytes}

theorem expandLine_of_fault {e : SourceError}
    (h : Directive.lineFault? line = some e) :
    expandLine includeFile s line = (s, .error e) := by
  obtain ⟨d, hline, hfault⟩ := Option.bind_eq_some_iff.mp h
  rw [expandLine, hline]
  cases d with
  | define rest =>
    cases hdef : Directive.definition rest with
    | ok _ => simp [Directive.fault?, hdef] at hfault
    | error _ =>
      simp only [Directive.fault?, hdef, Option.some.injEq] at hfault
      simp only [hdef, hfault]
  | unknown word =>
    simp only [Directive.fault?, Option.some.injEq] at hfault
    simp only [hfault]
  | undefine _ | inclusion _ => cases hfault

theorem expandLine_of_valid (hinclude : Directive.includesFile line = false)
    (h : Directive.lineFault? line = none) :
    expandLine includeFile s line =
      ({ s with macros := s.macros.afterLine line },
        .ok (s.macros.lineOutput line)) := by
  rw [expandLine, Macros.afterLine, Macros.lineOutput]
  rw [Directive.lineFault?] at h
  rw [Directive.includesFile] at hinclude
  cases hline : Directive.ofLine? line with
  | none => rfl
  | some d =>
    rw [hline] at h hinclude
    rw [Option.bind_some] at h
    cases d with
    | define rest =>
      cases hdef : Directive.definition rest with
      | ok e => simp only [hdef, Option.isSome_some, if_true]
      | error e => simp [Directive.fault?, hdef] at h
    | unknown word => cases h
    | undefine name => rfl
    | inclusion rest => cases hinclude

/-- Lines without includes and faults leave what they are meant to. -/
theorem expandLines_of_valid (n : Nat)
    (hinclude : ∀ line ∈ ls, Directive.includesFile line = false)
    (h : ∀ line ∈ ls, Directive.lineFault? line = none) :
    expandLines includeFile n s ls =
      ({ s with macros := s.macros.afterLines ls },
        .ok (s.macros.lineOutputs ls)) := by
  induction ls generalizing n s with
  | nil => rfl
  | cons line ls ih =>
    obtain ⟨hline, hlines⟩ := List.forall_mem_cons.mp h
    obtain ⟨hfirst, hrest⟩ := List.forall_mem_cons.mp hinclude
    rw [expandLines, expandLine_of_valid hfirst hline]
    simp only [ih (n + 1) hrest hlines]
    rfl

/-- The first line with a fault ends expansion. -/
theorem expandLines_of_fault (n : Nat) {before after : List Bytes}
    {e : SourceError}
    (hinclude : ∀ line ∈ before, Directive.includesFile line = false)
    (hbefore : ∀ line ∈ before, Directive.lineFault? line = none)
    (h : Directive.lineFault? line = some e) :
    expandLines includeFile n s (before ++ line :: after) =
      ({ s with macros := s.macros.afterLines before },
        .error (.inLine (n + before.length) e)) := by
  induction before generalizing n s with
  | nil =>
    rw [List.nil_append, expandLines, expandLine_of_fault h]
    rfl
  | cons first before ih =>
    obtain ⟨hline, hlines⟩ := List.forall_mem_cons.mp hbefore
    obtain ⟨hfirst, hrest⟩ := List.forall_mem_cons.mp hinclude
    rw [List.cons_append, expandLines, expandLine_of_valid hfirst hline]
    simp only [ih (n + 1) hrest hlines, List.length_cons, Nat.add_assoc,
      Nat.add_comm 1]
    rfl

theorem exists_first_fault (ls : List Bytes) :
    (∀ line ∈ ls, Directive.lineFault? line = none) ∨
      ∃ before line after e, ls = before ++ line :: after ∧
        (∀ line ∈ before, Directive.lineFault? line = none) ∧
        Directive.lineFault? line = some e := by
  induction ls with
  | nil => exact Or.inl fun line hline => absurd hline List.not_mem_nil
  | cons first ls ih =>
    cases hfirst : Directive.lineFault? first with
    | some e =>
      exact Or.inr ⟨[], first, ls, e, rfl, fun line hline =>
        absurd hline List.not_mem_nil, hfirst⟩
    | none =>
      rcases ih with hvalid | ⟨before, line, after, e, rfl, hbefore, hline⟩
      · exact Or.inl (List.forall_mem_cons.mpr ⟨hfirst, hvalid⟩)
      · exact Or.inr ⟨first :: before, line, after, e, rfl,
          List.forall_mem_cons.mpr ⟨hfirst, hbefore⟩, hline⟩

/-- Neither macros nor what lines leave ever hold a newline. -/
theorem newline_not_mem_lineOutputs {t : Macros}
    (hinclude : ∀ line ∈ ls, Directive.includesFile line = false)
    (h : ∀ line ∈ ls, Directive.lineFault? line = none)
    (hmacros : ∀ e ∈ t, byte '\n' ∉ e.2.body)
    (hlines : ∀ line ∈ ls, byte '\n' ∉ line) :
    ∀ out ∈ t.lineOutputs ls, byte '\n' ∉ out := by
  induction ls generalizing t with
  | nil => exact fun out hout => absurd hout List.not_mem_nil
  | cons line ls ih =>
    obtain ⟨hvalid, h⟩ := List.forall_mem_cons.mp h
    obtain ⟨hfirst, hinclude⟩ := List.forall_mem_cons.mp hinclude
    obtain ⟨hline, hlines⟩ := List.forall_mem_cons.mp hlines
    have hone : ∀ b ∈ line, b ≠ byte '\n' := List.forall_mem_ne'.mpr hline
    have hbodies : ∀ e ∈ t, ∀ b ∈ e.2.body, b ≠ byte '\n' :=
      fun e he => List.forall_mem_ne'.mpr (hmacros e he)
    have hafter : ∀ e ∈ t.afterLine line, byte '\n' ∉ e.2.body := fun e he => by
      have hline : expandLine refuseFile { macros := t } line = _ :=
        expandLine_of_valid hfirst hvalid
      exact List.forall_mem_ne'.mp (all_expandLine hbodies hone hline e he)
    refine List.forall_mem_cons.mpr ⟨?_, ih hinclude h hafter hlines⟩
    rw [Macros.lineOutput]
    split
    · exact List.not_mem_nil
    · exact List.forall_mem_ne'.mp (Macros.all_expand hbodies hone)

/-- What includes do does not matter to a text without them. -/
theorem expand_eq (s : Session) (fs? : Option FileSystem) (dir : Path)
    (src : Bytes) :
    ∃ includeFile, s.expand fs? dir src = s.expandText includeFile src := by
  cases fs? with
  | none => exact ⟨_, rfl⟩
  | some fs => exact ⟨_, rfl⟩

/-- The lines of a text without includes keep their numbers, if no macro holds a
newline to begin with. The text is expanded unless one of its directives is
faulty. Then a directive leaves an empty line, and any other line is expanded
under the macros in force after the lines before it. Otherwise the error is that
of the first faulty directive, with the number of its line. -/
theorem lines_keep_their_numbers {s : Session} {src : Bytes}
    (fs? : Option FileSystem) (dir : Path)
    (hmacros : ∀ e ∈ s.macros, byte '\n' ∉ e.2.body)
    (hinclude : ∀ line ∈ Bytes.lines src, Directive.includesFile line = false) :
    ((∃ out, (s.expand fs? dir src).2 = .ok out) ↔
      ∀ line ∈ Bytes.lines src, Directive.lineFault? line = none) ∧
    (∀ out, (s.expand fs? dir src).2 = .ok out →
      (Bytes.lines out).length = (Bytes.lines src).length ∧
        ∀ k line, (Bytes.lines src)[k]? = some line →
          (Bytes.lines out)[k]? =
            some (if (Directive.ofLine? line).isSome then []
              else (s.macros.afterLines ((Bytes.lines src).take k)).expand
              line)) ∧
    ∀ e, (s.expand fs? dir src).2 = .error e →
      ∃ k line cause, (Bytes.lines src)[k]? = some line ∧
        Directive.lineFault? line = some cause ∧
        (∀ earlier ∈ (Bytes.lines src).take k,
          Directive.lineFault? earlier = none) ∧
        e = .inLine (k + 1) cause := by
  obtain ⟨includeFile, hexpand⟩ := expand_eq s fs? dir src
  rw [hexpand, expandText]
  rcases exists_first_fault (Bytes.lines src) with
      hvalid | ⟨before, line, after, cause, hsplit, hbefore, hline⟩
  · rw [expandLines_of_valid 1 hinclude hvalid]
    have hlines :
        Bytes.lines
        ([byte '\n'].intercalate (s.macros.lineOutputs (Bytes.lines src))) =
        s.macros.lineOutputs (Bytes.lines src) := by
      rw [Bytes.lines, Bytes.splitOn_eq]
      refine List.splitOn_intercalate _ ?_ ?_
      · exact newline_not_mem_lineOutputs hinclude hvalid hmacros
          fun line hline => Bytes.not_mem_of_mem_lines hline
      · intro hnil
        obtain ⟨before, hlast⟩ := Bytes.exists_lines src
        have hlength := Macros.length_lineOutputs s.macros (Bytes.lines src)
        rw [hnil, hlast, List.length_append] at hlength
        exact Nat.succ_ne_zero _ hlength.symm
    refine ⟨⟨fun _ => hvalid, fun _ => ⟨_, rfl⟩⟩, ?_, ?_⟩
    · rintro out ⟨⟩
      rw [hlines]
      exact ⟨Macros.length_lineOutputs _ _, fun k line hline =>
        Macros.getElem?_lineOutputs hline⟩
    · rintro e ⟨⟩
  · have hearlier : ∀ line ∈ before, Directive.includesFile line = false :=
      fun line hmem => hinclude line (hsplit ▸ List.mem_append_left _ hmem)
    rw [hsplit, expandLines_of_fault 1 hearlier hbefore hline]
    refine ⟨⟨?_, fun hvalid => ?_⟩, ?_, ?_⟩
    · rintro ⟨out, ⟨⟩⟩
    · rw [hvalid line (by simp)] at hline
      cases hline
    · rintro out ⟨⟩
    · rintro e ⟨⟩
      exact ⟨before.length, line, cause, by simp,
        hline, by simpa using hbefore, by rw [Nat.add_comm]⟩

/-- A macro with a parameter is used on the line after it, and a predefined name
is forgotten. -/
def forgotten : Bytes :=
  text "#define Q(x) x x\nQ(W)\n#undef W\nW"

/-- A directive that no one knows, and behind it a definition without a name. -/
def misspelled : Bytes :=
  text "Q\n#undefine W\n#define 3"

theorem lines_keep_their_numbers_forgotten :
    let s : Session := { macros := [(text "W", { body := text "2" })] }
    (∀ e ∈ s.macros, byte '\n' ∉ e.2.body) ∧
    (∀ line ∈ Bytes.lines forgotten, Directive.includesFile line = false) ∧
    (∀ line ∈ Bytes.lines misspelled, Directive.includesFile line = false) ∧
    (∃ out, (s.expand none Path.dot forgotten).2 = .ok out ∧
      (Bytes.lines out).length = 4 ∧ (Bytes.lines out)[1]? = some (text "2 2") ∧
      (Bytes.lines out)[2]? = some [] ∧
      (Bytes.lines out)[3]? = some (text "W")) ∧
      (s.expand none Path.dot misspelled).2 =
      .error (.inLine 2 (.unknownDirective (text "undefine"))) ∧ ∃ line,
      (Bytes.lines misspelled)[1]? = some line ∧
      Directive.lineFault? line = some (.unknownDirective (text "undefine")) ∧
      ∀ earlier ∈ (Bytes.lines misspelled).take 1,
      Directive.lineFault? earlier = none := by
  intro s
  have hmacros : ∀ e ∈ s.macros, byte '\n' ∉ e.2.body := by decide +kernel
  have hforgotten : ∀ line ∈ Bytes.lines forgotten,
      Directive.includesFile line = false := by decide +kernel
  have hmisspelled : ∀ line ∈ Bytes.lines misspelled,
      Directive.includesFile line = false := by decide +kernel
  have herror : (s.expand none Path.dot misspelled).2 =
      .error (.inLine 2 (.unknownDirective (text "undefine"))) := by
    decide +kernel
  refine ⟨hmacros, hforgotten, hmisspelled, ?_, herror, ?_⟩
  · obtain ⟨hok, hlines, -⟩ :=
      lines_keep_their_numbers none Path.dot hmacros hforgotten
    obtain ⟨out, hout⟩ := hok.mpr (by decide +kernel)
    obtain ⟨hlength, hline⟩ := hlines out hout
    refine ⟨out, hout, hlength.trans (by decide +kernel), ?_, ?_, ?_⟩
    · exact (hline 1 (text "Q(W)") (by decide +kernel)).trans
        (by decide +kernel)
    · exact (hline 2 (text "#undef W") (by decide +kernel)).trans
        (by decide +kernel)
    · exact (hline 3 (text "W") (by decide +kernel)).trans (by decide +kernel)
  · obtain ⟨-, -, hfails⟩ :=
      lines_keep_their_numbers none Path.dot hmacros hmisspelled
    obtain ⟨k, line, cause, hline, hfault, hearlier, heq⟩ := hfails _ herror
    obtain ⟨hk, rfl⟩ := SourceError.inLine.inj heq
    obtain rfl : k = 1 := by omega
    exact ⟨line, hline, hfault, hearlier⟩

end Session

end StackC
