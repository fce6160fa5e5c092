import StackC.Compile
import StackC.Proofs.Expansion
import StackC.Proofs.Scanning
import StackC.Proofs.Texts

/-!
Line comments. Only the scanner knows comments; expansion takes them for text.
So a comment is without meaning if its line is no directive, if it closes no
arguments, and if it begins in code once what stands before it is expanded. In a
text without directives any comment that begins in code is such a comment.
-/

namespace StackC

variable {before after : List Bytes} {src : Bytes}

namespace Bytes

variable {s : Bytes}

theorem not_mem_of_mem_splitOn {sep : UInt8} {piece : Bytes}
    (h : piece ∈ splitOn sep s) : sep ∉ piece := by
  induction s generalizing piece with
  | nil =>
    rw [List.mem_singleton.mp h]
    exact List.not_mem_nil
  | cons b s ih =>
    rw [splitOn] at h
    split at h
    next =>
      rcases List.mem_cons.mp h with rfl | h
      · exact List.not_mem_nil
      · exact ih h
    next hb =>
      have hcons {piece : Bytes} (hpiece : sep ∉ piece) : sep ∉ b :: piece := by
        rw [List.mem_cons]
        exact not_or.mpr ⟨Ne.symm hb, hpiece⟩
      cases hpieces : splitOn sep s with
      | nil =>
        rw [hpieces] at h
        rw [List.mem_singleton.mp h]
        exact hcons List.not_mem_nil
      | cons first rest =>
        rw [hpieces] at h ih
        rcases List.mem_cons.mp h with rfl | h
        · exact hcons (ih List.mem_cons_self)
        · exact ih (List.mem_cons_of_mem first h)

theorem intercalate_cons (sep : UInt8) (line : Bytes) (after : List Bytes) :
    [sep].intercalate (line :: after) = line ++ after.flatMap (sep :: ·) := by
  induction after generalizing line with
  | nil => simp
  | cons next after ih => rw [List.intercalate_cons_cons, ih]; simp

theorem intercalate_append (sep : UInt8) (before : List Bytes)
    (line rest : Bytes) (after : List Bytes) :
    [sep].intercalate (before ++ (line ++ rest) :: after) = [sep].intercalate
      (before ++ [line]) ++ [sep].intercalate (rest :: after) := by
  cases before with
  | nil =>
    simp only [List.nil_append, intercalate_cons, List.flatMap_nil,
      List.append_nil, List.append_assoc]
  | cons first before => simp [intercalate_cons]

theorem intercalate_lines (s : Bytes) :
    [byte '\n'].intercalate (lines s) = s := by
  rw [lines, splitOn_eq, List.intercalate_splitOn]

theorem not_mem_of_mem_lines {line : Bytes} (h : line ∈ lines s) :
    byte '\n' ∉ line :=
  not_mem_of_mem_splitOn h

theorem lines_of_not_mem (h : byte '\n' ∉ s) : lines s = [s] := by
  rw [lines, splitOn_eq]
  exact List.splitOn_eq_singleton h

/-- The last line of a text goes on with the first line of what follows. -/
theorem lines_append {t last first : Bytes} (hs : lines s = before ++ [last])
    (ht : lines t = first :: after) :
    lines (s ++ t) = before ++ (last ++ first) :: after := by
  rw [← intercalate_lines s, ← intercalate_lines t, hs, ht,
    ← intercalate_append, lines, splitOn_eq,
    List.splitOn_intercalate _ ?_ (by simp)]
  intro line hline
  rcases List.mem_append.mp hline with hline | hline
  · exact not_mem_of_mem_lines (hs ▸ List.mem_append_left [last] hline)
  rcases List.mem_cons.mp hline with rfl | hline
  · rw [List.mem_append]
    exact not_or.mpr
      ⟨not_mem_of_mem_lines
        (hs ▸ List.mem_append_right before List.mem_cons_self),
        not_mem_of_mem_lines (ht ▸ List.mem_cons_self)⟩
  · exact not_mem_of_mem_lines (ht ▸ List.mem_cons_of_mem first hline)

/-- The line at the end of a text, on which what follows goes on. -/
def lastLine (s : Bytes) : Bytes :=
  (lines s).getLast?.getD []

theorem exists_lines (s : Bytes) :
    ∃ before, lines s = before ++ [lastLine s] := by
  rcases List.eq_nil_or_concat (lines s) with hnil | ⟨before, last, hconcat⟩
  · rw [lines, splitOn_eq] at hnil
    exact absurd hnil (List.splitOn_ne_nil _ s)
  · refine ⟨before, ?_⟩
    rw [lastLine, hconcat, List.concat_eq_append, List.getLast?_append]
    rfl

end Bytes

namespace Directive

/-- A line is a directive if its first mark is a `#`. -/
theorem ofLine?_eq_none_iff {line : Bytes} :
    ofLine? line = none ↔
      ((Utf8.pieces line).dropWhile Piece.isBlank).head? ≠
        some (.char '#') := by
  rw [← Bytes.head?_trimmed, ← Bytes.pieces_trim, ofLine?]
  cases htrim : line.trim with
  | nil => simp [Utf8.pieces]
  | cons b s =>
    by_cases hb : b = byte '#'
    · have hpieces : Utf8.pieces (byte '#' :: s) = .char '#' :: Utf8.pieces s :=
        Utf8.pieces_one (by decide) s
      simp [hb, hpieces]
    · have hpiece : (Utf8.pieces (b :: s)).head? ≠ some (.char '#') := by
        intro hhead
        obtain ⟨ps, hps⟩ := List.head?_eq_some_iff.mp hhead
        have hjoin := Utf8.join_pieces (b :: s)
        rw [hps] at hjoin
        exact hb (List.cons.inj hjoin).1.symm
      simp [hb, hpiece]

variable {s : Bytes}

/-- A line with a comment is a directive if the line without it is. -/
theorem ofLine?_of_append {t : Bytes} (ht : Utf8.StartsApart t)
    (h : ofLine? (s ++ t) = none) : ofLine? s = none := by
  rw [ofLine?_eq_none_iff] at h ⊢
  rw [Utf8.pieces_append ht, List.dropWhile_append] at h
  split at h
  next hempty =>
    simp [List.isEmpty_iff.mp hempty]
  next hne =>
    rw [List.head?_append_of_ne_nil _ (by simpa using hne)] at h
    exact h

variable {P : UInt8 → Prop}

theorem all_cut (sep : UInt8) (h : ∀ b ∈ s, P b) :
    (∀ b ∈ (Bytes.cut sep s).1, P b) ∧ ∀ b ∈ (Bytes.cut sep s).2, P b := by
  obtain ⟨htake, hdrop⟩ := Macro.all_run (· != sep) h
  exact ⟨htake, fun b hb => hdrop b (List.mem_of_mem_drop hb)⟩

theorem all_trim (h : ∀ b ∈ s, P b) : ∀ b ∈ Bytes.trim s, P b :=
  fun b hb => h b (Bytes.mem_of_mem_trim hb)

theorem all_ofLine? {line rest : Bytes} (h : ∀ b ∈ line, P b)
    (hline : ofLine? line = some (.define rest)) : ∀ b ∈ rest, P b := by
  rw [ofLine?] at hline
  cases htrim : line.trim with
  | nil => simp [htrim] at hline
  | cons b s =>
    have hs : ∀ b ∈ s, P b :=
      fun c hc => all_trim h c (htrim ▸ List.mem_cons_of_mem b hc)
    simp only [htrim] at hline
    obtain ⟨-, hline⟩ := Option.ite_none_right_eq_some.mp hline
    split at hline
    · cases hline
      exact all_trim (all_cut (byte ' ') (all_trim hs)).2
    · split at hline
      · cases hline
      · split at hline <;> cases hline

theorem all_definition {rest : Bytes} {name : Name} {m : Macro}
    (h : ∀ b ∈ rest, P b) (hdef : definition rest = .ok (name, m)) :
    ∀ b ∈ m.body, P b := by
  obtain ⟨-, hafter⟩ := Macro.all_run Macro.inName h
  rw [definition] at hdef
  obtain ⟨-, hdef⟩ := ok_of_then hdef
  cases hrest : rest.dropWhile Macro.inName with
  | nil =>
    rw [hrest] at hdef
    cases hdef
    exact fun b hb => absurd hb List.not_mem_nil
  | cons b s =>
    rw [hrest] at hdef hafter
    simp only at hdef
    split at hdef
    next =>
      obtain ⟨-, hdef⟩ := ok_of_then hdef
      cases hdef
      exact all_trim (all_cut (byte ')') (List.forall_mem_cons.mp hafter).2).2
    next =>
      cases hdef
      exact all_trim hafter

end Directive

namespace Session

variable {includeFile : Session → Bytes → Session × Except SourceError Bytes}
  {s s' : Session}

/-- The expansion of lines when nothing fails: the session behind them and what
each line leaves. -/
inductive Expands
    (includeFile : Session → Bytes → Session × Except SourceError Bytes) :
    Session → List Bytes → Session → List Bytes → Prop where
  | nil (s : Session) : Expands includeFile s [] s []
  | cons {s s₁ s' : Session} {line out : Bytes} {ls outs : List Bytes}
    (hline : expandLine includeFile s line = (s₁, .ok out))
    (hlines : Expands includeFile s₁ ls s' outs) :
    Expands includeFile s (line :: ls) s' (out :: outs)

variable {ls outs : List Bytes} {out line : Bytes}

theorem expandLines_eq_ok_iff {n : Nat} :
    expandLines includeFile n s ls = (s', .ok outs) ↔
      Expands includeFile s ls s' outs := by
  constructor
  · intro h
    induction ls generalizing n s outs with
    | nil =>
      cases h
      exact .nil s'
    | cons line ls ih =>
      rw [expandLines] at h
      split at h
      next => cases h
      next s₁ out hline =>
        split at h
        next => cases h
        next s₂ outs' hlines =>
          cases h
          exact .cons hline (ih hlines)
  · intro h
    induction h generalizing n with
    | nil s => rfl
    | cons hline _ ih => simp only [expandLines, hline, ih]

theorem expandText_eq_ok_iff :
    expandText includeFile s src = (s', .ok out) ↔
      ∃ outs, Expands includeFile s (Bytes.lines src) s' outs ∧
        [byte '\n'].intercalate outs = out := by
  rw [expandText]
  simp only [← expandLines_eq_ok_iff (n := 1)]
  split
  next s₁ e h => simp [h]
  next s₁ outs h => simp [h]

theorem expands_append {as bs : List Bytes} :
    Expands includeFile s (as ++ bs) s' outs ↔
      ∃ mid before after, Expands includeFile s as mid before ∧
        Expands includeFile mid bs s' after ∧ outs = before ++ after := by
  constructor
  · intro h
    induction as generalizing s outs with
    | nil => exact ⟨s, [], outs, .nil s, h, rfl⟩
    | cons line as ih =>
      cases h with
      | cons hline hlines =>
        obtain ⟨mid, before, after, hbefore, hafter, rfl⟩ := ih hlines
        exact ⟨mid, _ :: before, after, .cons hline hbefore, hafter, rfl⟩
  · rintro ⟨mid, before, after, hbefore, hafter, rfl⟩
    induction hbefore with
    | nil s => exact hafter
    | cons hline _ ih => exact .cons hline (ih hafter)

theorem expandLine_of_plain (h : Directive.ofLine? line = none) :
    expandLine includeFile s line = (s, .ok (s.macros.expand line)) := by
  rw [expandLine, h]

/-- A plain line is expanded under the macros in force and changes nothing for
the lines after it. -/
theorem expands_plain (h : Directive.ofLine? line = none) :
    Expands includeFile s (line :: ls) s' outs ↔
      ∃ after, Expands includeFile s ls s' after ∧
        outs = s.macros.expand line :: after := by
  constructor
  · rintro (_ | ⟨hline, hlines⟩)
    cases (expandLine_of_plain h).symm.trans hline
    exact ⟨_, hlines, rfl⟩
  · rintro ⟨after, hafter, rfl⟩
    exact .cons (expandLine_of_plain h) hafter

variable {P : UInt8 → Prop}

/-- Without files, a line makes macros from bytes of its own only. -/
theorem all_expandLine (hmacros : ∀ e ∈ s.macros, ∀ b ∈ e.2.body, P b)
    (hline : ∀ b ∈ line, P b)
    (h : expandLine refuseFile s line = (s', .ok out)) :
    ∀ e ∈ s'.macros, ∀ b ∈ e.2.body, P b := by
  rw [expandLine] at h
  split at h
  next =>
    cases h
    exact hmacros
  next rest hdirective =>
    split at h
    next => cases h
    next name m hdef =>
      cases h
      intro e he
      rcases List.mem_cons.mp he with rfl | he
      · exact Directive.all_definition
          (Directive.all_ofLine? hline hdirective) hdef
      · exact hmacros e (List.mem_of_mem_filter he)
  next =>
    cases h
    exact fun e he => hmacros e (List.mem_of_mem_filter he)
  next rest hdirective =>
    rw [refuseFile] at h
    split at h <;> cases h
  next => cases h

theorem Expands.all_macros (h : Expands refuseFile s ls s' outs)
    (hmacros : ∀ e ∈ s.macros, ∀ b ∈ e.2.body, P b)
    (hlines : ∀ line ∈ ls, ∀ b ∈ line, P b) :
    ∀ e ∈ s'.macros, ∀ b ∈ e.2.body, P b := by
  induction h with
  | nil s => exact hmacros
  | cons hline _ ih =>
    obtain ⟨hfirst, hrest⟩ := List.forall_mem_cons.mp hlines
    exact ih (all_expandLine hmacros hfirst hline) hrest

/-- The expansion of a line is one line. -/
theorem Expands.newline_not_mem (h : Expands refuseFile s ls s' outs)
    (hmacros : ∀ e ∈ s.macros, byte '\n' ∉ e.2.body)
    (hlines : ∀ line ∈ ls, byte '\n' ∉ line) (hline : byte '\n' ∉ line) :
    byte '\n' ∉ s'.macros.expand line := by
  have hne {text : Bytes} : byte '\n' ∉ text ↔ ∀ b ∈ text, b ≠ byte '\n' :=
    List.forall_mem_ne'.symm
  simp only [hne] at hmacros hlines hline ⊢
  exact Macros.all_expand (h.all_macros hmacros hlines) hline

/-- Plain lines stay as they are if there are no macros. -/
theorem expands_of_plain (hmacros : s.macros = [])
    (h : ∀ line ∈ ls, Directive.ofLine? line = none) :
    Expands includeFile s ls s ls := by
  induction ls with
  | nil => exact .nil s
  | cons line ls ih =>
    obtain ⟨hline, hlines⟩ := List.forall_mem_cons.mp h
    refine (expands_plain hline).mpr ⟨ls, ih hlines, ?_⟩
    rw [hmacros]
    rfl

/-- A plain line in a text without files to include is expanded under the macros
that the lines before it leave, and the lines after it go on from there. -/
theorem expand_plain_line {head middle tail : Bytes} {dir : Path}
    (hhead : Bytes.lines head = before ++ [Bytes.lastLine head])
    (hmiddle : byte '\n' ∉ middle) (htail : Bytes.lines tail = [] :: after)
    (hplain : Directive.ofLine? (Bytes.lastLine head ++ middle) = none) :
    s.expand none dir (head ++ (middle ++ tail)) = (s', .ok out) ↔
      ∃ mid outs outs', Expands refuseFile s before mid outs ∧
        Expands refuseFile mid after s' outs' ∧
        [byte '\n'].intercalate
          (outs ++ mid.macros.expand (Bytes.lastLine head ++ middle) :: outs') =
          out := by
  have hlines : Bytes.lines (head ++ (middle ++ tail)) =
      before ++ (Bytes.lastLine head ++ middle) :: after := by
    have hrest : Bytes.lines (middle ++ tail) = [] ++ (middle ++ []) :: after :=
      Bytes.lines_append (Bytes.lines_of_not_mem hmiddle) htail
    rw [List.append_nil] at hrest
    exact Bytes.lines_append hhead hrest
  rw [expand, expandText_eq_ok_iff, hlines]
  simp only [expands_append, expands_plain hplain]
  constructor
  · rintro ⟨_, ⟨mid, outs, _, hbefore, ⟨outs', hafter, rfl⟩, rfl⟩, hout⟩
    exact ⟨mid, outs, outs', hbefore, hafter, hout⟩
  · rintro ⟨mid, outs, outs', hbefore, hafter, hout⟩
    exact ⟨_, ⟨mid, outs, _, hbefore, ⟨outs', hafter, rfl⟩, rfl⟩, hout⟩

end Session

theorem compile_eq_ok_iff {p : Program} :
    compile src = .ok p ↔
      ∃ s out, ({} : Session).expand none Path.dot src = (s, .ok out) ∧
        compileExpanded out = .ok p := by
  rw [compile, compileIn]
  cases hexpand : ({} : Session).expand none Path.dot src with
  | mk s result => cases result <;> simp

theorem compileExpanded_eq_ok_iff {p : Program} :
    compileExpanded src = .ok p ↔
      ∃ ts fs, lex src = .ok ts ∧ parse ts = .ok fs ∧
        Program.ofFunctions fs = .ok p := by
  rw [compileExpanded]
  cases lex src with
  | error e => simp
  | ok ts =>
    cases hparse : parse ts with
    | error e => simp [hparse]
    | ok fs =>
      cases hprogram : Program.ofFunctions fs <;> simp [hparse, hprogram]

/-- The program of a text with a plain line in it, by the expansion of the lines
before it, of the line and of the lines after it. -/
theorem compile_plain_line {head middle tail : Bytes}
    (hhead : Bytes.lines head = before ++ [Bytes.lastLine head])
    (hmiddle : byte '\n' ∉ middle) (htail : Bytes.lines tail = [] :: after)
    (hplain : Directive.ofLine? (Bytes.lastLine head ++ middle) = none)
    (p : Program) :
    compile (head ++ (middle ++ tail)) = .ok p ↔
      ∃ mid s outs outs',
        Session.Expands Session.refuseFile {} before mid outs ∧
      Session.Expands Session.refuseFile mid after s outs' ∧
      compileExpanded
        ([byte '\n'].intercalate
          (outs ++ mid.macros.expand (Bytes.lastLine head ++ middle) ::
            outs')) = .ok p := by
  simp only [compile_eq_ok_iff,
    Session.expand_plain_line hhead hmiddle htail hplain]
  constructor
  · rintro ⟨s, _, ⟨mid, outs, outs', hbefore, hafter, rfl⟩, hp⟩
    exact ⟨mid, s, outs, outs', hbefore, hafter, hp⟩
  · rintro ⟨mid, s, outs, outs', hbefore, hafter, hp⟩
    exact ⟨s, _, ⟨mid, outs, outs', hbefore, hafter, rfl⟩, hp⟩

/-- A comment that expansion takes for nothing else, behind a text that is
expanded first: its line is no directive, it closes no arguments of a macro, and
where it begins the expanded text is in code. -/
structure Inert (head comment : Bytes) : Prop where
  plain : Directive.ofLine? (Bytes.lastLine head ++ comment) = none
  calls : ∀ {s : Session} {out : Bytes},
    ({} : Session).expand none Path.dot head = (s, .ok out) →
    ¬ s.macros.ClosesCall (Bytes.lastLine head) comment
  place : ∀ {s : Session} {out : Bytes},
    ({} : Session).expand none Path.dot head = (s, .ok out) →
    Scan.Place.code.behind (Utf8.chars out) = .code

section

variable {head comment tail : Bytes}

theorem not_mem_slashes (h : byte '\n' ∉ comment) :
    byte '\n' ∉ byte '/' :: byte '/' :: comment := by
  simp only [List.mem_cons, not_or]
  exact ⟨by decide, by decide, h⟩

theorem Inert.plain_head (h : Inert head (byte '/' :: byte '/' :: comment)) :
    Directive.ofLine? (Bytes.lastLine head) = none :=
  Directive.ofLine?_of_append (Utf8.startsApart_cons.mpr (by decide)) h.plain

/-- What expansion makes of an inert comment is a comment, and the tokens around
it stay as they are. -/
theorem Inert.lex_eq (h : Inert head (byte '/' :: byte '/' :: comment))
    (hcomment : byte '\n' ∉ comment) {outs : List Bytes} {mid : Session}
    (hhead : Bytes.lines head = before ++ [Bytes.lastLine head])
    (hbefore : Session.Expands Session.refuseFile {} before mid outs)
    (after : List Bytes) :
    lex ([byte '\n'].intercalate
      (outs ++ mid.macros.expand
        (Bytes.lastLine head ++ byte '/' :: byte '/' :: comment) :: after)) =
        lex ([byte '\n'].intercalate
          (outs ++ mid.macros.expand (Bytes.lastLine head) :: after)) := by
  -- What the conditions on the comment speak of: the expansion of the text
  -- before it.
  have hexpand : ({} : Session).expand none Path.dot (head ++ ([] ++ [])) =
      (mid, .ok
      ([byte '\n'].intercalate
      (outs ++ [mid.macros.expand (Bytes.lastLine head ++ [])]))) := by
    refine (Session.expand_plain_line hhead List.not_mem_nil rfl ?_).mpr
      ⟨mid, outs, [], hbefore, .nil mid, rfl⟩
    rw [List.append_nil]
    exact h.plain_head
  simp only [List.append_nil] at hexpand
  obtain ⟨x, hx⟩ := Macros.expand_slashes (h.calls hexpand)
  -- No macro brings in a newline, so the expanded comment ends with its line.
  have hnewline : byte '\n' ∉ x := by
    have hline : ∀ line ∈ before ++ [Bytes.lastLine head], byte '\n' ∉ line :=
      fun line hline =>
      Bytes.not_mem_of_mem_lines (hhead ▸ hline)
    obtain ⟨hlines, hlast⟩ := List.forall_mem_append.mp hline
    have hwhole :
        byte '\n' ∉ Bytes.lastLine head ++ byte '/' :: byte '/' :: comment := by
      rw [List.mem_append]
      exact not_or.mpr ⟨hlast _ List.mem_cons_self, not_mem_slashes hcomment⟩
    have hexpanded :=
      hbefore.newline_not_mem (fun e he => absurd he List.not_mem_nil)
        hlines hwhole
    rw [hx] at hexpanded
    exact fun hmem =>
      hexpanded
      (List.mem_append_right
        _ (List.mem_cons_of_mem _ (List.mem_cons_of_mem _ hmem)))
  have hout (rest : Bytes) :=
    Bytes.intercalate_append (byte '\n') outs
      (mid.macros.expand (Bytes.lastLine head)) rest after
  have hplain := hout []
  rw [List.append_nil, Bytes.intercalate_cons, List.nil_append] at hplain
  rw [hx, hout, hplain, Bytes.intercalate_cons]
  refine lex_comment (h.place hexpand) hnewline fun b hb => ?_
  cases after with
  | nil => cases hb
  | cons line after =>
    cases hb
    rfl

/-- Without an inert comment the text has the same program, or none as with
it. -/
theorem Inert.compile_iff (h : Inert head (byte '/' :: byte '/' :: comment))
    (hcomment : byte '\n' ∉ comment) (htail : ∀ b ∈ tail.head?, b = byte '\n')
    (p : Program) :
    compile (head ++ (byte '/' :: byte '/' :: comment ++ tail)) = .ok p ↔
      compile (head ++ tail) = .ok p := by
  obtain ⟨before, hhead⟩ := Bytes.exists_lines head
  obtain ⟨after, hafter⟩ : ∃ after, Bytes.lines tail = [] :: after := by
    cases tail with
    | nil => exact ⟨[], rfl⟩
    | cons b tail =>
      rw [htail b rfl, Bytes.lines, Bytes.splitOn, if_pos rfl]
      exact ⟨_, rfl⟩
  have hwith :=
    compile_plain_line hhead (not_mem_slashes hcomment) hafter h.plain p
  have hwithout :=
    compile_plain_line hhead List.not_mem_nil hafter
      (by rw [List.append_nil]; exact h.plain_head) p
  rw [List.nil_append, List.append_nil] at hwithout
  refine hwith.trans (Iff.trans ?_ hwithout.symm)
  refine exists_congr fun mid => exists_congr fun s => exists_congr fun outs =>
    exists_congr fun outs' => ?_
  refine and_congr_right fun hbefore => and_congr_right fun _ => ?_
  rw [compileExpanded_eq_ok_iff, compileExpanded_eq_ok_iff,
    h.lex_eq hcomment hhead hbefore]

/-- In a text without directives a comment that begins in code is inert. -/
theorem inert_of_plain
    (hplain : ∀ line ∈ Bytes.lines (head ++ byte '/' :: byte '/' :: comment),
      Directive.ofLine? line = none)
    (hcomment : byte '\n' ∉ comment)
    (hplace : Scan.Place.code.behind (Utf8.chars head) = .code) :
    Inert head (byte '/' :: byte '/' :: comment) := by
  obtain ⟨before, hhead⟩ := Bytes.exists_lines head
  rw [Bytes.lines_append hhead
    (Bytes.lines_of_not_mem (not_mem_slashes hcomment)), List.forall_mem_append]
    at hplain
  obtain ⟨hbefore, hline⟩ := hplain
  have hline := hline _ List.mem_cons_self
  have hexpand : ({} : Session).expand none Path.dot head = ({}, .ok head) := by
    refine Session.expandText_eq_ok_iff.mpr ⟨Bytes.lines head,
      Session.expands_of_plain rfl ?_, ?_⟩
    · rw [hhead, List.forall_mem_append]
      refine ⟨hbefore, fun line hmem => ?_⟩
      rw [List.mem_singleton.mp hmem]
      exact Directive.ofLine?_of_append
        (Utf8.startsApart_cons.mpr (by decide)) hline
    · exact Bytes.intercalate_lines head
  constructor
  · exact hline
  · intro s out hs hcloses
    cases hexpand.symm.trans hs
    obtain ⟨e, he, -⟩ := hcloses
    cases he
  · intro s out hs
    cases hexpand.symm.trans hs
    exact hplace

/-- A line comment that is inert has no meaning: with it and without it a text
has the same program or none. If no line up to the comment is a directive, this
is every comment that begins outside literals and other comments. -/
theorem inert_line_comments_are_irrelevant (hcomment : byte '\n' ∉ comment)
    (htail : ∀ b ∈ tail.head?, b = byte '\n') :
    (Inert head (text "//" ++ comment) →
      ∀ p, compile (head ++ (text "//" ++ comment ++ tail)) = .ok p ↔
        compile (head ++ tail) = .ok p) ∧
    ((∀ line ∈ Bytes.lines (head ++ (text "//" ++ comment)),
      Directive.ofLine? line = none) →
      Scan.Place.code.behind (Utf8.chars head) = .code →
      ∀ p, compile (head ++ (text "//" ++ comment ++ tail)) = .ok p ↔
        compile (head ++ tail) = .ok p) := by
  constructor
  · intro hinert
    exact hinert.compile_iff hcomment htail
  · intro hplain hplace
    exact (inert_of_plain hplain hcomment hplace).compile_iff hcomment htail

end

/-- The program of a text that returns twice four. -/
def doubledProgram : Program where
  code := #[ { op := .entry, operand := 0 }, { op := .push, operand := 2 },
    { op := .push, operand := 4 }, { op := .arith .mul }, { op := .ret }]
  data := #[0]
  funcs := .ofList [(mainName, 0)]

/-- A comment behind the use of a macro, and the same comment in a text without
directives. -/
theorem inert_line_comments_are_irrelevant_doubled :
    let head :=
      text "#define TWICE(n) (2 * (n))\nint main() \x7b return TWICE(4); "
    let plain := text "int main() \x7b return 2 * 4; "
    let comment := text " twice (four)"
    let tail := text "\n\x7d\n"
    byte '\n' ∉ comment ∧ (∀ b ∈ tail.head?, b = byte '\n') ∧
      Inert head (text "//" ++ comment) ∧
      compile (head ++ tail) = .ok doubledProgram ∧
      compile (head ++ (text "//" ++ comment ++ tail)) = .ok doubledProgram ∧
      (∀ line ∈ Bytes.lines (plain ++ (text "//" ++ comment)),
        Directive.ofLine? line = none) ∧
        Scan.Place.code.behind (Utf8.chars plain) = .code ∧
        compile (plain ++ tail) = .ok doubledProgram ∧
        compile (plain ++ (text "//" ++ comment ++ tail)) =
        .ok doubledProgram := by
  intro head plain comment tail
  have hcomment : byte '\n' ∉ comment := by decide +kernel
  have htail : ∀ b ∈ tail.head?, b = byte '\n' := by decide +kernel
  have hexpand :
      ({} : Session).expand none Path.dot head =
      ({ macros := [(text "TWICE",
      { params := some [text "n"], body := text "(2 * (n))" })] },
      .ok (text "\nint main() \x7b return (2 * (4)); ")) :=
    Prod.ext (by decide +kernel) (ok_of_toOption (by decide +kernel))
  have hinert : Inert head (text "//" ++ comment) := by
    constructor
    · decide +kernel
    · intro s out hs
      obtain ⟨rfl, -⟩ := Prod.mk.inj (hexpand.symm.trans hs)
      decide +kernel
    · intro s out hs
      obtain ⟨-, hout⟩ := Prod.mk.inj (hexpand.symm.trans hs)
      obtain rfl := Except.ok.inj hout
      decide +kernel
  have hwithout : compile (head ++ tail) = .ok doubledProgram :=
    ok_of_toOption (by decide +kernel)
  have hwith :=
    ((inert_line_comments_are_irrelevant hcomment htail).1 hinert
      doubledProgram).mpr hwithout
  have hplain : ∀ line ∈ Bytes.lines (plain ++ (text "//" ++ comment)),
      Directive.ofLine? line = none := by
    decide +kernel
  have hplace : Scan.Place.code.behind (Utf8.chars plain) = .code := by
    decide +kernel
  have hwithout' : compile (plain ++ tail) = .ok doubledProgram :=
    ok_of_toOption (by decide +kernel)
  have hwith' :=
    ((inert_line_comments_are_irrelevant hcomment htail).2 hplain hplace
      doubledProgram).mpr hwithout'
  exact ⟨hcomment, htail, hinert, hwithout, hwith, hplain, hplace,
    hwithout', hwith'⟩

/-- Expansion takes a comment for text: in a definition it becomes part of the
macro, it can close arguments that are open before it, and behind half a literal
it goes on with the literal. -/
theorem line_comments_can_have_meaning :
    let inCode (head : Bytes) : Prop :=
      Scan.Place.code.behind (Utf8.chars head) = .code
    let compiles (src : Bytes) : Bool := (compile src).toOption.isSome
    (let head := text "#define N 1 "
      let tail := text "\nint main() \x7b return N; \x7d\n"
      inCode head ∧ compiles (head ++ (text "// one" ++ tail)) = false ∧
        compiles (head ++ tail) = true) ∧
    (let head := text "#define F(x) x\nint main() \x7b return F(1 "
      let tail := text "\n; \x7d\n"
      inCode head ∧ compiles (head ++ (text "// )" ++ tail)) = true ∧
        compiles (head ++ tail) = false) ∧
    (let head := text "#define Q \"\nint main() \x7b printf(Q hi "
      let tail := text "\n return 0; \x7d\n"
      inCode head ∧ compiles (head ++ (text "// \");" ++ tail)) = true ∧
        compiles (head ++ tail) = false) := by
  decide +kernel

end StackC
