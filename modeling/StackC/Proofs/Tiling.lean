import StackC.Proofs.Scanning

/-!
The tokens of a text tile it. A text without mistakes is a gap, the region of a
token, a gap, the region of the next token and so on up to its end, and the
regions are as long as they can be: what follows one cannot go on with it. This
says of every text which tokens it has, so a list of tokens is what the scanner
makes of a text exactly if it tiles it.
-/

namespace StackC

/-- No digit is a letter. -/
theorem isLetter_of_isDigit {c : Char} (h : isDigit c = true) :
    isLetter c = false := by
  rw [isDigit] at h
  rw [isLetter]
  split at h
  next hascii =>
    rw [if_pos hascii]
    simp only [Char.isDigit, Bool.and_eq_true, decide_eq_true_eq, ge_iff_le,
      UInt32.le_iff_toNat_le] at h
    simp only [Char.isAlpha, Char.isUpper, Char.isLower, ge_iff_le,
      UInt32.le_iff_toNat_le]
    have hle : c.toNat ≤ 0x39 := h.2
    simp
    omega
  next hascii =>
    rw [if_neg hascii]
    exact inRanges_of_disjoint (by decide +kernel) h

namespace Scan

/-! ### Gaps -/

/-- Text between tokens: blanks and comments. A line comment ends with its line,
or with the text in the gap at the end of it. A block comment ends with the
first mark that closes it. -/
inductive Gap : (atEnd : Bool) → List Char → Prop where
  | nil {atEnd : Bool} : Gap atEnd []
  | blank {atEnd : Bool} {c : Char} {cs : List Char} (hc : isBlank c = true)
    (h : Gap atEnd cs) : Gap atEnd (c :: cs)
  | line {atEnd : Bool} {comment cs : List Char} (hcomment : '\n' ∉ comment)
    (h : Gap atEnd cs) : Gap atEnd ('/' :: '/' :: (comment ++ '\n' :: cs))
  | block {atEnd : Bool} {comment cs : List Char}
    (hcomment : ¬ ['*', '/'] <:+: comment) (h : Gap atEnd cs) :
    Gap atEnd ('/' :: '*' :: (comment ++ '*' :: '/' :: cs))
  | last {comment : List Char} (hcomment : '\n' ∉ comment) :
    Gap true ('/' :: '/' :: comment)

theorem lineAfter_eq (c : Char) (line : Nat) (cs : List Char) :
    lineAfter c line + cs.count '\n' = line + (c :: cs).count '\n' := by
  rw [lineAfter, List.count_cons]
  split
  next hc =>
    rw [if_pos (beq_iff_eq.mpr hc)]
    omega
  next hc => rw [if_neg (mt beq_iff_eq.mp hc), Nat.add_zero]

variable {c : Char} {atEnd : Bool}
  {gap rest val spelling region src : List Char} {kind : TokenKind}
  {next : Option Char} {pos : Nat} {ts : List Token}

/-- A text that begins with a character that starts no comment has none
there. -/
theorem noComment_of_ne (h : c ≠ '/') (cs : List Char) : NoComment (c :: cs) :=
  fun _ =>
    ⟨fun heq => h (List.cons.inj heq).1, fun heq => h (List.cons.inj heq).1⟩

theorem skip_blank (h : isBlank c = true) (line : Nat) (cs : List Char) :
    skip .blanks line (c :: cs) = skip .blanks (lineAfter c line) cs := by
  rw [skip_char (noComment_of_ne (ne_of_isBlank h (by decide)) cs), if_pos h]

theorem skip_blockComment (start line : Nat) {comment : List Char}
    (h : ¬ ['*', '/'] <:+: comment) (rest : List Char) :
    skip (.blockComment start) line (comment ++ '*' :: '/' :: rest) =
      skip .blanks (line + comment.count '\n') rest := by
  induction comment generalizing line with
  | nil =>
    rw [List.nil_append, skip]
    rfl
  | cons c comment ih =>
    have hopen :
        ∀ ds, c :: (comment ++ '*' :: '/' :: rest) ≠ '*' :: '/' :: ds := by
      intro ds heq
      cases comment with
      | nil => cases heq
      | cons d comment =>
        cases heq
        exact h (List.prefix_append ['*', '/'] comment).isInfix
    rw [List.cons_append, skip_block hopen, ih _ fun hin =>
      h (List.infix_cons hin), lineAfter_eq]

/-- A gap is skipped, and its lines are counted. -/
theorem skip_gap (h : Gap atEnd gap) (hrest : atEnd = true → rest = [])
    (line : Nat) :
    skip .blanks line (gap ++ rest) =
      skip .blanks (line + gap.count '\n') rest := by
  induction h generalizing line with
  | nil => rfl
  | blank hc h ih =>
    rw [List.cons_append, skip_blank hc, ih hrest, lineAfter_eq]
  | @line atEnd comment cs hcomment h ih =>
    have hends : ∀ c ∈ ('\n' :: (cs ++ rest)).head?, c = '\n' := by
      intro c hc
      cases hc
      rfl
    have hcount : ('/' :: '/' :: (comment ++ '\n' :: cs)).count '\n' =
        ('\n' :: cs).count '\n' := by
      simp [List.count_eq_zero_of_not_mem hcomment]
    rw [hcount, List.cons_append, List.cons_append, List.append_assoc,
      List.cons_append, skip_comment line hcomment hends,
      skip_blank (by decide), ih hrest, lineAfter_eq]
  | @block atEnd comment cs hcomment h ih =>
    have hcount : ('/' :: '*' :: (comment ++ '*' :: '/' :: cs)).count '\n' =
        comment.count '\n' + cs.count '\n' := by
      simp
    rw [hcount, List.cons_append, List.cons_append, List.append_assoc, skip,
      List.cons_append, List.cons_append, skip_blockComment line line hcomment,
      ih hrest, Nat.add_assoc]
  | @last comment hcomment =>
    have hcount : ('/' :: '/' :: comment).count '\n' = 0 := by
      simp [List.count_eq_zero_of_not_mem hcomment]
    have hnone : ∀ c ∈ rest.head?, c = '\n' := by
      intro c hc
      rw [hrest rfl] at hc
      cases hc
    rw [hcount, Nat.add_zero, ← skip_comment line hcomment hnone]
    rfl

def Region.opening : Region → List Char
  | .blanks => []
  | .lineComment => ['/', '/']
  | .blockComment _ => ['/', '*']

theorem Gap.of_lineComment {cs : List Char} (hc : c ≠ '\n')
    (h : Gap atEnd ('/' :: '/' :: cs)) : Gap atEnd ('/' :: '/' :: c :: cs) := by
  have hcons {comment : List Char} (hcomment : '\n' ∉ comment) :
      '\n' ∉ c :: comment := by
    rw [List.mem_cons, not_or]
    exact ⟨Ne.symm hc, hcomment⟩
  cases h with
  | blank hblank h => exact absurd hblank (by decide)
  | line hcomment h => exact .line (hcons hcomment) h
  | last hcomment => exact .last (hcons hcomment)

theorem Gap.of_blockComment {cs : List Char}
    (hc : ∀ ds, c :: (cs ++ rest) ≠ '*' :: '/' :: ds)
    (h : Gap atEnd ('/' :: '*' :: cs)) : Gap atEnd ('/' :: '*' :: c :: cs) := by
  cases h with
  | blank hblank h => exact absurd hblank (by decide)
  | @block _ comment cs hcomment h =>
    refine @Gap.block _ (c :: comment) _ (fun hin => ?_) h
    -- The mark that ends a comment could begin with `c` only if the comment
    -- ended there.
    rcases List.infix_cons_iff.mp hin with ⟨ds, hds⟩ | hin
    · cases hds
      exact hc _ rfl
    · exact hcomment hin

/-- What is skipped is a gap, and neither a blank nor a comment follows it. -/
theorem gap_of_skip {r : Region} {line line' : Nat} {cs : List Char}
    (h : skip r line cs = .ok (line', rest)) :
    ∃ gap, cs = gap ++ rest ∧ Gap rest.isEmpty (r.opening ++ gap) ∧
      line' = line + gap.count '\n' ∧ (∀ c ∈ rest.head?, isBlank c = false) ∧
      NoComment rest := by
  fun_induction skip r line cs with
  | case1 line =>
    cases h
    exact ⟨[], rfl, .nil, rfl, by simp, by simp [NoComment]⟩
  | case2 line cs ih =>
    obtain ⟨gap, rfl, hgap, rfl, hrest⟩ := ih h
    exact ⟨'/' :: '/' :: gap, rfl, hgap, by simp, hrest⟩
  | case3 line cs ih =>
    obtain ⟨gap, rfl, hgap, rfl, hrest⟩ := ih h
    exact ⟨'/' :: '*' :: gap, rfl, hgap, by simp, hrest⟩
  | case4 line c cs hline hblock hblank ih =>
    obtain ⟨gap, rfl, hgap, rfl, hrest⟩ := ih h
    exact ⟨c :: gap, rfl, .blank hblank hgap, lineAfter_eq c line gap, hrest⟩
  | case5 line c cs hline hblock hblank =>
    cases h
    refine ⟨[], rfl, .nil, rfl, ?_, fun ds => ⟨fun heq => ?_, fun heq => ?_⟩⟩
    · intro d hd
      cases hd
      exact Bool.eq_false_iff.mpr hblank
    · cases heq
      exact hline ds rfl rfl
    · cases heq
      exact hblock ds rfl rfl
  | case6 line =>
    cases h
    exact ⟨[], rfl, .last List.not_mem_nil, rfl, by simp, by simp [NoComment]⟩
  | case7 line cs ih =>
    obtain ⟨gap, rfl, hgap, rfl, hrest⟩ := ih h
    exact ⟨'\n' :: gap, rfl, @Gap.line _ [] _ List.not_mem_nil hgap,
      lineAfter_eq '\n' line gap, hrest⟩
  | case8 line c cs hc ih =>
    obtain ⟨gap, rfl, hgap, rfl, hrest⟩ := ih h
    exact ⟨c :: gap, rfl, .of_lineComment hc hgap, by simp [hc], hrest⟩
  | case9 => cases h
  | case10 opened line cs ih =>
    obtain ⟨gap, rfl, hgap, rfl, hrest⟩ := ih h
    exact ⟨'*' :: '/' :: gap, rfl,
      @Gap.block _ [] _ (by decide) hgap, by simp, hrest⟩
  | case11 start line c cs hend ih =>
    obtain ⟨gap, rfl, hgap, rfl, hrest⟩ := ih h
    have hpair : ∀ ds, c :: (gap ++ rest) ≠ '*' :: '/' :: ds := by
      intro ds heq
      exact hend ds (List.cons.inj heq).1 (List.cons.inj heq).2
    exact ⟨c :: gap, rfl, .of_blockComment hpair hgap,
      lineAfter_eq c line gap, hrest⟩

theorem skip_eq_ok_iff {line line' : Nat} {cs : List Char} :
    skip .blanks line cs = .ok (line', rest) ↔
      ∃ gap, cs = gap ++ rest ∧ Gap rest.isEmpty gap ∧
        line' = line + gap.count '\n' ∧ (∀ c ∈ rest.head?, isBlank c = false) ∧
        NoComment rest := by
  refine ⟨fun h => gap_of_skip h, ?_⟩
  rintro ⟨gap, rfl, hgap, rfl, hblank, hno⟩
  rw [skip_gap hgap List.isEmpty_iff.mp]
  cases rest with
  | nil => rfl
  | cons c rest => rw [skip_char hno, hblank c rfl, if_neg Bool.false_ne_true]

/-! ### Literals -/

/-- What the text between two quotes stands for: a character stands for itself
or, behind a backslash, for the one that the escape names. Neither the quote nor
the end of a line stands there alone. -/
inductive Decodes (quote : Char) : List Char → List Char → Prop where
  | nil : Decodes quote [] []
  | plain {c : Char} {cs val : List Char} (hquote : c ≠ quote)
    (hline : c ≠ '\n') (hescape : c ≠ '\\') (h : Decodes quote cs val) :
    Decodes quote (c :: cs) (c :: val)
  | escape {d e : Char} {cs val : List Char} (hd : escaped? d = some e)
    (h : Decodes quote cs val) : Decodes quote ('\\' :: d :: cs) (e :: val)

theorem Decodes.newline_not_mem {quote : Char} {cs : List Char}
    (h : Decodes quote cs val) : '\n' ∉ cs := by
  induction h with
  | nil => exact List.not_mem_nil
  | plain hquote hline hescape h ih =>
    rw [List.mem_cons, not_or]
    exact ⟨Ne.symm hline, ih⟩
  | @escape d e cs val hd h ih =>
    have hne : '\n' ≠ d := by
      rintro rfl
      rw [escaped?_newline] at hd
      cases hd
    rw [List.mem_cons, List.mem_cons, not_or, not_or]
    exact ⟨by decide, hne, ih⟩

theorem body_of_decodes {kind : Literal} {cs : List Char}
    (h : Decodes kind.quote cs val) (line : Nat) (rest : List Char) :
    body kind line (cs ++ kind.quote :: rest) = .ok (val, rest) := by
  induction h with
  | nil => exact body_quote kind line rest
  | @plain c cs val hquote hline hescape h ih =>
    -- What follows a character of the contents is not empty: the closing quote
    -- is part of it.
    cases hds : cs ++ kind.quote :: rest with
    | nil => simp at hds
    | cons d ds =>
      rw [hds] at ih
      rw [List.cons_append, hds, body, if_neg hquote, if_neg hline,
        if_neg hescape, ih]
      rfl
  | escape hd h ih =>
    have hquote : '\\' ≠ kind.quote := by
      cases kind with
      | string => decide
      | character => decide
    rw [List.cons_append, List.cons_append, body, if_neg hquote,
      if_neg (by decide), if_pos rfl, hd]
    simp only [ih]
    rfl

theorem body_eq_ok_iff {kind : Literal} {line : Nat} {cs : List Char} :
    body kind line cs = .ok (val, rest) ↔
      ∃ inner, cs = inner ++ kind.quote :: rest ∧
        Decodes kind.quote inner val := by
  constructor
  · intro h
    fun_induction body kind line cs generalizing val with
    | case1 => cases h
    | case2 =>
      cases h
      exact ⟨[], rfl, .nil⟩
    | case3 => cases h
    | case4 => cases h
    | case5 d cs =>
      cases h
      exact ⟨[], rfl, .nil⟩
    | case6 => cases h
    | case7 => cases h
    | case8 d cs e hescaped hquote hnewline ih =>
      obtain ⟨⟨inner, rest⟩, hbody, h⟩ := ok_of_bind h
      cases h
      obtain ⟨inner, rfl, hinner⟩ := ih hbody
      exact ⟨'\\' :: d :: inner, rfl, .escape hescaped hinner⟩
    | case9 c d cs hquote hnewline hescape ih =>
      obtain ⟨⟨inner, rest⟩, hbody, h⟩ := ok_of_bind h
      cases h
      obtain ⟨inner, heq, hinner⟩ := ih hbody
      exact ⟨c :: inner, congrArg (c :: ·) heq,
        .plain hquote hnewline hescape hinner⟩
  · rintro ⟨inner, rfl, hinner⟩
    exact body_of_decodes hinner line rest

/-! ### Regions -/

inductive IsNumeral : List Char → Prop where
  | decimal {c : Char} {cs : List Char}
    (hdigits : ∀ d ∈ c :: cs, isDigit d = true) : IsNumeral (c :: cs)
  | hexadecimal {mark c : Char} {cs : List Char}
    (hmark : mark = 'x' ∨ mark = 'X')
    (hdigits : ∀ d ∈ c :: cs, inHex d = true) :
    IsNumeral ('0' :: mark :: c :: cs)

/-- The region of a token and the character behind it, if there is one. That
character cannot go on with a word, a number or an operator, nor make a comment
out of a slash. -/
inductive Spells : Token → List Char → Option Char → Prop where
  | word {c : Char} {cs : List Char} {next : Option Char} {line : Int}
    (hfirst : startsWord c = true) (hrest : ∀ d ∈ cs, inWord d = true)
    (hends : ∀ d ∈ next, inWord d = false) :
    Spells ⟨(TokenKind.ofWord? (Utf8.encode (c :: cs))).getD .identifier,
      Utf8.encode (c :: cs), line⟩ (c :: cs) next
  | number {spelling : List Char} {next : Option Char} {line : Int}
    (hspelling : IsNumeral spelling) (hends : ∀ d ∈ next, inWord d = false) :
    Spells ⟨.integer, Utf8.encode spelling, line⟩ spelling next
  | string {inner val : List Char} {next : Option Char} {line : Int}
    (hinner : Decodes '"' inner val) :
    Spells ⟨.string, Utf8.encode val, line⟩ ('"' :: (inner ++ ['"'])) next
  | character {inner : List Char} {c : Char} {next : Option Char} {line : Int}
    (hinner : Decodes '\'' inner [c]) :
    Spells ⟨.character, Numeral.decimalNat c.toNat, line⟩
      ('\'' :: (inner ++ ['\''])) next
  | pair {c d : Char} {kind : TokenKind} {next : Option Char} {line : Int}
    (hkind : TokenKind.ofPair? c d = some kind) :
    Spells ⟨kind, Utf8.encode [c, d], line⟩ [c, d] next
  | mark {c : Char} {kind : TokenKind} {next : Option Char} {line : Int}
    (hkind : TokenKind.ofMark? c = some kind)
    (hpair : ∀ d ∈ next, TokenKind.ofPair? c d = none)
    (hcomment : c = '/' → ∀ d ∈ next, d ≠ '/' ∧ d ≠ '*') :
    Spells ⟨kind, Utf8.encode [c], line⟩ [c] next

/-- A run of characters of one class is cut off where the class ends. -/
theorem run_eq {p : Char → Bool} {run : List Char}
    (hrun : ∀ c ∈ run, p c = true) (hrest : ∀ c ∈ rest.head?, p c = false) :
    (run ++ rest).takeWhile p = run ∧ (run ++ rest).dropWhile p = rest := by
  have hstop : rest.takeWhile p = [] ∧ rest.dropWhile p = rest := by
    cases rest with
    | nil => exact ⟨rfl, rfl⟩
    | cons c rest =>
      have hc : ¬ p c = true := Bool.eq_false_iff.mp (hrest c rfl)
      exact ⟨List.takeWhile_cons_of_neg hc, List.dropWhile_cons_of_neg hc⟩
  rw [List.takeWhile_append_of_pos hrun, List.dropWhile_append_of_pos hrun,
    hstop.1, hstop.2, List.append_nil]
  exact ⟨rfl, rfl⟩

theorem head?_dropWhile {p : Char → Bool} (cs : List Char) :
    ∀ c ∈ (cs.dropWhile p).head?, p c = false := by
  intro c hc
  have hnot := List.head?_dropWhile_not p cs
  rw [Option.mem_def.mp hc] at hnot
  exact hnot

theorem isDigit_of_inWord (h : inWord c = false) : isDigit c = false := by
  simp only [inWord, Bool.or_eq_false_iff] at h
  exact h.1.2

theorem startsWord_of_inWord (h : inWord c = false) : startsWord c = false := by
  simp only [inWord, Bool.or_eq_false_iff] at h
  simp only [startsWord, Bool.or_eq_false_iff]
  exact ⟨h.1.1, h.2⟩

theorem inWord_of_isDigit (h : isDigit c = true) : inWord c = true := by
  simp [inWord, h]

theorem startsWord_of_isDigit (h : isDigit c = true) :
    startsWord c = false := by
  have hne : c ≠ '_' := by
    rintro rfl
    exact absurd h (by decide)
  simp [startsWord, isLetter_of_isDigit h, hne]

theorem isLetter_of_isAlpha (h : c.isAlpha = true) : isLetter c = true := by
  rw [isLetter, if_pos (toNat_of_isAlpha h).2, h]

theorem inWord_of_inHex (h : inHex c = true) : inWord c = true := by
  simp only [inHex, Bool.or_eq_true, Bool.and_eq_true, decide_eq_true_eq] at h
  rcases h with (h | ⟨hlo, hhi⟩) | ⟨hlo, hhi⟩
  · exact inWord_of_isDigit h
  · have hlower : c.isLower = true :=
      Bool.and_eq_true_iff.mpr ⟨decide_eq_true hlo,
        decide_eq_true (le_trans hhi (by decide))⟩
    simp [inWord, isLetter_of_isAlpha, Char.isAlpha, hlower]
  · have hupper : c.isUpper = true :=
      decide_eq_true ⟨hlo, le_trans hhi (by decide)⟩
    simp [inWord, isLetter_of_isAlpha, Char.isAlpha, hupper]

/-- A word ends where its characters do. -/
theorem word_of_run {run : List Char} (hc : startsWord c = true)
    (hrun : ∀ d ∈ run, inWord d = true)
    (hends : ∀ d ∈ rest.head?, inWord d = false) (line : Nat) :
    word line (c :: (run ++ rest)) =
      (⟨(TokenKind.ofWord? (Utf8.encode (c :: run))).getD .identifier,
        Utf8.encode (c :: run), line⟩, rest) := by
  obtain ⟨htake, hdrop⟩ :=
    run_eq (List.forall_mem_cons.mpr ⟨inWord_of_startsWord hc, hrun⟩) hends
  rw [word, ← List.cons_append, htake, hdrop]

theorem numeral_of_isNumeral (h : IsNumeral spelling)
    (hends : ∀ d ∈ rest.head?, inWord d = false) :
    numeral (spelling ++ rest) = some (spelling, rest) := by
  cases h with
  | @decimal c cs hdigits =>
    have hmark : ∀ mark ∈ (cs ++ rest).head?, c = '0' →
        mark ≠ 'x' ∧ mark ≠ 'X' := by
      intro mark hmem hzero
      -- The mark would be a digit, or a character of a word behind the number.
      have hnot : isDigit mark = true ∨ inWord mark = false := by
        cases cs with
        | nil => exact Or.inr (hends mark hmem)
        | cons d cs =>
          cases hmem
          exact Or.inl (hdigits mark (by simp))
      constructor
      · rintro rfl
        exact absurd hnot (by decide)
      · rintro rfl
        exact absurd hnot (by decide)
    obtain ⟨htake, hdrop⟩ :=
      run_eq hdigits fun d hd => isDigit_of_inWord (hends d hd)
    rw [List.cons_append, numeral_decimal hmark, ← List.cons_append,
      htake, hdrop]
  | @hexadecimal mark c cs hmark hdigits =>
    have hstop : ∀ d ∈ rest.head?, inHex d = false :=
      fun d hd => Bool.eq_false_iff.mpr fun hhex =>
        Bool.eq_false_iff.mp (hends d hd) (inWord_of_inHex hhex)
    obtain ⟨htake, hdrop⟩ := run_eq hdigits hstop
    rw [List.cons_append, List.cons_append, numeral_hex hmark, htake, hdrop]
    rfl

theorem isNumeral_of_numeral {cs : List Char} (hc : isDigit c = true)
    (h : numeral (c :: cs) = some (spelling, rest)) :
    c :: cs = spelling ++ rest ∧ IsNumeral spelling ∧
      ∀ d ∈ rest.head?, isDigit d = false := by
  rcases numeral_cases c cs with ⟨rfl, mark, ds, rfl, hmark⟩ | hdecimal
  · rw [numeral_hex hmark] at h
    obtain ⟨hdigits, h⟩ := Option.ite_none_left_eq_some.mp h
    cases h
    refine ⟨by simp, ?_, fun d hd => ?_⟩
    · cases hrun : ds.takeWhile inHex with
      | nil => exact absurd (List.isEmpty_iff.mpr hrun) hdigits
      | cons d run =>
        refine .hexadecimal hmark fun e he => ?_
        rw [← hrun] at he
        exact List.mem_takeWhile_imp he
    · have hnot := head?_dropWhile ds d hd
      simp only [inHex, Bool.or_eq_false_iff] at hnot
      exact hnot.1.1
  · rw [hdecimal] at h
    cases h
    refine ⟨List.takeWhile_append_dropWhile.symm, ?_, head?_dropWhile _⟩
    rw [List.takeWhile_cons, if_pos hc]
    exact .decimal
      (List.forall_mem_cons.mpr ⟨hc, fun d hd => List.mem_takeWhile_imp hd⟩)

theorem number_of_isNumeral (h : IsNumeral spelling)
    (hends : ∀ d ∈ rest.head?, inWord d = false) (line : Nat) :
    number line (spelling ++ rest) =
      .ok (⟨.integer, Utf8.encode spelling, line⟩, rest) := by
  rw [number, numeral_of_isNumeral h hends]
  cases rest with
  | nil => rfl
  | cons d rest =>
    simp only [startsWord_of_inWord (hends d rfl), Bool.false_eq_true, if_false]

theorem isNumeral_of_number {line : Nat} {cs : List Char} {t : Token}
    (hc : isDigit c = true) (h : number line (c :: cs) = .ok (t, rest)) :
    ∃ spelling, c :: cs = spelling ++ rest ∧ IsNumeral spelling ∧
      (∀ d ∈ rest.head?, inWord d = false) ∧
      t = ⟨.integer, Utf8.encode spelling, line⟩ := by
  rw [number] at h
  rcases hnumeral : numeral (c :: cs) with _ | ⟨spelling, _ | ⟨d, mid⟩⟩
    <;> rw [hnumeral] at h
  · cases h
  · cases h
    obtain ⟨heq, hspelling, -⟩ := isNumeral_of_numeral hc hnumeral
    exact ⟨spelling, heq, hspelling, by simp, rfl⟩
  · simp only at h
    obtain ⟨hstarts, h⟩ := ok_of_else h
    cases h
    obtain ⟨heq, hspelling, hdigit⟩ := isNumeral_of_numeral hc hnumeral
    refine ⟨spelling, heq, hspelling, fun e he => ?_, rfl⟩
    cases he
    simp only [startsWord, Bool.not_eq_true, Bool.or_eq_false_iff] at hstarts
    simp only [inWord, Bool.or_eq_false_iff]
    exact ⟨⟨hstarts.1, hdigit d rfl⟩, hstarts.2⟩

/-- A character that begins an operator or mark begins nothing else. -/
structure OnlyMarks (c : Char) : Prop where
  blank : isBlank c = false
  word : startsWord c = false
  digit : isDigit c = false
  string : c ≠ '"'
  character : c ≠ '\''

theorem OnlyMarks.token_eq (h : OnlyMarks c) (line : Nat) (cs : List Char) :
    token line c cs = operator line c cs := by
  rw [token, if_neg (by simp [h.word]), if_neg (by simp [h.digit]),
    if_neg h.string, if_neg h.character]

theorem onlyMarks_of_ofPair? {d : Char}
    (h : TokenKind.ofPair? c d = some kind) :
    OnlyMarks c ∧ c ≠ '/' ∧ d = '=' := by
  unfold TokenKind.ofPair? at h
  split at h
  · exact ⟨⟨by decide, by decide, by decide, by decide, by decide⟩, by decide,
      rfl⟩
  · exact ⟨⟨by decide, by decide, by decide, by decide, by decide⟩, by decide,
      rfl⟩
  · exact ⟨⟨by decide, by decide, by decide, by decide, by decide⟩, by decide,
      rfl⟩
  · exact ⟨⟨by decide, by decide, by decide, by decide, by decide⟩, by decide,
      rfl⟩
  · cases h

theorem onlyMarks_of_ofMark? (h : TokenKind.ofMark? c = some kind) :
    OnlyMarks c ∧ c ≠ '\n' := by
  unfold TokenKind.ofMark? at h
  split at h <;> first
    | exact ⟨⟨by decide, by decide, by decide, by decide, by decide⟩, by decide⟩
    | cases h

def isLiteral : TokenKind → Bool
  | .integer | .character | .string => true
  | _ => false

theorem isLiteral_ite {b : Bool} {other : Option TokenKind}
    (hkind : isLiteral kind = false)
    (hother : isLiteral (other.getD .identifier) = false) :
    isLiteral ((if b = true then some kind else other).getD .identifier) =
      false := by
  split
  · exact hkind
  · exact hother

theorem isLiteral_ofWord? (s : Bytes) :
    isLiteral ((TokenKind.ofWord? s).getD .identifier) = false := by
  rw [TokenKind.ofWord?]
  repeat refine isLiteral_ite rfl ?_
  rfl

theorem isLiteral_ofPair? {d : Char} (h : TokenKind.ofPair? c d = some kind) :
    isLiteral kind = false := by
  unfold TokenKind.ofPair? at h
  split at h <;> cases h <;> rfl

theorem isLiteral_ofMark? (h : TokenKind.ofMark? c = some kind) :
    isLiteral kind = false := by
  unfold TokenKind.ofMark? at h
  split at h <;> cases h <;> rfl

/-- A literal is a number, a string or the code of a character. -/
theorem Spells.literal_cases {t : Token} (h : Spells t region next)
    (hliteral : isLiteral t.kind = true) :
    t.kind = .integer ∧ t.lexeme = Utf8.encode region ∧ IsNumeral region ∨
      t.kind = .string ∨
      t.kind = .character ∧
        ∃ c : Char, t.lexeme = Numeral.decimalNat c.toNat := by
  cases h with
  | word hfirst hrest hends =>
    exact absurd hliteral (Bool.eq_false_iff.mp (isLiteral_ofWord? _))
  | number hspelling hends => exact Or.inl ⟨rfl, rfl, hspelling⟩
  | string hinner => exact Or.inr (Or.inl rfl)
  | @character inner c next line hinner =>
    exact Or.inr (Or.inr ⟨rfl, c, rfl⟩)
  | pair hpair =>
    exact absurd hliteral (Bool.eq_false_iff.mp (isLiteral_ofPair? hpair))
  | mark hmark hpair hcomment =>
    exact absurd hliteral (Bool.eq_false_iff.mp (isLiteral_ofMark? hmark))

/-- Only a number is an integer. -/
theorem Spells.isNumeral {t : Token} (h : Spells t region next)
    (hkind : t.kind = .integer) :
    t.lexeme = Utf8.encode region ∧ IsNumeral region := by
  rcases h.literal_cases (by rw [hkind]; rfl) with
      ⟨-, hnumeral⟩ | hother | ⟨hother, -⟩
  · exact hnumeral
  · cases hkind.symm.trans hother
  · cases hkind.symm.trans hother

theorem Spells.newline_not_mem {t : Token} {region : List Char}
    {next : Option Char} (h : Spells t region next) : '\n' ∉ region := by
  have hclass {p : Char → Bool} (hp : p '\n' = false) {cs : List Char}
      (hcs : ∀ c ∈ cs, p c = true) : '\n' ∉ cs :=
    fun hmem => Bool.false_ne_true (hp.symm.trans (hcs _ hmem))
  cases h with
  | word hfirst hrest hends =>
    exact hclass (by decide)
      (List.forall_mem_cons.mpr ⟨inWord_of_startsWord hfirst, hrest⟩)
  | number hspelling hends =>
    cases hspelling with
    | decimal hdigits => exact hclass (by decide) hdigits
    | hexadecimal hmark hdigits =>
      rw [List.mem_cons, List.mem_cons, not_or, not_or]
      refine ⟨by decide, ?_, hclass (by decide) hdigits⟩
      rcases hmark with rfl | rfl
      · decide
      · decide
  | string hinner => simp [hinner.newline_not_mem]
  | character hinner => simp [hinner.newline_not_mem]
  | pair hkind =>
    obtain ⟨hc, -, rfl⟩ := onlyMarks_of_ofPair? hkind
    have hne := ne_of_isBlank (show isBlank '\n' = true by decide) hc.blank
    simp [hne]
  | mark hkind hpair hcomment => simp [Ne.symm (onlyMarks_of_ofMark? hkind).2]

theorem Spells.ne_nil {t : Token} (h : Spells t region next) :
    region ≠ [] := by
  cases h with
  | number hspelling hends =>
    cases hspelling with
    | decimal hdigits => exact List.cons_ne_nil _ _
    | hexadecimal hmark hdigits => exact List.cons_ne_nil _ _
  | _ => exact List.cons_ne_nil _ _

/-- The region of a token is read as that token. -/
theorem token_of_spells {t : Token} (h : Spells t region rest.head?)
    {line : Nat} (hline : t.line = line) :
    ∃ c cs, region ++ rest = c :: cs ∧ isBlank c = false ∧ NoComment (c :: cs) ∧
      token line c cs = .ok (t, rest) := by
  cases h with
  | @word c cs _ _ hfirst hrest hends =>
    subst hline
    have hblank :=
      Assembler.isBlank_of_continuesName (inWord_of_startsWord hfirst)
    have hslash : c ≠ '/' := by
      rintro rfl
      exact absurd hfirst (by decide)
    refine ⟨c, cs ++ rest, rfl, hblank, noComment_of_ne hslash _, ?_⟩
    rw [token, if_pos hfirst, word_of_run hfirst hrest hends]
  | number hspelling hends =>
    subst hline
    obtain ⟨c, cs, rfl, hc⟩ : ∃ c cs, region = c :: cs ∧ isDigit c = true := by
      cases hspelling with
      | decimal hdigits => exact ⟨_, _, rfl, hdigits _ List.mem_cons_self⟩
      | hexadecimal hmark hdigits => exact ⟨_, _, rfl, by decide⟩
    have hslash : c ≠ '/' := by
      rintro rfl
      exact absurd hc (by decide)
    refine ⟨c, cs ++ rest, rfl, isBlank_of_isDigit hc,
      noComment_of_ne hslash _, ?_⟩
    rw [token, if_neg (by simp [startsWord_of_isDigit hc]), if_pos hc,
      ← List.cons_append, number_of_isNumeral hspelling hends]
  | @string inner val _ _ hinner =>
    subst hline
    refine ⟨'"', inner ++ '"' :: rest, by simp, by decide,
      noComment_of_ne (by decide) _, ?_⟩
    have htoken : token line '"' (inner ++ '"' :: rest) =
        string line (inner ++ '"' :: rest) := rfl
    have hbody : body .string line (inner ++ '"' :: rest) = _ :=
      @body_of_decodes val .string inner hinner line rest
    rw [htoken, string, hbody]
    rfl
  | @character inner c _ _ hinner =>
    subst hline
    refine ⟨'\'', inner ++ '\'' :: rest, by simp, by decide,
      noComment_of_ne (by decide) _, ?_⟩
    have htoken : token line '\'' (inner ++ '\'' :: rest) =
        character line (inner ++ '\'' :: rest) := rfl
    have hbody : body .character line (inner ++ '\'' :: rest) = _ :=
      @body_of_decodes [c] .character inner hinner line rest
    rw [htoken, character, hbody]
    rfl
  | @pair c d kind _ _ hkind =>
    subst hline
    obtain ⟨hc, hslash, -⟩ := onlyMarks_of_ofPair? hkind
    refine ⟨c, d :: rest, rfl, hc.blank, noComment_of_ne hslash _, ?_⟩
    rw [hc.token_eq, operator, hkind]
  | @mark c kind _ _ hkind hpair hcomment =>
    subst hline
    obtain ⟨hc, -⟩ := onlyMarks_of_ofMark? hkind
    refine ⟨c, rest, rfl, hc.blank,
      fun ds => ⟨fun heq => ?_, fun heq => ?_⟩, ?_⟩
    · cases heq
      exact (hcomment rfl '/' rfl).1 rfl
    · cases heq
      exact (hcomment rfl '*' rfl).2 rfl
    · rw [hc.token_eq]
      cases rest with
      | nil => rw [operator, mark, hkind]
      | cons d rest => rw [operator_of_none (hpair d rfl), mark, hkind]

theorem spells_of_mark {line : Nat} {cs : List Char} {t : Token}
    (hno : NoComment (c :: cs))
    (hpair : ∀ d ∈ cs.head?, TokenKind.ofPair? c d = none)
    (h : mark line c cs = .ok (t, rest)) :
    t.line = line ∧
      ∃ region, c :: cs = region ++ rest ∧ Spells t region rest.head? := by
  obtain rfl := rest_of_mark h
  rw [mark] at h
  split at h
  next kind hkind =>
    cases h
    refine ⟨rfl, [c], rfl, .mark hkind hpair ?_⟩
    rintro rfl d hd
    obtain ⟨ds, rfl⟩ := List.head?_eq_some_iff.mp hd
    constructor
    · rintro rfl
      exact (hno ds).1 rfl
    · rintro rfl
      exact (hno ds).2 rfl
  next => cases h

/-- What is read as a token is the region of that token. -/
theorem spells_of_token {line : Nat} {cs : List Char} {t : Token}
    (hno : NoComment (c :: cs)) (h : token line c cs = .ok (t, rest)) :
    t.line = line ∧
      ∃ region, c :: cs = region ++ rest ∧ Spells t region rest.head? := by
  rw [token] at h
  split at h
  next hword =>
    cases h
    have htake : (c :: cs).takeWhile inWord = c :: cs.takeWhile inWord := by
      rw [List.takeWhile_cons, if_pos (inWord_of_startsWord hword)]
    refine ⟨rfl, (c :: cs).takeWhile inWord,
      List.takeWhile_append_dropWhile.symm, ?_⟩
    rw [htake]
    exact .word hword (fun d hd => List.mem_takeWhile_imp hd)
      (head?_dropWhile _)
  next =>
    split at h
    next hdigit =>
      obtain ⟨spelling, heq, hspelling, hends, rfl⟩ :=
        isNumeral_of_number hdigit h
      exact ⟨rfl, spelling, heq, .number hspelling hends⟩
    next =>
      split at h
      next hquote =>
        subst hquote
        obtain ⟨⟨val, mid⟩, hbody, h⟩ := ok_of_bind h
        cases h
        obtain ⟨inner, rfl, hinner⟩ := body_eq_ok_iff.mp hbody
        exact ⟨rfl, '"' :: (inner ++ ['"']), by simp [Literal.quote],
          .string hinner⟩
      next =>
        split at h
        next hquote =>
          subst hquote
          obtain ⟨⟨val, mid⟩, hbody, h⟩ := ok_of_bind h
          obtain ⟨inner, rfl, hinner⟩ := body_eq_ok_iff.mp hbody
          rcases val with _ | ⟨c, _ | ⟨d, val⟩⟩
          · cases h
          · cases h
            exact ⟨rfl, '\'' :: (inner ++ ['\'']), by simp [Literal.quote],
              .character hinner⟩
          · cases h
        next =>
          cases cs with
          | nil => exact spells_of_mark hno (by simp) h
          | cons d cs =>
            cases hpair : TokenKind.ofPair? c d with
            | some kind =>
              rw [operator, hpair] at h
              cases h
              exact ⟨rfl, [c, d], rfl, .pair hpair⟩
            | none =>
              rw [operator_of_none hpair] at h
              refine spells_of_mark hno (fun e he => ?_) h
              cases he
              exact hpair

/-! ### Texts -/

def lineAt (src : List Char) (pos : Nat) : Nat :=
  1 + (src.take pos).count '\n'

/-- The tokens of what follows a place in a text: a gap and the region of a
token again and again, each where the one before it ends, and after the last
token a gap up to the end of the text. -/
inductive Tiles (src : List Char) : (pos : Nat) → List Token → Prop where
  | last {pos : Nat} (hpos : pos ≤ src.length)
    (hgap : Gap true (src.drop pos)) :
    Tiles src pos [⟨.eof, [], lineAt src src.length⟩]
  | next {pos start stop : Nat} {t : Token} {ts : List Token}
    (hstart : pos ≤ start) (hstop : start < stop) (hend : stop ≤ src.length)
    (hgap : Gap false (src.extract pos start))
    (hregion : Spells t (src.extract start stop) src[stop]?)
    (hline : t.line = lineAt src start) (hrest : Tiles src stop ts) :
    Tiles src pos (t :: ts)

/-- A piece cut off what follows a place, by the places where it begins and
ends. -/
theorem of_drop_eq_append {piece : List Char} (hpos : pos ≤ src.length)
    (h : src.drop pos = piece ++ rest) :
    pos + piece.length ≤ src.length ∧
      src.extract pos (pos + piece.length) = piece ∧
      src.drop (pos + piece.length) = rest ∧
      lineAt src (pos + piece.length) = lineAt src pos + piece.count '\n' := by
  have hlength := congrArg List.length h
  rw [List.length_drop, List.length_append] at hlength
  refine ⟨by omega, ?_, ?_, ?_⟩
  · rw [List.extract_eq_take_drop, h, Nat.add_sub_cancel_left, List.take_left]
  · rw [← List.drop_drop, h, List.drop_left]
  · rw [lineAt, lineAt, List.take_add, h, List.take_left, List.count_append,
      Nat.add_assoc]

/-- The piece between two places is cut off what follows the first one. -/
theorem drop_eq_extract_append {stop : Nat} (h : pos ≤ stop)
    (hstop : stop ≤ src.length) :
    src.drop pos = src.extract pos stop ++ src.drop stop ∧
      lineAt src stop = lineAt src pos + (src.extract pos stop).count '\n' := by
  have hadd : pos + (src.extract pos stop).length = stop := by
    rw [List.extract_eq_take_drop, List.length_take, List.length_drop]
    omega
  have hdrop :
      src.drop pos = src.extract pos stop ++ src.drop (pos + (stop - pos)) := by
    rw [List.extract_eq_take_drop, ← List.drop_drop, List.take_append_drop]
  obtain ⟨-, -, -, hline⟩ := of_drop_eq_append (Nat.le_trans h hstop) hdrop
  rw [hadd] at hline
  rw [show pos + (stop - pos) = stop by omega] at hdrop
  exact ⟨hdrop, hline⟩

theorem lineAt_length (src : List Char) (pos : Nat) :
    lineAt src src.length = lineAt src pos + (src.drop pos).count '\n' := by
  rw [lineAt, lineAt, List.take_length, Nat.add_assoc, ← List.count_append,
    List.take_append_drop]

theorem Tiles.spells (h : Tiles src pos ts) :
    ∀ t ∈ ts, t.kind = .eof ∨ ∃ region next, Spells t region next := by
  induction h with
  | last hpos hgap =>
    intro t ht
    cases List.mem_singleton.mp ht
    exact Or.inl rfl
  | next hstart hstop hend hgap hregion hline hrest ih =>
    intro t ht
    rcases List.mem_cons.mp ht with rfl | ht
    · exact Or.inr ⟨_, _, hregion⟩
    · exact ih t ht

/-- A name can be a label of a listing. -/
theorem Spells.isLabel {t : Token} (h : Spells t region next)
    (hkind : t.kind = .identifier) : Assembler.IsLabel t.lexeme := by
  cases h with
  | word hfirst hrest => exact ⟨_, _, rfl, hfirst, hrest⟩
  | number | string | character => cases hkind
  | pair h =>
    cases hkind
    rw [TokenKind.ofPair?.eq_def] at h
    split at h <;> cases h
  | mark h =>
    cases hkind
    rw [TokenKind.ofMark?.eq_def] at h
    split at h <;> cases h

/-- A gap and the region of a token stand before what the other tokens tile. -/
theorem Tiles.of_append {t : Token} (hpos : pos ≤ src.length)
    (h : src.drop pos = gap ++ (region ++ rest)) (hgap : Gap false gap)
    (hregion : Spells t region rest.head?)
    (hline : t.line = lineAt src pos + gap.count '\n')
    (hrest : Tiles src (pos + gap.length + region.length) ts) :
    Tiles src pos (t :: ts) := by
  obtain ⟨hstart, hgapEq, hdrop, hlineEq⟩ := of_drop_eq_append hpos h
  obtain ⟨hstop, hregionEq, hdropEq, -⟩ := of_drop_eq_append hstart hdrop
  have hlength := List.length_pos_of_ne_nil hregion.ne_nil
  refine .next (Nat.le_add_right _ _) (Nat.lt_add_of_pos_right hlength) hstop ?_
    ?_ ?_ hrest
  · rw [hgapEq]
    exact hgap
  · rw [hregionEq, ← List.head?_drop, hdropEq]
    exact hregion
  · rw [hline, hlineEq]
    rfl

/-- Where the scanner is behind a gap and a token: the token has no line of its
own. -/
theorem of_drop_eq_gap_append {t : Token} (hpos : pos ≤ src.length)
    (h : src.drop pos = gap ++ (region ++ rest))
    (hregion : Spells t region rest.head?) :
    pos + gap.length + region.length ≤ src.length ∧
      src.drop (pos + gap.length + region.length) = rest ∧
      lineAt src (pos + gap.length + region.length) =
        lineAt src pos + gap.count '\n' := by
  obtain ⟨hstart, -, hdrop, hline⟩ := of_drop_eq_append hpos h
  obtain ⟨hstop, -, hrest, hline'⟩ := of_drop_eq_append hstart hdrop
  rw [List.count_eq_zero_of_not_mem hregion.newline_not_mem, Nat.add_zero]
    at hline'
  exact ⟨hstop, hrest, hline'.trans hline⟩

theorem tiles_of_tokens {fuel : Nat} (hpos : pos ≤ src.length)
    (hfuel : (src.drop pos).length < fuel)
    (h : tokens fuel (lineAt src pos) (src.drop pos) = (ts, none)) :
    Tiles src pos ts := by
  induction fuel generalizing pos ts with
  | zero => cases hfuel
  | succ fuel ih =>
    rw [tokens] at h
    rcases hskip : skip .blanks (lineAt src pos) (src.drop pos) with
        e | ⟨line, _ | ⟨c, cs⟩⟩ <;> rw [hskip] at h
    · cases h
    · obtain ⟨gap, heq, hgap, rfl, -⟩ := gap_of_skip hskip
      cases h
      rw [List.append_nil] at heq
      rw [← heq, ← lineAt_length]
      exact .last hpos (heq ▸ hgap)
    · obtain ⟨gap, heq, hgap, rfl, -, hno⟩ := gap_of_skip hskip
      rcases htoken : token (lineAt src pos + gap.count '\n') c cs with
          e | ⟨t, rest⟩ <;> simp only [htoken] at h
      · cases h
      · obtain ⟨hline, region, hsplit, hregion⟩ := spells_of_token hno htoken
        rw [hsplit] at heq
        obtain ⟨hstop, hrest, hlineEq⟩ := of_drop_eq_gap_append hpos heq hregion
        -- No token holds a newline, so the scanner goes on where the token
        -- ends, on the line the token stands on.
        rw [← hlineEq, ← hrest] at h
        rcases hrun :
          tokens fuel (lineAt src (pos + gap.length + region.length))
          (src.drop (pos + gap.length + region.length)) with ⟨us, e⟩
        rw [hrun] at h
        cases h
        have hlength := List.length_pos_of_ne_nil hregion.ne_nil
        rw [List.length_drop] at hfuel
        exact .of_append hpos heq hgap hregion hline
          (ih hstop (by rw [List.length_drop]; omega) hrun)

theorem tokens_of_tiles {fuel : Nat} (h : Tiles src pos ts)
    (hfuel : (src.drop pos).length < fuel) :
    tokens fuel (lineAt src pos) (src.drop pos) = (ts, none) := by
  induction h generalizing fuel with
  | @last pos hpos hgap =>
    cases fuel with
    | zero => cases hfuel
    | succ fuel =>
      have hskip := @skip_gap true _ [] hgap (fun _ => rfl) (lineAt src pos)
      rw [List.append_nil, ← lineAt_length] at hskip
      rw [tokens, hskip]
      rfl
  | @next pos start stop t ts hstart hstop hend hgap hregion hline hrest ih =>
    cases fuel with
    | zero => cases hfuel
    | succ fuel =>
      obtain ⟨hdrop, hlineEq⟩ :=
        drop_eq_extract_append hstart
          (Nat.le_of_lt (Nat.lt_of_lt_of_le hstop hend))
      obtain ⟨hdrop', hlineEq'⟩ :=
        drop_eq_extract_append (Nat.le_of_lt hstop) hend
      rw [List.count_eq_zero_of_not_mem hregion.newline_not_mem, Nat.add_zero]
        at hlineEq'
      rw [← List.head?_drop] at hregion
      obtain ⟨c, cs, hsplit, hblank, hno, htoken⟩ :=
        token_of_spells hregion hline
      rw [← hdrop'] at hsplit
      -- What spells a token begins with neither a blank nor a comment, so
      -- skipping stops at the end of the gap.
      have hskip : skip .blanks (lineAt src pos) (src.drop pos) =
          .ok (lineAt src start, c :: cs) := by
        refine skip_eq_ok_iff.mpr ⟨_, hsplit ▸ hdrop, hgap, hlineEq,
          fun d hd => ?_, hno⟩
        cases hd
        exact hblank
      have hrun :
          tokens fuel (lineAt src stop) (src.drop stop) = (ts, none) := by
        refine ih ?_
        rw [List.length_drop] at hfuel ⊢
        omega
      rw [hlineEq'] at hrun
      rw [tokens, hskip]
      simp only [htoken, hrun]

/-- The scanner makes the tokens of a text that tile it. -/
theorem scan_eq_iff (src : Bytes) (ts : List Token) :
    scan src = (ts, none) ↔ Tiles (Utf8.chars src) 0 ts :=
  ⟨tiles_of_tokens (Nat.zero_le _) (Nat.lt_succ_self _),
    fun h => tokens_of_tiles h (Nat.lt_succ_self _)⟩

end Scan

theorem lex_eq_ok_iff {src : Bytes} {ts : List Token} :
    lex src = .ok ts ↔ scan src = (ts, none) := by
  rw [lex]
  rcases scan src with ⟨us, _ | e⟩
  · simp
  · simp

/-- The tokens of a text without mistakes are those that tile it. -/
theorem lex_eq_ok_iff_tiles (src : Bytes) (ts : List Token) :
    lex src = .ok ts ↔ Scan.Tiles (Utf8.chars src) 0 ts :=
  lex_eq_ok_iff.trans (Scan.scan_eq_iff src ts)

end StackC
