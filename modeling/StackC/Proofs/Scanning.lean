import StackC.Compile
import StackC.Proofs.Fields
import StackC.Proofs.Listing

/-!
Where a text is cut without cutting a token. A place in a text lies in code, in
a literal or in a comment, which can be seen from what stands before it,
character by character. If it lies in code, what stands before it is scanned
alike whatever follows, as long as that cannot go on with a word, a number or an
operator. So a comment that begins there and ends with its line does not change
the tokens.
-/

namespace StackC

namespace Scan

/-! ### Places -/

/-- What a place in a text is part of. `slash` and `star` are the places behind
these marks, where a comment may begin or end, and `escape` is the one behind a
backslash in a literal. -/
inductive Place where
  | code
  | slash
  | lineComment
  | block
  | star
  | literal (quote : Char)
  | escape (quote : Char)
  deriving DecidableEq, Repr

namespace Place

def opened (c : Char) : Place :=
  if c = '/' then .slash else if c = '"' ∨ c = '\'' then .literal c else .code

def next : Place → Char → Place
  | .code, c => opened c
  | .slash, c =>
    if c = '/' then .lineComment else if c = '*' then .block else opened c
  | .lineComment, c => if c = '\n' then .code else .lineComment
  | .block, c => if c = '*' then .star else .block
  | .star, c => if c = '/' then .code else if c = '*' then .star else .block
  | .literal quote, c =>
    if c = quote ∨ c = '\n' then .code else if c = '\\' then .escape quote
    else .literal quote
  | .escape quote, c => if c = '\n' then .code else .literal quote

def behind (p : Place) (cs : List Char) : Place :=
  cs.foldl next p

@[simp] theorem behind_nil (p : Place) : p.behind [] = p := rfl

@[simp] theorem behind_cons (p : Place) (c : Char) (cs : List Char) :
    p.behind (c :: cs) = (p.next c).behind cs := rfl

variable {c : Char}

theorem opened_of_ne (hslash : c ≠ '/') (hstring : c ≠ '"')
    (hcharacter : c ≠ '\'') : opened c = .code := by
  rw [opened, if_neg hslash, if_neg (by simp [hstring, hcharacter])]

theorem slash_next (hslash : c ≠ '/') (hstar : c ≠ '*') :
    slash.next c = opened c := by
  rw [next, if_neg hslash, if_neg hstar]

theorem star_next (hslash : c ≠ '/') : star.next c = block.next c := by
  exact if_neg hslash

end Place

/-- The place where a region of skipped text begins. -/
def Region.place : Region → Place
  | .blanks => .code
  | .lineComment => .lineComment
  | .blockComment _ => .block

/-- A text that goes on with no word, number or operator. -/
def Ends (rest : List Char) : Prop :=
  ∀ c ∈ rest.head?, c = '/' ∨ c = '\n'

/-- A text that begins with no comment. -/
def NoComment (cs : List Char) : Prop :=
  ∀ ds, cs ≠ '/' :: '/' :: ds ∧ cs ≠ '/' :: '*' :: ds

variable {c d : Char} {cs rest : List Char} {line : Nat} {t : Token}

theorem skip_char (h : NoComment (c :: cs)) (line : Nat) :
    skip .blanks line (c :: cs) =
      if isBlank c then skip .blanks (lineAfter c line) cs
      else .ok (line, c :: cs) := by
  rw [skip]
  · rintro ds rfl rfl
    exact (h ds).1 rfl
  · rintro ds rfl rfl
    exact (h ds).2 rfl

theorem skip_block (h : ∀ ds, c :: cs ≠ '*' :: '/' :: ds) (start line : Nat) :
    skip (.blockComment start) line (c :: cs) =
      skip (.blockComment start) (lineAfter c line) cs := by
  rw [skip]
  rintro ds rfl rfl
  exact h ds rfl

/-- What can be told of a text from its first two characters can be told of it
with any rest. -/
theorem append_ne_pair {e : Char} (hne : cs ≠ [] ∨ c ≠ d)
    (h : ∀ ds, c :: cs ≠ d :: e :: ds) (rest ds : List Char) :
    c :: (cs ++ rest) ≠ d :: e :: ds := by
  cases cs with
  | nil =>
    intro heq
    rcases hne with hne | hne
    · exact hne rfl
    · exact hne (List.cons.inj heq).1
  | cons a cs =>
    intro heq
    cases heq
    exact h cs rfl

theorem NoComment.append (h : NoComment (c :: cs))
    (hcode : Place.code.behind (c :: cs) = .code) (rest : List Char) :
    NoComment (c :: (cs ++ rest)) := by
  have hne : cs ≠ [] ∨ c ≠ '/' := by
    by_contra hboth
    rw [not_or, not_not, not_not] at hboth
    rw [hboth.1, hboth.2] at hcode
    cases hcode
  exact fun ds =>
    ⟨append_ne_pair hne (fun ds => (h ds).1) rest ds,
      append_ne_pair hne (fun ds => (h ds).2) rest ds⟩

theorem ne_of_isBlank (h : isBlank c = true) (hd : isBlank d = false) :
    c ≠ d := by
  rintro rfl
  exact Bool.false_ne_true (hd.symm.trans h)

theorem opened_of_isBlank (h : isBlank c = true) : Place.opened c = .code :=
  Place.opened_of_ne (ne_of_isBlank h (by decide)) (ne_of_isBlank h (by decide))
    (ne_of_isBlank h (by decide))

/-- Skipping before a place in the code ends before it, at a token, or goes on
behind it. -/
theorem skip_append (r : Region) (line : Nat) (cs : List Char)
    (h : r.place.behind cs = .code) :
    ∃ line' mid, mid.length ≤ cs.length ∧ Place.code.behind mid = .code ∧
      NoComment mid ∧
      ∀ rest, skip r line (cs ++ rest) =
        if mid.isEmpty then skip .blanks line' rest
        else .ok (line', mid ++ rest) := by
  fun_induction skip r line cs with
  | case1 line =>
    exact ⟨line, [], Nat.le_refl _, rfl, by simp [NoComment], fun rest => rfl⟩
  | case2 line cs ih =>
    obtain ⟨line', mid, hlength, hmid⟩ := ih h
    exact ⟨line', mid,
      Nat.le_add_right_of_le (Nat.le_add_right_of_le hlength), hmid⟩
  | case3 line cs ih =>
    obtain ⟨line', mid, hlength, hmid⟩ := ih h
    exact ⟨line', mid,
      Nat.le_add_right_of_le (Nat.le_add_right_of_le hlength), hmid⟩
  | case4 line c cs hline hblock hblank ih =>
    rw [Region.place, Place.behind_cons, Place.next,
      opened_of_isBlank hblank] at h
    obtain ⟨line', mid, hlength, hcode, hmid, hskip⟩ := ih h
    refine ⟨line', mid, Nat.le_add_right_of_le hlength, hcode, hmid,
      fun rest => ?_⟩
    have hno : NoComment (c :: (cs ++ rest)) := by
      intro ds
      have hc : c ≠ '/' := ne_of_isBlank hblank (by decide)
      exact ⟨fun heq => hc (List.cons.inj heq).1,
        fun heq => hc (List.cons.inj heq).1⟩
    rw [List.cons_append, skip_char hno, if_pos hblank, hskip]
  | case5 line c cs hline hblock hblank =>
    have hno : NoComment (c :: cs) := by
      intro ds
      constructor
      · intro heq
        cases heq
        exact hline ds rfl rfl
      · intro heq
        cases heq
        exact hblock ds rfl rfl
    refine ⟨line, c :: cs, Nat.le_refl _, h, hno, fun rest => ?_⟩
    rw [List.cons_append, skip_char (hno.append h rest), if_neg hblank]
    rfl
  | case6 line => cases h
  | case7 line cs ih =>
    obtain ⟨line', mid, hlength, hcode, hmid, hskip⟩ := ih h
    refine ⟨line', mid, Nat.le_add_right_of_le hlength, hcode, hmid,
      fun rest => ?_⟩
    rw [List.cons_append, skip, if_pos rfl, hskip]
  | case8 line c cs hc ih =>
    rw [Region.place, Place.behind_cons, Place.next, if_neg hc] at h
    obtain ⟨line', mid, hlength, hcode, hmid, hskip⟩ := ih h
    refine ⟨line', mid, Nat.le_add_right_of_le hlength, hcode, hmid,
      fun rest => ?_⟩
    rw [List.cons_append, skip, if_neg hc, hskip]
  | case9 => cases h
  | case10 opened line cs ih =>
    obtain ⟨line', mid, hlength, hmid⟩ := ih h
    exact ⟨line', mid,
      Nat.le_add_right_of_le (Nat.le_add_right_of_le hlength), hmid⟩
  | case11 start line c cs hend ih =>
    have hpair : ∀ ds, c :: cs ≠ '*' :: '/' :: ds := by
      intro ds heq
      cases heq
      exact hend ds rfl rfl
    -- Behind a star that does not end the comment, the comment goes on as if
    -- the star were not there.
    have hblock : Place.block.behind cs = .code ∧ (cs ≠ [] ∨ c ≠ '*') := by
      rw [Region.place, Place.behind_cons, Place.next] at h
      by_cases hc : c = '*'
      · rw [if_pos hc] at h
        cases cs with
        | nil => cases h
        | cons d cs =>
          have hd : d ≠ '/' := by
            rintro rfl
            exact hend cs hc rfl
          rw [Place.behind_cons, Place.star_next hd] at h
          exact ⟨h, Or.inl (List.cons_ne_nil d cs)⟩
      · rw [if_neg hc] at h
        exact ⟨h, Or.inr hc⟩
    obtain ⟨line', mid, hlength, hcode, hmid, hskip⟩ := ih hblock.1
    refine ⟨line', mid, Nat.le_add_right_of_le hlength, hcode, hmid,
      fun rest => ?_⟩
    rw [List.cons_append,
      skip_block (append_ne_pair hblock.2 hpair rest), hskip]

/-! ### Tokens -/

/-- A reader makes the same of a text whatever ends it, and if it accepts it,
what it leaves of the text lies in the code again. -/
def ReadsAlike {α : Type} (read : List Char → Except LexError (α × List Char))
    (cs : List Char) : Prop :=
  (∃ e, ∀ rest, Ends rest → read (cs ++ rest) = .error e) ∨
  ∃ a mid, mid.length ≤ cs.length ∧ Place.code.behind mid = .code ∧
    ∀ rest, Ends rest → read (cs ++ rest) = .ok (a, mid ++ rest)

theorem ReadsAlike.congr {α : Type}
    {read read' : List Char → Except LexError (α × List Char)}
    (h : ReadsAlike read cs)
    (heq : ∀ rest, Ends rest → read' (cs ++ rest) = read (cs ++ rest)) :
    ReadsAlike read' cs := by
  rcases h with ⟨e, herror⟩ | ⟨a, mid, hmid, hcode, hok⟩
  · exact Or.inl
      ⟨e, fun rest hrest => (heq rest hrest).trans (herror rest hrest)⟩
  · exact Or.inr ⟨a, mid, hmid, hcode, fun rest hrest =>
      (heq rest hrest).trans (hok rest hrest)⟩

/-- A run of characters ends where the text ends. -/
theorem run_append {p : Char → Bool} (hslash : p '/' = false)
    (hnewline : p '\n' = false) (hrest : Ends rest) (cs : List Char) :
    (cs ++ rest).takeWhile p = cs.takeWhile p ∧
      (cs ++ rest).dropWhile p = cs.dropWhile p ++ rest := by
  have hstop : rest.takeWhile p = [] ∧ rest.dropWhile p = rest := by
    cases rest with
    | nil => exact ⟨rfl, rfl⟩
    | cons c rest =>
      have hc : p c = false := by
        rcases hrest c rfl with rfl | rfl
        · exact hslash
        · exact hnewline
      exact ⟨List.takeWhile_cons_of_neg (by simp [hc]),
        List.dropWhile_cons_of_neg (by simp [hc])⟩
  induction cs with
  | nil => exact hstop
  | cons c cs ih =>
    rw [List.cons_append, List.takeWhile_cons, List.takeWhile_cons,
      List.dropWhile_cons, List.dropWhile_cons]
    split
    · exact ⟨congrArg (c :: ·) ih.1, ih.2⟩
    · exact ⟨rfl, rfl⟩

/-- Behind a run of characters that are neither slashes nor quotes the text lies
in the code. -/
theorem behind_dropWhile {p : Char → Bool} (hslash : p '/' = false)
    (hstring : p '"' = false) (hcharacter : p '\'' = false) (cs : List Char)
    (h : Place.code.behind cs = .code) :
    Place.code.behind (cs.dropWhile p) = .code := by
  induction cs with
  | nil => rfl
  | cons c cs ih =>
    rw [List.dropWhile_cons]
    split
    next hc =>
      have hne {d : Char} (hd : p d = false) : c ≠ d := by
        rintro rfl
        exact Bool.false_ne_true (hd.symm.trans hc)
      rw [Place.behind_cons, Place.next,
        Place.opened_of_ne (hne hslash) (hne hstring) (hne hcharacter)] at h
      exact ih h
    next => exact h

theorem inWord_of_startsWord (h : startsWord c = true) :
    inWord c = true :=
  Assembler.continuesName_of_startsName h

theorem readsAlike_word (line : Nat) (hc : inWord c = true)
    (h : Place.code.behind (c :: cs) = .code) :
    ReadsAlike (fun cs => .ok (word line (c :: cs))) cs := by
  refine Or.inr ⟨(word line (c :: cs)).1, (c :: cs).dropWhile inWord, ?_, ?_,
    fun rest hrest => ?_⟩
  · rw [List.dropWhile_cons, if_pos hc]
    exact (List.dropWhile_suffix _).length_le
  · exact behind_dropWhile (by decide) (by decide) (by decide) _ h
  · obtain ⟨htake, hdrop⟩ :=
      run_append (p := inWord) (by decide) (by decide) hrest (c :: cs)
    show Except.ok (word line (c :: cs ++ rest)) = _
    rw [word, htake, hdrop]
    rfl

theorem numeral_hex {mark : Char} (hmark : mark = 'x' ∨ mark = 'X')
    (cs : List Char) :
    numeral ('0' :: mark :: cs) = if (cs.takeWhile inHex).isEmpty then none
      else some ('0' :: mark :: cs.takeWhile inHex, cs.dropWhile inHex) := by
  rcases hmark with rfl | rfl
  · rfl
  · rfl

theorem numeral_decimal
    (h : ∀ mark ∈ cs.head?, c = '0' → mark ≠ 'x' ∧ mark ≠ 'X') :
    numeral (c :: cs) =
      some ((c :: cs).takeWhile isDigit, (c :: cs).dropWhile isDigit) := by
  rw [numeral]
  · rintro ds heq
    cases heq
    exact (h 'x' rfl rfl).1 rfl
  · rintro ds heq
    cases heq
    exact (h 'X' rfl rfl).2 rfl

/-- A number is read in decimal if no mark for hexadecimal numbers follows a
zero. -/
theorem numeral_cases (c : Char) (cs : List Char) :
    (c = '0' ∧ ∃ mark ds, cs = mark :: ds ∧ (mark = 'x' ∨ mark = 'X')) ∨
      numeral (c :: cs) =
        some ((c :: cs).takeWhile isDigit, (c :: cs).dropWhile isDigit) := by
  by_cases hhex : c = '0' ∧ ∃ mark ds, cs = mark :: ds ∧
    (mark = 'x' ∨ mark = 'X')
  · exact Or.inl hhex
  · refine Or.inr (numeral_decimal fun mark hmem hzero => ?_)
    obtain ⟨ds, rfl⟩ := List.head?_eq_some_iff.mp hmem
    rw [← not_or]
    exact fun hd => hhex ⟨hzero, mark, ds, rfl, hd⟩

/-- The spelling of a number is found whatever ends it. -/
theorem numeral_append (hc : isDigit c = true)
    (h : Place.code.behind (c :: cs) = .code) :
    (∀ rest, Ends rest → numeral (c :: cs ++ rest) = none) ∨
      ∃ spelling mid, mid.length ≤ cs.length ∧ Place.code.behind mid = .code ∧
        ∀ rest, Ends rest →
          numeral (c :: cs ++ rest) = some (spelling, mid ++ rest) := by
  by_cases hhex : c = '0' ∧ ∃ mark ds, cs = mark :: ds ∧
    (mark = 'x' ∨ mark = 'X')
  · obtain ⟨rfl, mark, ds, rfl, hmark⟩ := hhex
    have hds : Place.code.behind ds = .code := by
      rcases hmark with rfl | rfl
      · exact h
      · exact h
    have hrun {rest : List Char} (hrest : Ends rest) :=
      run_append (p := inHex) (by decide) (by decide) hrest ds
    cases hempty : (ds.takeWhile inHex).isEmpty with
    | true =>
      refine Or.inl fun rest hrest => ?_
      rw [List.cons_append, List.cons_append, numeral_hex hmark, (hrun hrest).1,
        hempty, if_pos rfl]
    | false =>
      refine Or.inr ⟨'0' :: mark :: ds.takeWhile inHex, ds.dropWhile inHex, ?_,
        ?_, fun rest hrest => ?_⟩
      · exact Nat.le_add_right_of_le (List.dropWhile_suffix _).length_le
      · exact behind_dropWhile (by decide) (by decide) (by decide) ds hds
      · rw [List.cons_append, List.cons_append, numeral_hex hmark,
          (hrun hrest).1, (hrun hrest).2, hempty, if_neg Bool.false_ne_true]
  · refine Or.inr ⟨(c :: cs).takeWhile isDigit, (c :: cs).dropWhile isDigit, ?_,
      ?_, fun rest hrest => ?_⟩
    · rw [List.dropWhile_cons, if_pos hc]
      exact (List.dropWhile_suffix _).length_le
    · exact behind_dropWhile (by decide) (by decide) (by decide) _ h
    · have hmark : ∀ mark ∈ (cs ++ rest).head?, c = '0' →
          mark ≠ 'x' ∧ mark ≠ 'X' := by
        intro mark hmem hzero
        cases cs with
        | nil =>
          rcases hrest mark hmem with rfl | rfl
          · decide
          · decide
        | cons d cs =>
          cases hmem
          rw [← not_or]
          exact fun hd => hhex ⟨hzero, _, cs, rfl, hd⟩
      obtain ⟨htake, hdrop⟩ :=
        run_append (p := isDigit) (by decide) (by decide) hrest (c :: cs)
      rw [List.cons_append, numeral_decimal hmark, ← List.cons_append,
        htake, hdrop]

theorem readsAlike_number (line : Nat) (hc : isDigit c = true)
    (h : Place.code.behind (c :: cs) = .code) :
    ReadsAlike (fun cs => number line (c :: cs)) cs := by
  rcases numeral_append hc h with hnone | ⟨spelling, mid, hlength, hcode, hsome⟩
  · refine Or.inl ⟨.bareHexMark line, fun rest hrest => ?_⟩
    show number line (c :: cs ++ rest) = _
    rw [number, hnone rest hrest]
  · cases mid with
    | nil =>
      refine Or.inr ⟨⟨.integer, Utf8.encode spelling, line⟩, [], hlength, hcode,
        fun rest hrest => ?_⟩
      show number line (c :: cs ++ rest) = _
      rw [number, hsome rest hrest]
      cases rest with
      | nil => rfl
      | cons d rest =>
        have hd : startsWord d = false := by
          rcases hrest d rfl with rfl | rfl
          · decide
          · decide
        simp only [List.nil_append, hd, Bool.false_eq_true, if_false]
    | cons d mid =>
      cases hd : startsWord d with
      | true =>
        refine Or.inl ⟨.suffix d line, fun rest hrest => ?_⟩
        show number line (c :: cs ++ rest) = _
        rw [number, hsome rest hrest]
        simp only [List.cons_append, hd, if_true]
      | false =>
        refine Or.inr ⟨⟨.integer, Utf8.encode spelling, line⟩, d :: mid,
          hlength, hcode, fun rest hrest => ?_⟩
        show number line (c :: cs ++ rest) = _
        rw [number, hsome rest hrest]
        simp only [List.cons_append, hd, Bool.false_eq_true, if_false]

/-- A reader that goes on with what another one has read reads alike too. -/
theorem ReadsAlike.andThen {α β : Type}
    {read : List Char → Except LexError (α × List Char)}
    {read' : List Char → Except LexError (β × List Char)} {cs' : List Char}
    (h : ReadsAlike read cs) (hlength : cs.length ≤ cs'.length)
    (f : α → Except LexError β)
    (hread : ∀ rest, read' (cs' ++ rest) = (read (cs ++ rest)).bind fun e =>
      (f e.1).map (·, e.2)) : ReadsAlike read' cs' := by
  rcases h with ⟨e, herror⟩ | ⟨a, mid, hmid, hcode, hok⟩
  · refine Or.inl ⟨e, fun rest hrest => ?_⟩
    rw [hread, herror rest hrest]
    rfl
  · cases hf : f a with
    | error e =>
      refine Or.inl ⟨e, fun rest hrest => ?_⟩
      rw [hread, hok rest hrest, Except.bind, hf]
      rfl
    | ok b =>
      refine Or.inr ⟨b, mid, Nat.le_trans hmid hlength, hcode,
        fun rest hrest => ?_⟩
      rw [hread, hok rest hrest, Except.bind, hf]
      rfl

theorem body_quote (kind : Literal) (line : Nat) (cs : List Char) :
    body kind line (kind.quote :: cs) = .ok ([], cs) := by
  cases cs with
  | nil => exact if_pos rfl
  | cons d cs => exact if_pos rfl

theorem body_newline (kind : Literal) (line : Nat) (cs : List Char) :
    body kind line ('\n' :: cs) = .error (.openLiteral kind line) := by
  cases kind with
  | string => cases cs <;> rfl
  | character => cases cs <;> rfl

theorem escaped?_newline : escaped? '\n' = none := by
  decide

theorem readsAlike_body (kind : Literal) (line : Nat) (cs : List Char)
    (h : (Place.literal kind.quote).behind cs = .code) :
    ReadsAlike (body kind line) cs := by
  fun_induction body kind line cs with
  | case1 => cases h
  | case2 =>
    exact Or.inr ⟨[], [], Nat.zero_le _, rfl,
      fun rest _ => body_quote kind line rest⟩
  | case3 hquote =>
    rw [Place.behind_cons, Place.next, if_neg (by simp [hquote]),
      if_pos rfl] at h
    cases h
  | case4 c hquote hescape =>
    by_cases hc : c = '\n'
    · subst hc
      exact Or.inl ⟨_, fun rest _ => body_newline kind line rest⟩
    · rw [Place.behind_cons, Place.next, if_neg (by simp [hquote, hc]),
        if_neg hescape] at h
      cases h
  | case5 d cs =>
    rw [Place.behind_cons, Place.next, if_pos (Or.inl rfl)] at h
    exact Or.inr ⟨[], d :: cs, Nat.le_succ _, h,
      fun rest _ => body_quote kind line _⟩
  | case6 d cs hquote =>
    exact Or.inl ⟨_, fun rest _ => body_newline kind line _⟩
  | case7 d cs hescaped hquote hnewline =>
    refine Or.inl ⟨.unknownEscape d line, fun rest _ => ?_⟩
    rw [List.cons_append, List.cons_append, body, if_neg hquote,
      if_neg hnewline, if_pos rfl, hescaped]
  | case8 d cs e hescaped hquote hnewline ih =>
    have hd : d ≠ '\n' := by
      rintro rfl
      rw [escaped?_newline] at hescaped
      cases hescaped
    rw [Place.behind_cons, Place.next, if_neg (by simp [hquote]), if_pos rfl,
      Place.behind_cons, Place.next, if_neg hd] at h
    refine (ih h).andThen (Nat.le_add_right _ 2) (fun val => .ok (e :: val))
      fun rest => ?_
    rw [List.cons_append, List.cons_append, body, if_neg hquote,
      if_neg hnewline, if_pos rfl, hescaped]
    rfl
  | case9 c d cs hquote hnewline hescape ih =>
    rw [Place.behind_cons, Place.next, if_neg (by simp [hquote, hnewline]),
      if_neg hescape] at h
    refine (ih h).andThen (Nat.le_succ _) (fun val => .ok (c :: val))
      fun rest => ?_
    rw [List.cons_append, List.cons_append, body, if_neg hquote,
      if_neg hnewline, if_neg hescape]
    rfl

theorem readsAlike_string (line : Nat)
    (h : (Place.literal '"').behind cs = .code) :
    ReadsAlike (string line) cs := by
  refine (readsAlike_body .string line cs h).andThen (Nat.le_refl _)
    (fun val => .ok ⟨.string, Utf8.encode val, line⟩) fun rest => ?_
  rfl

def characterToken (line : Nat) : List Char → Except LexError Token
  | [c] => .ok ⟨.character, Numeral.decimalNat c.toNat, line⟩
  | _ => .error (.notOneCharacter line)

theorem readsAlike_character (line : Nat)
    (h : (Place.literal '\'').behind cs = .code) :
    ReadsAlike (character line) cs := by
  refine (readsAlike_body .character line cs h).andThen (Nat.le_refl _)
    (characterToken line) fun rest => ?_
  rw [character]
  cases body .character line (cs ++ rest) with
  | error e => rfl
  | ok e =>
    obtain ⟨val, rest⟩ := e
    match val with
    | [] => rfl
    | [c] => rfl
    | c :: d :: val => rfl

theorem readsAlike_mark (line : Nat) (c : Char)
    (h : Place.code.behind cs = .code) : ReadsAlike (mark line c) cs := by
  cases hkind : TokenKind.ofMark? c with
  | none =>
    refine Or.inl ⟨.unexpected c line, fun rest _ => ?_⟩
    rw [mark, hkind]
  | some kind =>
    refine Or.inr ⟨⟨kind, Utf8.encode [c], line⟩, cs, Nat.le_refl _, h,
      fun rest _ => ?_⟩
    rw [mark, hkind]

theorem ofPair?_eq_some {kind : TokenKind}
    (h : TokenKind.ofPair? c d = some kind) :
    d = '=' ∧ Place.opened c = .code := by
  unfold TokenKind.ofPair? at h
  split at h
  · exact ⟨rfl, by decide⟩
  · exact ⟨rfl, by decide⟩
  · exact ⟨rfl, by decide⟩
  · exact ⟨rfl, by decide⟩
  · cases h

theorem ofPair?_of_ends (h : d = '/' ∨ d = '\n') :
    TokenKind.ofPair? c d = none := by
  cases hpair : TokenKind.ofPair? c d with
  | none => rfl
  | some kind =>
    obtain ⟨rfl, -⟩ := ofPair?_eq_some hpair
    exact absurd h (by decide)

theorem operator_of_none (h : TokenKind.ofPair? c d = none) (cs : List Char) :
    operator line c (d :: cs) = mark line c (d :: cs) := by
  rw [operator, h]

theorem readsAlike_operator (line : Nat) (hno : NoComment (c :: cs))
    (hstring : c ≠ '"') (hcharacter : c ≠ '\'')
    (h : Place.code.behind (c :: cs) = .code) :
    ReadsAlike (operator line c) cs := by
  cases cs with
  | nil =>
    refine (readsAlike_mark line c rfl).congr fun rest hrest => ?_
    cases rest with
    | nil => rfl
    | cons d rest => exact operator_of_none (ofPair?_of_ends (hrest d rfl)) rest
  | cons d cs =>
    cases hpair : TokenKind.ofPair? c d with
    | some kind =>
      obtain ⟨rfl, hopened⟩ := ofPair?_eq_some hpair
      rw [Place.behind_cons, Place.next, hopened] at h
      refine Or.inr ⟨⟨kind, Utf8.encode [c, '='], line⟩, cs, Nat.le_succ _, h,
        fun rest _ => ?_⟩
      rw [List.cons_append, operator, hpair]
    | none =>
      -- A slash that begins no comment leaves the code as it is.
      have hcode : Place.code.behind (d :: cs) = .code := by
        by_cases hc : c = '/'
        · subst hc
          have hslash : d ≠ '/' := by
            rintro rfl
            exact (hno cs).1 rfl
          have hstar : d ≠ '*' := by
            rintro rfl
            exact (hno cs).2 rfl
          rw [Place.behind_cons, show Place.code.next '/' = .slash from rfl,
            Place.behind_cons, Place.slash_next hslash hstar] at h
          exact h
        · rw [Place.behind_cons, Place.next,
            Place.opened_of_ne hc hstring hcharacter] at h
          exact h
      exact (readsAlike_mark line c hcode).congr fun rest _ =>
        operator_of_none hpair (cs ++ rest)

theorem readsAlike_token (line : Nat) (hno : NoComment (c :: cs))
    (h : Place.code.behind (c :: cs) = .code) :
    ReadsAlike (token line c) cs := by
  by_cases hword : startsWord c = true
  · exact (readsAlike_word line (inWord_of_startsWord hword) h).congr
      fun rest _ => if_pos hword
  by_cases hdigit : isDigit c = true
  · exact (readsAlike_number line hdigit h).congr fun rest _ =>
      (if_neg hword).trans (if_pos hdigit)
  by_cases hstring : c = '"'
  · subst hstring
    exact (readsAlike_string line h).congr fun rest _ => rfl
  by_cases hcharacter : c = '\''
  · subst hcharacter
    exact (readsAlike_character line h).congr fun rest _ => rfl
  · refine (readsAlike_operator line hno hstring hcharacter h).congr
      fun rest _ => ?_
    rw [token, if_neg hword, if_neg hdigit, if_neg hstring, if_neg hcharacter]

/-! ### Texts -/

theorem length_of_skip {r : Region} {line' : Nat}
    (h : skip r line cs = .ok (line', rest)) : rest.length ≤ cs.length := by
  fun_induction skip r line cs with
  | case1 =>
    cases h
    exact Nat.le_refl _
  | case2 line cs ih =>
    exact Nat.le_add_right_of_le (Nat.le_add_right_of_le (ih h))
  | case3 line cs ih =>
    exact Nat.le_add_right_of_le (Nat.le_add_right_of_le (ih h))
  | case4 line c cs hline hblock hblank ih =>
    exact Nat.le_add_right_of_le (ih h)
  | case5 =>
    cases h
    exact Nat.le_refl _
  | case6 =>
    cases h
    exact Nat.le_refl _
  | case7 line cs ih => exact Nat.le_add_right_of_le (ih h)
  | case8 line c cs hc ih => exact Nat.le_add_right_of_le (ih h)
  | case9 => cases h
  | case10 opened line cs ih =>
    exact Nat.le_add_right_of_le (Nat.le_add_right_of_le (ih h))
  | case11 start line c cs hend ih => exact Nat.le_add_right_of_le (ih h)

theorem length_of_body {kind : Literal} {val : List Char}
    (h : body kind line cs = .ok (val, rest)) : rest.length ≤ cs.length := by
  fun_induction body kind line cs generalizing val with
  | case1 => cases h
  | case2 =>
    cases h
    exact Nat.zero_le _
  | case3 => cases h
  | case4 => cases h
  | case5 d cs =>
    cases h
    exact Nat.le_succ _
  | case6 => cases h
  | case7 => cases h
  | case8 d cs e hescaped hquote hnewline ih =>
    cases hbody : body kind line cs with
    | error e =>
      rw [hbody] at h
      cases h
    | ok r =>
      rw [hbody] at h
      cases h
      exact Nat.le_add_right_of_le (Nat.le_add_right_of_le (ih hbody))
  | case9 c d cs hquote hnewline hescape ih =>
    cases hbody : body kind line (d :: cs) with
    | error e =>
      rw [hbody] at h
      cases h
    | ok r =>
      rw [hbody] at h
      cases h
      exact Nat.le_add_right_of_le (ih hbody)

theorem length_of_numeral {spelling : List Char} (hc : isDigit c = true)
    (h : numeral (c :: cs) = some (spelling, rest)) :
    rest.length ≤ cs.length := by
  rcases numeral_cases c cs with ⟨rfl, mark, ds, rfl, hmark⟩ | hdecimal
  · rw [numeral_hex hmark] at h
    obtain ⟨-, h⟩ := Option.ite_none_left_eq_some.mp h
    cases h
    exact Nat.le_add_right_of_le (List.dropWhile_suffix _).length_le
  · rw [hdecimal, List.dropWhile_cons, if_pos hc] at h
    cases h
    exact (List.dropWhile_suffix _).length_le

theorem length_of_number (hc : isDigit c = true)
    (h : number line (c :: cs) = .ok (t, rest)) : rest.length ≤ cs.length := by
  rw [number] at h
  rcases hnumeral : numeral (c :: cs) with _ | ⟨spelling, _ | ⟨d, mid⟩⟩
    <;> rw [hnumeral] at h
  · cases h
  · cases h
    exact Nat.zero_le _
  · simp only at h
    obtain ⟨-, h⟩ := ok_of_else h
    cases h
    exact length_of_numeral hc hnumeral

theorem rest_of_mark (h : mark line c cs = .ok (t, rest)) : rest = cs := by
  rw [mark] at h
  split at h
  next =>
    cases h
    rfl
  next => cases h

theorem length_of_operator (h : operator line c cs = .ok (t, rest)) :
    rest.length ≤ cs.length := by
  cases cs with
  | nil =>
    rw [rest_of_mark h]
  | cons d cs =>
    rw [operator] at h
    split at h
    next =>
      cases h
      exact Nat.le_succ _
    next =>
      rw [rest_of_mark h]

/-- A token takes its first character at least. -/
theorem length_of_token (h : token line c cs = .ok (t, rest)) :
    rest.length ≤ cs.length := by
  rw [token] at h
  split at h
  next hword =>
    cases h
    rw [List.dropWhile_cons, if_pos (inWord_of_startsWord hword)]
    exact (List.dropWhile_suffix _).length_le
  next =>
    split at h
    next hdigit => exact length_of_number hdigit h
    next =>
      split at h
      next =>
        cases hbody : body .string line cs with
        | error e =>
          rw [string, hbody] at h
          cases h
        | ok e =>
          rw [string, hbody] at h
          cases h
          exact length_of_body hbody
      next =>
        split at h
        next =>
          cases hbody : body .character line cs with
          | error e =>
            rw [character, hbody] at h
            cases h
          | ok e =>
            obtain ⟨val, rest'⟩ := e
            rw [character, hbody] at h
            rcases val with _ | ⟨c, _ | ⟨d, val⟩⟩
            · cases h
            · cases h
              exact length_of_body hbody
            · cases h
        next => exact length_of_operator h

/-- With more fuel than a text has characters, the fuel does not matter. -/
theorem tokens_fuel {fuel fuel' : Nat} (h : cs.length < fuel)
    (h' : cs.length < fuel') : tokens fuel line cs = tokens fuel' line cs := by
  induction fuel generalizing fuel' line cs with
  | zero => cases h
  | succ fuel ih =>
    cases fuel' with
    | zero => cases h'
    | succ fuel' =>
      rw [tokens, tokens]
      rcases hskip : skip .blanks line cs with e | ⟨line', _ | ⟨c, rest⟩⟩
      · rfl
      · rfl
      · have hlength := length_of_skip hskip
        rw [List.length_cons] at hlength
        cases htoken : token line' c rest with
        | error e => simp only [htoken]
        | ok e =>
          obtain ⟨t, rest'⟩ := e
          have hrest := length_of_token htoken
          have hih : tokens fuel line' rest' = tokens fuel' line' rest' :=
            ih (by omega) (by omega)
          simp only [htoken, hih]

/-- Texts that are skipped alike are scanned alike behind a place in the
code. -/
theorem tokens_append {rest' : List Char} (hrest : Ends rest)
    (hrest' : Ends rest')
    (hskip : ∀ line, skip .blanks line rest = skip .blanks line rest')
    (hcode : Place.code.behind cs = .code) {fuel fuel' : Nat} (line : Nat)
    (hfuel : (cs ++ rest).length < fuel)
    (hfuel' : (cs ++ rest').length < fuel') :
    tokens fuel line (cs ++ rest) = tokens fuel' line (cs ++ rest') := by
  induction hn : cs.length using Nat.strong_induction_on
    generalizing cs fuel fuel' line with
  | _ n ih =>
    rw [List.length_append] at hfuel hfuel'
    cases fuel with
    | zero => cases hfuel
    | succ fuel =>
      cases fuel' with
      | zero => cases hfuel'
      | succ fuel' =>
        obtain ⟨line', mid, hmid, hmidCode, hno, hskips⟩ :=
          skip_append .blanks line cs hcode
        rw [tokens, tokens, hskips, hskips]
        cases mid with
        | nil =>
          -- All of `cs` was skipped, and both texts go on alike.
          simp only [List.isEmpty_nil, if_true, hskip]
          rcases hends : skip .blanks line' rest' with e | ⟨line'', _ | ⟨c, ds⟩⟩
          · rfl
          · rfl
          · have hlength := length_of_skip ((hskip line').trans hends)
            have hlength' := length_of_skip hends
            rw [List.length_cons] at hlength hlength'
            cases htoken : token line'' c ds with
            | error e => simp only [htoken]
            | ok e =>
              obtain ⟨t, es⟩ := e
              have hes := length_of_token htoken
              have hsame : tokens fuel line'' es = tokens fuel' line'' es :=
                tokens_fuel (by omega) (by omega)
              simp only [htoken, hsame]
        | cons c mid =>
          rw [List.length_cons] at hmid
          simp only [List.isEmpty_cons, Bool.false_eq_true, if_false,
            List.cons_append]
          rcases readsAlike_token line' hno hmidCode with
              ⟨e, herror⟩ | ⟨t, mid', hmid', hcode', hok⟩
          · simp only [herror rest hrest, herror rest' hrest']
          · have hsame :
                tokens fuel line' (mid' ++ rest) =
                tokens fuel' line' (mid' ++ rest') :=
              ih mid'.length (by omega) hcode' line'
                (by rw [List.length_append]; omega)
                (by rw [List.length_append]; omega) rfl
            simp only [hok rest hrest, hok rest' hrest', hsame]

/-- A line comment is skipped like nothing at all. -/
theorem skip_comment (line : Nat) {comment : List Char}
    (hcomment : '\n' ∉ comment) (hrest : ∀ c ∈ rest.head?, c = '\n') :
    skip .blanks line ('/' :: '/' :: (comment ++ rest)) =
      skip .blanks line rest := by
  rw [skip]
  induction comment with
  | nil =>
    cases rest with
    | nil => rfl
    | cons c rest =>
      cases hrest c rfl
      rfl
  | cons c comment ih =>
    rw [List.mem_cons, not_or] at hcomment
    rw [List.cons_append, skip, if_neg (Ne.symm hcomment.1)]
    exact ih hcomment.2

end Scan

theorem Utf8.byte_mem_of_mem_chars {s : Bytes} {c : Char} (hc : c.toNat < 0x80)
    (h : c ∈ chars s) : c.toUInt8 ∈ s := by
  obtain ⟨p, hp, hchar⟩ := List.mem_map.mp h
  have hbyte : c.toUInt8 ∈ p.bytes := by
    cases p with
    | char d =>
      have hd : d = c := hchar
      rw [Piece.bytes, hd, encodeChar_ascii hc]
      exact List.mem_singleton_self _
    | stray b =>
      have hreplacement : Piece.replacement = c := hchar
      rw [← hreplacement] at hc
      exact absurd hc (by decide)
  rw [← join_pieces s]
  exact List.mem_flatMap.mpr ⟨p, hp, hbyte⟩

/-- A line comment that begins in the code does not change the tokens. -/
theorem lex_comment {head comment tail : Bytes}
    (hplace : Scan.Place.code.behind (Utf8.chars head) = .code)
    (hcomment : byte '\n' ∉ comment) (htail : ∀ b ∈ tail.head?, b = byte '\n') :
    lex (head ++ (text "//" ++ (comment ++ tail))) = lex (head ++ tail) := by
  have htailApart : Utf8.StartsApart tail := by
    intro b hb
    rw [htail b hb]
    decide
  have hslashes : Utf8.chars (text "//" ++ (comment ++ tail)) =
      '/' :: '/' :: (Utf8.chars comment ++ Utf8.chars tail) := by
    rw [show text "//" = [byte '/', byte '/'] from rfl, List.cons_append,
      List.singleton_append, Utf8.chars_ascii (by decide),
      Utf8.chars_ascii (by decide), Utf8.chars_append htailApart]
    rfl
  have hnewline : '\n' ∉ Utf8.chars comment :=
    fun hmem => hcomment (Utf8.byte_mem_of_mem_chars (by decide) hmem)
  have hends : ∀ c ∈ (Utf8.chars tail).head?, c = '\n' := by
    cases tail with
    | nil =>
      intro c hc
      cases hc
    | cons b tail =>
      rw [htail b rfl, Utf8.chars_ascii (by decide)]
      intro c hc
      cases hc
      rfl
  have hscan :
      scan (head ++ (text "//" ++ (comment ++ tail))) =
      scan (head ++ tail) := by
    have hapart : Utf8.StartsApart (text "//" ++ (comment ++ tail)) :=
      Utf8.startsApart_cons.mpr (by decide)
    rw [scan, scan, Utf8.chars_append hapart, Utf8.chars_append htailApart,
      hslashes]
    refine Scan.tokens_append ?_ (fun c hc => Or.inr (hends c hc))
      (fun line => Scan.skip_comment line hnewline hends) hplace 1
      (Nat.lt_succ_self _) (Nat.lt_succ_self _)
    intro c hc
    cases hc
    exact Or.inl rfl
  rw [lex, lex, hscan]

end StackC
