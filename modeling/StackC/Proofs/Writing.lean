import StackC.Proofs.Tiling

/-!
Tokens written down again. A token has the text it was spelled with, except that
the contents of a literal are kept without its escapes, so they are put back.
One blank between two tokens keeps each of them whole, and what is scanned from
such a text are the tokens it was written from.
-/

namespace StackC

def Literal.escape (kind : Literal) (c : Char) : List Char :=
  if c = '\n' then ['\\', 'n']
  else if c = '\r' then ['\\', 'r']
  else if c = '\t' then ['\\', 't']
  else if c = '\x00' then ['\\', '0']
  else if c = '\\' ∨ c = kind.quote then ['\\', c]
  else [c]

def Literal.write (kind : Literal) (val : List Char) : List Char :=
  kind.quote :: (val.flatMap kind.escape ++ [kind.quote])

namespace Token

def codeChar (t : Token) : Char :=
  match Numeral.readUnsigned 64 t.lexeme with
  | .ok n => Char.ofNat n
  | .error _ => '\x00'

/-- A token as it is spelled in a text. -/
def written (t : Token) : Bytes :=
  match t.kind with
  | .string => Utf8.encode (Literal.string.write (Utf8.chars t.lexeme))
  | .character => Utf8.encode (Literal.character.write [t.codeChar])
  | _ => t.lexeme

/-- What a token is apart from its line. -/
def spelling (t : Token) : TokenKind × Bytes :=
  (t.kind, t.lexeme)

end Token

/-- Tokens as a text, with a blank between each two of them. -/
def written (ts : List Token) : Bytes :=
  (text " ").intercalate (ts.map Token.written)

namespace Scan

variable {cs : List Char} {t : Token}

theorem decodes_escape (kind : Literal) (c : Char) {val : List Char}
    (h : Decodes kind.quote cs val) :
    Decodes kind.quote (kind.escape c ++ cs) (c :: val) := by
  rw [Literal.escape]
  split
  next hc => exact .escape (hc ▸ by decide) h
  next hline =>
    split
    next hc => exact .escape (hc ▸ by decide) h
    next =>
      split
      next hc => exact .escape (hc ▸ by decide) h
      next =>
        split
        next hc => exact .escape (hc ▸ by decide) h
        next =>
          split
          next hc =>
            refine .escape ?_ h
            rcases hc with rfl | rfl
            · decide
            · cases kind with
              | string => decide
              | character => decide
          next hc =>
            rw [not_or] at hc
            exact .plain hc.2 hline hc.1 h

/-- The contents of a written literal are read back. -/
theorem decodes_flatMap_escape (kind : Literal) (val : List Char) :
    Decodes kind.quote (val.flatMap kind.escape) val := by
  induction val with
  | nil => exact .nil
  | cons c val ih => exact decodes_escape kind c ih

theorem codeChar_decimalNat (kind : TokenKind) (c : Char) (line : Int) :
    Token.codeChar ⟨kind, Numeral.decimalNat c.toNat, line⟩ = c := by
  have hlt : c.toNat < 1 <<< 64 :=
    Nat.lt_trans (Utf8.toNat_val_lt c) (by decide)
  rw [Token.codeChar, Numeral.readUnsigned_decimalNat hlt]
  exact Char.ofNat_toNat c

theorem written_of_isLiteral (h : isLiteral t.kind = false) :
    t.written = t.lexeme := by
  rw [Token.written]
  split
  next hkind =>
    rw [hkind] at h
    cases h
  next hkind =>
    rw [hkind] at h
    cases h
  next => rfl

/-- A token that has a region is written as one, on any line, if a blank or
nothing follows. -/
theorem Spells.written {region : List Char} {next : Option Char}
    (h : Spells t region next) :
    ∃ cs, t.written = Utf8.encode cs ∧
      ∀ (line : Int) {next' : Option Char}, (∀ d ∈ next', d = ' ') →
        Spells ⟨t.kind, t.lexeme, line⟩ cs next' := by
  have hends {next' : Option Char} (hnext : ∀ d ∈ next', d = ' ') :
      ∀ d ∈ next', inWord d = false := by
    intro d hd
    rw [hnext d hd]
    decide
  cases h with
  | word hfirst hrest _ =>
    exact ⟨_, written_of_isLiteral (isLiteral_ofWord? _), fun _ _ hnext =>
      .word hfirst hrest (hends hnext)⟩
  | number hspelling _ =>
    exact ⟨_, rfl, fun _ _ hnext => .number hspelling (hends hnext)⟩
  | @string inner val _ _ hinner =>
    refine ⟨Literal.string.write val, ?_,
      fun _ _ _ => .string (decodes_flatMap_escape .string val)⟩
    show Utf8.encode (Literal.string.write (Utf8.chars (Utf8.encode val))) = _
    rw [Utf8.chars_encode]
  | @character inner c _ _ hinner =>
    refine ⟨Literal.character.write [c], ?_,
      fun _ _ _ => .character (decodes_flatMap_escape .character [c])⟩
    exact congrArg (fun c => Utf8.encode (Literal.character.write [c]))
      (codeChar_decimalNat .character c _)
  | pair hkind =>
    exact ⟨_, written_of_isLiteral (isLiteral_ofPair? hkind),
      fun _ _ _ => .pair hkind⟩
  | @mark c kind _ _ hkind _ _ =>
    refine ⟨_, written_of_isLiteral (isLiteral_ofMark? hkind),
      fun _ next' hnext => .mark hkind ?_ ?_⟩
    · intro d hd
      cases hpair : TokenKind.ofPair? c d with
      | none => rfl
      | some kind =>
        have hblank := hnext d hd
        rw [(ofPair?_eq_some hpair).1] at hblank
        exact absurd hblank (by decide)
    · intro _ d hd
      rw [hnext d hd]
      decide

/-- The tokens of a text have regions, and behind them stands the end of the
text if it has no mistakes. -/
theorem spells_of_tokens {fuel : Nat} (line : Nat) (hfuel : cs.length < fuel) :
    ∃ ts ends, (tokens fuel line cs).1 = ts ++ ends ∧
      (∀ t ∈ ts, ∃ region next, Spells t region next) ∧
      ((tokens fuel line cs).2 = none ∧ ends.map Token.spelling = [(.eof, [])] ∨
        (tokens fuel line cs).2 ≠ none ∧ ends = []) := by
  induction fuel generalizing line cs with
  | zero => cases hfuel
  | succ fuel ih =>
    rw [tokens]
    rcases hskip : skip .blanks line cs with e | ⟨line', _ | ⟨c, mid⟩⟩
    · exact ⟨[], [], rfl, by simp, Or.inr ⟨Option.some_ne_none e, rfl⟩⟩
    · exact ⟨[], [⟨.eof, [], line'⟩], rfl, by simp, Or.inl ⟨rfl, rfl⟩⟩
    · obtain ⟨gap, rfl, -, -, -, hno⟩ := gap_of_skip hskip
      rcases htoken : token line' c mid with e | ⟨t, rest⟩
      · exact ⟨[], [], by simp only [htoken, List.append_nil], by simp,
          Or.inr ⟨by simp [htoken], rfl⟩⟩
      · obtain ⟨-, region, hsplit, hregion⟩ := spells_of_token hno htoken
        have hlength := length_of_token htoken
        rw [List.length_append, List.length_cons] at hfuel
        obtain ⟨ts, ends, hts, hspells, hends⟩ :=
          ih line' (show rest.length < fuel by omega)
        refine ⟨t :: ts, ends, ?_, ?_, ?_⟩
        · simp only [htoken, hts, List.cons_append]
        · intro u hu
          rcases List.mem_cons.mp hu with rfl | hu
          · exact ⟨region, rest.head?, hregion⟩
          · exact hspells u hu
        · simp only [htoken]
          exact hends

/-- What can stand before a token of a written text. -/
def IsLead (lead : List Char) : Prop :=
  lead = [] ∨ lead = [' ']

theorem IsLead.gap {lead : List Char} (h : IsLead lead) (atEnd : Bool) :
    Gap atEnd lead := by
  rcases h with rfl | rfl
  · exact .nil
  · exact .blank (by decide) .nil

theorem written_ends {ends : List Token}
    (h : ends = [] ∨ ends.map Token.spelling = [(.eof, [])]) :
    written ends = [] := by
  rcases h with rfl | h
  · rfl
  · obtain ⟨t, rfl, ht⟩ := List.map_eq_singleton_iff.mp h
    have hkind : t.kind = .eof := congrArg Prod.fst ht
    have hlexeme : t.lexeme = [] := congrArg Prod.snd ht
    show (text " ").intercalate [t.written] = []
    rw [List.intercalate_singleton, Token.written, hkind, hlexeme]

/-- What a written text holds behind its first token: nothing, or a blank and
the other tokens. -/
theorem chars_written_cons (ht : t.written = Utf8.encode cs) (ts : List Token) :
    ∃ lead, IsLead lead ∧
      Utf8.chars (written (t :: ts)) = cs ++ (lead ++ Utf8.chars (written ts)) ∧
      ∀ d ∈ (lead ++ Utf8.chars (written ts)).head?, d = ' ' := by
  cases ts with
  | nil =>
    refine ⟨[], Or.inl rfl, ?_, by simp [written, Utf8.chars, Utf8.pieces]⟩
    show Utf8.chars ((text " ").intercalate [t.written]) = cs ++ Utf8.chars []
    rw [List.intercalate_singleton, ht, Utf8.chars_encode]
    exact (List.append_nil cs).symm
  | cons u ts =>
    refine ⟨[' '], Or.inr rfl, ?_, ?_⟩
    · have hblank : Utf8.chars (text " " ++ written (u :: ts)) =
          ' ' :: Utf8.chars (written (u :: ts)) :=
        Utf8.chars_ascii (by decide) _
      have hapart : Utf8.StartsApart (text " " ++ written (u :: ts)) :=
        Utf8.startsApart_ascii (by decide) _
      show Utf8.chars
        ((text " ").intercalate
          (t.written :: u.written :: ts.map Token.written)) = _
      rw [List.intercalate_cons_cons, ht, List.append_assoc,
        show (text " ").intercalate (u.written :: ts.map Token.written) =
        written (u :: ts) from rfl, Utf8.chars_append hapart,
        Utf8.chars_encode, hblank]
      rfl
    · intro d hd
      cases hd
      rfl

/-- A written text is tiled by the tokens it was written from. -/
theorem tiles_written {src lead : List Char} {ts ends : List Token} (pos : Nat)
    (hpos : pos ≤ src.length) (hlead : IsLead lead)
    (hts : ∀ t ∈ ts, ∃ region next, Spells t region next)
    (hends : ends = [] ∨ ends.map Token.spelling = [(.eof, [])])
    (h : src.drop pos = lead ++ Utf8.chars (written (ts ++ ends))) :
    ∃ us, Tiles src pos us ∧
      us.map Token.spelling = ts.map Token.spelling ++ [(.eof, [])] := by
  induction ts generalizing pos lead with
  | nil =>
    rw [List.nil_append, written_ends hends, show Utf8.chars [] = [] from rfl,
      List.append_nil] at h
    exact ⟨_, .last hpos (h ▸ hlead.gap true), rfl⟩
  | cons t ts ih =>
    rw [List.forall_mem_cons] at hts
    obtain ⟨⟨region, next, hspells⟩, hts⟩ := hts
    obtain ⟨cs, hwritten, hcs⟩ := hspells.written
    obtain ⟨lead', hlead', hchars, hhead⟩ :=
      chars_written_cons hwritten (ts ++ ends)
    rw [List.cons_append, hchars] at h
    have hregion := hcs (lineAt src pos + lead.count '\n' : Nat) hhead
    obtain ⟨hstop, hdrop, -⟩ := of_drop_eq_gap_append hpos h hregion
    obtain ⟨us, hus, hspelling⟩ := ih _ hstop hlead' hts hdrop
    refine ⟨_, .of_append hpos h (hlead.gap false) hregion ?_ hus, ?_⟩
    · push_cast
      rfl
    · rw [List.map_cons, hspelling]
      rfl

end Scan

/-- Tokens are written so that scanning gives them back, whether they are all
tokens of a text or those before its first mistake, which the end of the text
then follows. -/
theorem lex_written (src : Bytes) :
    (∀ ts, lex src = .ok ts →
      ∃ us, lex (written ts) = .ok us ∧
        us.map Token.spelling = ts.map Token.spelling) ∧
    ∀ ts e, scan src = (ts, some e) →
      ∃ us, lex (written ts) = .ok us ∧
        us.map Token.spelling = ts.map Token.spelling ++ [(.eof, [])] := by
  obtain ⟨us, ends, hsplit, hus, hends⟩ :=
    Scan.spells_of_tokens 1 (Nat.lt_succ_self (Utf8.chars src).length)
  have hscan : (scan src).1 = us ++ ends := hsplit
  have hwritten (hends : ends = [] ∨ ends.map Token.spelling = [(.eof, [])]) :
      ∃ ts, lex (written (us ++ ends)) = .ok ts ∧
      ts.map Token.spelling = us.map Token.spelling ++ [(.eof, [])] := by
    obtain ⟨ts, htiles, hts⟩ :=
      Scan.tiles_written 0 (Nat.zero_le _) (Or.inl rfl) hus hends rfl
    exact ⟨ts, lex_eq_ok_iff.mpr ((Scan.scan_eq_iff _ ts).mpr htiles), hts⟩
  rcases hends with ⟨hnone, heof⟩ | ⟨hsome, rfl⟩
  · refine ⟨fun ts hlex => ?_, fun ts e hmistake => ?_⟩
    · rw [lex_eq_ok_iff.mp hlex] at hscan
      subst hscan
      rw [List.map_append, heof]
      exact hwritten (Or.inr heof)
    · exact absurd ((congrArg Prod.snd hmistake).symm.trans hnone)
        (Option.some_ne_none e)
  · refine ⟨fun ts hlex => absurd (congrArg Prod.snd (lex_eq_ok_iff.mp hlex))
      hsome, fun ts e hmistake => ?_⟩
    rw [hmistake, List.append_nil] at hscan
    subst hscan
    have hts := hwritten (Or.inl rfl)
    rw [List.append_nil] at hts
    exact hts

/-- A keyword beside a name, an escaped quote, a comment and a number in
hexadecimal. -/
def literals : Bytes :=
  text "char c='\\'';//x\nprintf(\"%d\\n\",0x1F<=c)"

/-- These tokens are written with one blank between them and the escapes put
back, and read again, also when a mistake follows them in the text. -/
theorem lex_written_literals :
    (∃ ts us, lex literals = .ok ts ∧
      written ts = text "char c = '\\'' ; printf ( \"%d\\n\" , 0x1F <= c ) " ∧
      lex (written ts) = .ok us ∧
      us.map Token.spelling = ts.map Token.spelling) ∧
    ∃ ts us, scan (literals ++ text "@") = (ts, some (.unexpected '@' 2)) ∧
      lex (written ts) = .ok us ∧
      us.map Token.spelling = ts.map Token.spelling ++ [(.eof, [])] := by
  have hnone : (scan literals).2 = none := by decide +kernel
  have hsome : (scan (literals ++ text "@")).2 = some (.unexpected '@' 2) := by
    decide +kernel
  have htext :
      written (scan literals).1 =
      text "char c = '\\'' ; printf ( \"%d\\n\" , 0x1F <= c ) " := by
    decide +kernel
  rcases hscan : scan literals with ⟨ts, e⟩
  rcases hmistake : scan (literals ++ text "@") with ⟨vs, e'⟩
  rw [hscan] at hnone htext
  rw [hmistake] at hsome
  subst hnone hsome
  have hlex := lex_eq_ok_iff.mpr hscan
  obtain ⟨us, hus⟩ := (lex_written literals).1 ts hlex
  obtain ⟨ws, hws⟩ := (lex_written (literals ++ text "@")).2 vs _ hmistake
  exact ⟨⟨ts, us, hlex, htext, hus⟩, vs, ws, rfl, hws⟩

end StackC
