import StackC.Proofs.Fragments
import StackC.Proofs.Tiling

/-!
The words of the scanner and the names of the expander. The scanner goes by
characters and takes the letters and digits of any script, the expander goes by
bytes and takes those of ASCII. On a text without comments both find the same
literals, so the names that expansion sees are the names inside the words and
numbers of the text. If words and numbers are ASCII, these are the words.
-/

namespace StackC

/-! ### The bytes of a piece -/

/-- No byte that is a character by itself was taken for a stray one. -/
def Piece.WellCut (p : Piece) : Prop :=
  ∀ b, p = .stray b → ¬ b < 0x80

theorem Piece.wellCut_char (c : Char) : (Piece.char c).WellCut := by
  intro b hb
  cases hb

theorem Utf8.wellCut_pieces (s : Bytes) : ∀ p ∈ pieces s, p.WellCut := by
  induction hn : s.length using Nat.strong_induction_on generalizing s with
  | _ n ih =>
    cases s with
    | nil => exact fun p hp => absurd hp List.not_mem_nil
    | cons a s =>
      rw [List.length_cons] at hn
      by_cases ha : a < 0x80
      · rw [pieces_one ha]
        exact List.forall_mem_cons.mpr ⟨Piece.wellCut_char _,
          ih s.length (by omega) s rfl⟩
      · rw [pieces_wide ha]
        cases hwide : wide? a s with
        | none =>
          refine List.forall_mem_cons.mpr ⟨fun b hb => ?_,
            ih s.length (by omega) s rfl⟩
          cases hb
          exact ha
        | some e =>
          have hlength := length_lt_of_wide? hwide
          exact List.forall_mem_cons.mpr ⟨Piece.wellCut_char _,
            ih e.2.length (by omega) e.2 rfl⟩

variable {b : UInt8} {val : List Char}

namespace Piece

variable {p : Piece}

theorem eq_char_of_ne (h : p.toChar ≠ replacement) : p = .char p.toChar := by
  cases p with
  | char c => rfl
  | stray b => exact absurd rfl h

theorem bytes_of_ascii {c : Char} (h : p.toChar = c) (hc : c.toNat < 0x80) :
    p.bytes = [byte c] := by
  have hne : p.toChar ≠ replacement := by
    intro heq
    rw [← h, heq] at hc
    exact absurd hc (by decide)
  rw [eq_char_of_ne hne, h]
  exact Utf8.encodeChar_ascii hc

theorem WellCut.eq_char (hp : p.WellCut) (hb : b ∈ p.bytes)
    (hascii : b < 0x80) : p = .char (Char.ofUInt8 b) := by
  cases p with
  | char c =>
    have heq : c.toNat = b.toNat :=
      (Utf8.mem_encodeChar (UInt8.lt_iff_toNat_lt.mp hascii)).mp hb
    have hchar : (Char.ofUInt8 b).toNat = b.toNat := UInt8.toNat_toUInt32 b
    rw [Char.toNat_inj.mp (heq.trans hchar.symm)]
  | stray a =>
    cases List.mem_singleton.mp hb
    exact absurd hascii (hp b rfl)

/-- A class of ASCII bytes that lies in a class of characters has no byte of a
piece outside that class. -/
theorem WellCut.not_of_mem_bytes (hp : p.WellCut) {byteClass : UInt8 → Bool}
    (charClass : Char → Bool)
    (hclass : ∀ b, byteClass b = true →
      b < 0x80 ∧ charClass (Char.ofUInt8 b) = true)
    (h : charClass p.toChar = false) : ∀ b ∈ p.bytes, byteClass b = false := by
  intro b hb
  rw [Bool.eq_false_iff]
  intro hbyte
  obtain ⟨hascii, hchar⟩ := hclass b hbyte
  rw [hp.eq_char hb hascii] at h
  exact Bool.false_ne_true (h.symm.trans hchar)

end Piece

theorem Utf8.join_cons (p : Piece) (ps : List Piece) :
    join (p :: ps) = p.bytes ++ join ps :=
  List.flatMap_cons

theorem Scan.ascii_of_escaped? {d e : Char} (h : escaped? d = some e) :
    d.toNat < 0x80 := by
  unfold escaped? at h
  split at h <;> first
    | decide
    | cases h

namespace Macro

open Scan (inWord startsWord Decodes)

variable {p : Piece} {ps qs : List Piece}

theorem inWord_of_inName :
    ∀ b, inName b = true → b < 0x80 ∧ inWord (Char.ofUInt8 b) = true := by
  decide +kernel

theorem not_inWord_of_isQuote :
    ∀ b, isQuote b = true → b < 0x80 ∧ (!inWord (Char.ofUInt8 b)) = true := by
  decide +kernel

/-- The characters that stand in words and the quotes: only among their bytes
are names and quotes. -/
def isNoted (c : Char) : Bool :=
  inWord c || c == '"' || c == '\''

theorem isNoted_of_byte :
    ∀ b, (inName b || isQuote b) = true →
      b < 0x80 ∧ isNoted (Char.ofUInt8 b) = true := by
  decide +kernel

/-! ### Names behind parts of a text -/

variable {s : Bytes}

/-- Bytes that are in no name and open no literal add no names. -/
theorem names_skip (h : ∀ b ∈ s, (inName b || isQuote b) = false) (t : Bytes) :
    names (s ++ t) = names t := by
  induction s with
  | nil => rfl
  | cons b s ih =>
    rw [List.forall_mem_cons] at h
    obtain ⟨hname, hquote⟩ := Bool.or_eq_false_iff.mp h.1
    rw [List.cons_append, names, fragments_other hquote hname]
    exact ih h.2

theorem names_literal {lit rest : Bytes} (hquote : isQuote b = true)
    (h : literalRest b s = (lit, rest)) : names (b :: s) = names rest := by
  rw [names, fragments_literal hquote h]
  rfl

theorem names_append {t : Bytes} (hs : ∀ c ∈ s, isQuote c = false)
    (ht : ∀ c ∈ t.head?, inName c = false) :
    names (s ++ t) = names s ++ names t := by
  rw [names, fragments_append (isComplete_of_quotes hs) ht,
    List.filterMap_append]
  rfl

/-- Pieces that are neither of words nor quotes add no names. -/
theorem names_join_skip (hcut : ∀ p ∈ ps, p.WellCut)
    (h : ∀ p ∈ ps, isNoted p.toChar = false) :
    names (Utf8.join (ps ++ qs)) = names (Utf8.join qs) := by
  rw [Utf8.join_append]
  refine names_skip (fun b hb => ?_) _
  obtain ⟨p, hp, hbytes⟩ := List.mem_flatMap.mp hb
  exact (hcut p hp).not_of_mem_bytes isNoted isNoted_of_byte (h p hp) b hbytes

/-- A run of pieces of words ends with the names in it, if no piece of a word
follows. -/
theorem names_join_run (hrun : ∀ p ∈ ps, inWord p.toChar = true)
    (hcut : ∀ q ∈ qs, q.WellCut)
    (hends : ∀ q ∈ qs.head?, inWord q.toChar = false) :
    names (Utf8.join (ps ++ qs)) = names (Utf8.encode (ps.map Piece.toChar)) ++
      names (Utf8.join qs) := by
  have hchars : ps = (ps.map Piece.toChar).map .char := by
    rw [List.map_map]
    refine (List.map_id ps).symm.trans (List.map_congr_left fun p hp =>
      Piece.eq_char_of_ne ?_)
    rintro (heq : p.toChar = Piece.replacement)
    have hreplacement := hrun p hp
    rw [heq] at hreplacement
    exact absurd hreplacement (by decide +kernel)
  have hquotes : ∀ b ∈ Utf8.encode (ps.map Piece.toChar),
      isQuote b = false := by
    intro b hb
    obtain ⟨c, hc, hbytes⟩ := List.mem_flatMap.mp hb
    obtain ⟨p, hp, rfl⟩ := List.mem_map.mp hc
    exact (Piece.wellCut_char _).not_of_mem_bytes (fun c => !inWord c)
      not_inWord_of_isQuote (congrArg (!·) (hrun p hp)) b hbytes
  have hstop : ∀ b ∈ (Utf8.join qs).head?, inName b = false := by
    cases qs with
    | nil => exact fun b hb => absurd hb (Option.not_mem_none b)
    | cons q qs =>
      intro b hb
      rw [Utf8.join, List.flatMap_cons,
        List.head?_append_of_ne_nil _ (Utf8.bytes_ne_nil q)] at hb
      exact (hcut q List.mem_cons_self).not_of_mem_bytes inWord inWord_of_inName
        (hends q rfl) b (List.mem_of_mem_head? hb)
  have hjoin : Utf8.join ps = Utf8.encode (ps.map Piece.toChar) := by
    rw [← Utf8.join_map_char, ← hchars]
  rw [Utf8.join_append, hjoin, names_append hquotes hstop]

/-! ### Literals -/

theorem literalRest_run {quote : UInt8} {run : Bytes}
    (h : ∀ b ∈ run, (b == quote || b == byte '\\') = false) (s : Bytes) :
    literalRest quote (run ++ s) =
      (run ++ (literalRest quote s).1, (literalRest quote s).2) := by
  induction run with
  | nil => rfl
  | cons b run ih =>
    rw [List.forall_mem_cons] at h
    obtain ⟨hquote, hescape⟩ := Bool.or_eq_false_iff.mp h.1
    rw [List.cons_append, literalRest_cons hescape hquote, ih h.2,
      List.cons_append]

section Quotes

variable {quote : Char} (hquote : quote = '"' ∨ quote = '\'')

include hquote

theorem delimiter_of_byte : ∀ b, (b == byte quote || b == byte '\\') = true →
    b < 0x80 ∧ (Char.ofUInt8 b == quote || Char.ofUInt8 b == '\\') = true := by
  rcases hquote with rfl | rfl
  · decide +kernel
  · decide +kernel

theorem ascii_of_quote :
    quote.toNat < 0x80 ∧ isQuote (byte quote) = true ∧
      (byte quote == byte '\\') = false := by
  rcases hquote with rfl | rfl
  · decide
  · decide

/-- What stands for something between quotes is all that expansion skips up to
the second quote. -/
theorem literalRest_of_decodes {cs : List Char} (h : Decodes quote cs val)
    (hps : ps.map Piece.toChar = cs) (hcut : ∀ p ∈ ps, p.WellCut) (s : Bytes) :
    literalRest (byte quote) (Utf8.join ps ++ byte quote :: s) =
      (Utf8.join ps ++ [byte quote], s) := by
  obtain ⟨-, -, hescape⟩ := ascii_of_quote hquote
  induction h generalizing ps with
  | nil =>
    obtain rfl := List.map_eq_nil_iff.mp hps
    exact literalRest_quote hescape s
  | @plain c cs val hne hline hback h ih =>
    obtain ⟨p, ps, rfl, hp, hps⟩ := List.map_eq_cons_iff.mp hps
    rw [List.forall_mem_cons] at hcut
    have hbytes :=
      hcut.1.not_of_mem_bytes (fun c => c == quote || c == '\\')
        (delimiter_of_byte hquote) (by simp [hp, hne, hback])
    rw [Utf8.join_cons, List.append_assoc, literalRest_run hbytes,
      ih hps hcut.2, List.append_assoc]
  | @escape d e cs val hd h ih =>
    obtain ⟨p, ps, rfl, hp, hps⟩ := List.map_eq_cons_iff.mp hps
    obtain ⟨q, ps, rfl, hq, hps⟩ := List.map_eq_cons_iff.mp hps
    rw [List.forall_mem_cons, List.forall_mem_cons] at hcut
    rw [Utf8.join_cons, Utf8.join_cons, Piece.bytes_of_ascii hp (by decide),
      Piece.bytes_of_ascii hq (Scan.ascii_of_escaped? hd)]
    simp only [List.cons_append, List.nil_append, literalRest, beq_self_eq_true,
      if_true, ih hps hcut.2.2]

theorem names_join_quoted {inner : List Char} (h : Decodes quote inner val)
    (hps : ps.map Piece.toChar = quote :: (inner ++ [quote]))
    (hcut : ∀ p ∈ ps, p.WellCut) :
    names (Utf8.join (ps ++ qs)) = names (Utf8.join qs) := by
  obtain ⟨hascii, hopens, -⟩ := ascii_of_quote hquote
  obtain ⟨p, ps, rfl, hp, hps⟩ := List.map_eq_cons_iff.mp hps
  obtain ⟨ins, last, rfl, hins, hlast⟩ := List.map_eq_append_iff.mp hps
  obtain ⟨q, rfl, hq⟩ := List.map_eq_singleton_iff.mp hlast
  have hinner : ∀ p ∈ ins, p.WellCut := fun p hp => hcut p (by simp [hp])
  have hjoin : Utf8.join (p :: (ins ++ [q]) ++ qs) =
      byte quote :: (Utf8.join ins ++ byte quote :: Utf8.join qs) := by
    rw [List.cons_append, Utf8.join_cons, Utf8.join_append, Utf8.join_append,
      Utf8.join_cons, Piece.bytes_of_ascii hp hascii,
      Piece.bytes_of_ascii hq hascii]
    simp [Utf8.join]
  rw [hjoin,
    names_literal hopens (literalRest_of_decodes hquote h hins hinner _)]

end Quotes

/-! ### Words and numbers in ASCII -/

theorem classes_of_ascii :
    ∀ b : UInt8, b < 0x80 →
      inName b = inWord (Char.ofUInt8 b) ∧
        startsName b = startsWord (Char.ofUInt8 b) := by
  decide +kernel

theorem isQuote_of_inName : ∀ b, inName b = true → isQuote b = false := by
  decide +kernel

/-- A name is its own name, and a number has none. -/
theorem names_of_inName (h : ∀ c ∈ b :: s, inName c = true) :
    names (b :: s) = if startsName b then [b :: s] else [] := by
  rw [List.forall_mem_cons] at h
  have hfirst :=
    @firstPart_of_run b [] inName s (isQuote_of_inName b h.1) h.1 h.2 (by simp)
  rw [List.append_nil] at hfirst
  rw [names_cons, hfirst]
  rfl

/-- A word in ASCII is one name. -/
theorem names_encode {c : Char} {cs : List Char}
    (hascii : ∀ b ∈ Utf8.encode (c :: cs), b < 0x80)
    (h : ∀ d ∈ c :: cs, inWord d = true) :
    names (Utf8.encode (c :: cs)) =
      if startsWord c then [Utf8.encode (c :: cs)]
      else [] := by
  have hbyte : ∀ d ∈ c :: cs, d.toNat < 0x80 ∧ byte d < 0x80 := by
    intro d hd
    obtain ⟨b, hb⟩ :=
      List.exists_mem_of_ne_nil _ (@String.utf8EncodeChar_ne_nil d)
    have hlt := hascii b (List.mem_flatMap.mpr ⟨d, hd, hb⟩)
    have hnat := (Utf8.mem_encodeChar (UInt8.lt_iff_toNat_lt.mp hlt)).mp hb
    have hd' : d.toNat < 0x80 := hnat ▸ UInt8.lt_iff_toNat_lt.mp hlt
    exact ⟨hd', hascii _ ((Utf8.byte_mem_encode hd').mpr hd)⟩
  have hencode : Utf8.encode (c :: cs) = (c :: cs).map byte := by
    rw [Utf8.encode, List.flatMap_congr fun d hd =>
      Utf8.encodeChar_ascii (hbyte d hd).1, List.map_eq_flatMap]
  have hclass : ∀ d ∈ c :: cs, inName (byte d) = inWord d ∧
      startsName (byte d) = startsWord d := by
    intro d hd
    have hchar : Char.ofUInt8 (byte d) = d := Utf8.ofUInt8_ofNat (hbyte d hd).1
    have hclasses := classes_of_ascii _ (hbyte d hd).2
    rwa [hchar] at hclasses
  rw [hencode, List.map_cons, names_of_inName, (hclass c List.mem_cons_self).2]
  rintro b hb
  rw [← List.map_cons] at hb
  obtain ⟨d, hd, rfl⟩ := List.mem_map.mp hb
  rw [(hclass d hd).1, h d hd]

end Macro

/-! ### Tokens -/

def TokenKind.isWord : TokenKind → Bool
  | identifier
  | int | char | short | long | unsigned | signed | void
  | ifWord | elseWord | whileWord | returnWord | breakWord | continueWord
  | printf => true
  | _ => false

/-- Whether a token is written in letters and digits: a word or a number. -/
def Token.isAlphanumeric (t : Token) : Bool :=
  t.kind.isWord || t.kind == .integer

def Token.spelledNames (t : Token) : List Name :=
  if t.isAlphanumeric then Macro.names t.lexeme else []

namespace Scan

theorem isWord_ite {b : Bool} {kind : TokenKind} {other : Option TokenKind}
    (hkind : kind.isWord = true)
    (hother : (other.getD .identifier).isWord = true) :
    ((if b = true then some kind else other).getD .identifier).isWord =
      true := by
  split
  · exact hkind
  · exact hother

theorem isWord_ofWord? (s : Bytes) :
    ((TokenKind.ofWord? s).getD .identifier).isWord = true := by
  rw [TokenKind.ofWord?]
  repeat refine isWord_ite rfl ?_
  rfl

variable {c : Char} {t : Token} {region : List Char}

theorem isAlphanumeric_of_ofPair? {d : Char}
    (h : TokenKind.ofPair? c d = some t.kind) : t.isAlphanumeric = false := by
  unfold TokenKind.ofPair? at h
  rw [Token.isAlphanumeric]
  split at h <;> first
    | rw [← Option.some.inj h]; rfl
    | cases h

theorem isAlphanumeric_of_ofMark? (h : TokenKind.ofMark? c = some t.kind) :
    t.isAlphanumeric = false := by
  unfold TokenKind.ofMark? at h
  rw [Token.isAlphanumeric]
  split at h <;> first
    | rw [← Option.some.inj h]; rfl
    | cases h

theorem IsNumeral.inWord {spelling : List Char} (h : IsNumeral spelling) :
    ∀ c ∈ spelling, inWord c = true := by
  cases h with
  | decimal hdigits => exact fun c hc => inWord_of_isDigit (hdigits c hc)
  | @hexadecimal mark c cs hmark hdigits =>
    have hrest : ∀ d ∈ c :: cs, Scan.inWord d = true :=
      fun d hd => inWord_of_inHex (hdigits d hd)
    refine List.forall_mem_cons.mpr
      ⟨by decide, List.forall_mem_cons.mpr ⟨?_, hrest⟩⟩
    rcases hmark with rfl | rfl
    · decide
    · decide

theorem OnlyMarks.isNoted {c : Char} (h : OnlyMarks c) :
    Macro.isNoted c = false := by
  have hword := h.word
  have hdigit := h.digit
  simp only [startsWord, Bool.or_eq_false_iff] at hword
  simp only [Macro.isNoted, Scan.inWord, Bool.or_eq_false_iff]
  exact ⟨⟨⟨⟨hword.1, hdigit⟩, hword.2⟩, beq_false_of_ne h.string⟩,
    beq_false_of_ne h.character⟩

theorem isNoted_of_isBlank (h : isBlank c = true) :
    Macro.isNoted c = false := by
  have hword : inWord c = false := by
    rw [Bool.eq_false_iff]
    intro hin
    exact Bool.false_ne_true
      ((Assembler.isBlank_of_continuesName hin).symm.trans h)
  simp only [Macro.isNoted, hword, Bool.false_or, Bool.or_eq_false_iff,
    beq_eq_false_iff_ne]
  exact ⟨ne_of_isBlank h (by decide), ne_of_isBlank h (by decide)⟩

/-- Of the region of a token expansion sees the names that the token spells. -/
theorem Spells.names_join {next : Option Char} (h : Spells t region next)
    {ps qs : List Piece} (hps : ps.map Piece.toChar = region)
    (hqs : qs.head?.map Piece.toChar = next)
    (hcut : ∀ p ∈ ps ++ qs, p.WellCut) :
    Macro.names (Utf8.join (ps ++ qs)) = t.spelledNames ++
      Macro.names (Utf8.join qs) := by
  obtain ⟨hregion, hrest⟩ := List.forall_mem_append.mp hcut
  -- Words and numbers are runs of characters that stand in words.
  have hrun (hin : ∀ c ∈ region, Scan.inWord c = true)
      (hends : ∀ d ∈ next, Scan.inWord d = false) :
      Macro.names (Utf8.join (ps ++ qs)) = Macro.names (Utf8.encode region) ++
      Macro.names (Utf8.join qs) := by
    rw [Macro.names_join_run (fun p hp => hin _ (hps ▸ List.mem_map_of_mem hp))
      hrest, hps]
    intro q hq
    refine hends _ (hqs ▸ ?_)
    rw [Option.mem_def.mp hq]
    rfl
  -- All else but literals is made of marks.
  have hmarks (hin : ∀ c ∈ region, Macro.isNoted c = false)
      (hother : t.isAlphanumeric = false) : Macro.names (Utf8.join (ps ++ qs)) =
      t.spelledNames ++ Macro.names (Utf8.join qs) := by
    rw [Macro.names_join_skip hregion fun p hp =>
      hin _ (hps ▸ List.mem_map_of_mem hp), Token.spelledNames, hother]
    rfl
  cases h with
  | word hfirst hin hends =>
    rw [hrun (List.forall_mem_cons.mpr ⟨inWord_of_startsWord hfirst, hin⟩)
      hends, Token.spelledNames, Token.isAlphanumeric, isWord_ofWord?]
    rfl
  | number hspelling hends =>
    rw [hrun hspelling.inWord hends]
    rfl
  | string hinner =>
    exact Macro.names_join_quoted (Or.inl rfl) hinner hps hregion
  | character hinner =>
    exact Macro.names_join_quoted (Or.inr rfl) hinner hps hregion
  | pair hkind =>
    obtain ⟨hc, -, rfl⟩ := onlyMarks_of_ofPair? hkind
    exact hmarks
      (by simp [hc.isNoted, show Macro.isNoted '=' = false by decide])
      (isAlphanumeric_of_ofPair? hkind)
  | mark hkind hpair hcomment =>
    exact hmarks (by simp [(onlyMarks_of_ofMark? hkind).1.isNoted])
      (isAlphanumeric_of_ofMark? hkind)

/-- In ASCII the only name that a word spells is the word, and a number spells
none. -/
theorem Spells.spelledNames_of_ascii {next : Option Char}
    (h : Spells t region next)
    (hascii : t.isAlphanumeric = true → ∀ b ∈ t.lexeme, b < 0x80) :
    t.spelledNames = if t.kind.isWord then [t.lexeme] else [] := by
  have hother (hno : t.isAlphanumeric = false) :
      t.spelledNames = if t.kind.isWord then [t.lexeme] else [] := by
    rw [Token.spelledNames, hno, (Bool.or_eq_false_iff.mp hno).1]
    rfl
  cases h with
  | @word c cs _ line hfirst hin hends =>
    have halpha :
        Token.isAlphanumeric
        ⟨(TokenKind.ofWord? (Utf8.encode (c :: cs))).getD .identifier,
        Utf8.encode (c :: cs), line⟩ = true := by
      rw [Token.isAlphanumeric, isWord_ofWord?]
      rfl
    rw [Token.spelledNames, halpha, if_pos rfl,
      Macro.names_encode (hascii halpha)
      (List.forall_mem_cons.mpr ⟨inWord_of_startsWord hfirst, hin⟩), hfirst,
      isWord_ofWord?]
  | number hspelling hends =>
    obtain ⟨c, cs, rfl, hc⟩ : ∃ c cs, region = c :: cs ∧
        startsWord c = false := by
      cases hspelling with
      | decimal hdigits =>
        exact ⟨_, _, rfl, startsWord_of_isDigit (hdigits _ List.mem_cons_self)⟩
      | hexadecimal hmark hdigits => exact ⟨_, _, rfl, by decide⟩
    have hnames := Macro.names_encode (hascii rfl) hspelling.inWord
    rw [hc, if_neg Bool.false_ne_true] at hnames
    exact hnames
  | string hinner => exact hother rfl
  | character hinner => exact hother rfl
  | pair hkind => exact hother (isAlphanumeric_of_ofPair? hkind)
  | mark hkind hpair hcomment => exact hother (isAlphanumeric_of_ofMark? hkind)

/-! ### Texts without comments -/

namespace Place

variable {p : Place} {cs ds : List Char}

/-- No place in a text that begins at a place lies in a comment. -/
def Uncommented (p : Place) (cs : List Char) : Prop :=
  ∀ ds ∈ cs.inits, p.behind ds ≠ .lineComment ∧ p.behind ds ≠ .block

instance (p : Place) (cs : List Char) : Decidable (p.Uncommented cs) :=
  inferInstanceAs (Decidable (∀ ds ∈ cs.inits, _))

/-- A place in the code where a character may stand without making a comment out
of a slash before it. -/
def Admits (p : Place) (c : Option Char) : Prop :=
  p = .code ∨ p = .slash ∧ ∀ d ∈ c, d ≠ '/' ∧ d ≠ '*'

theorem behind_append (p : Place) (cs ds : List Char) :
    p.behind (cs ++ ds) = (p.behind cs).behind ds :=
  List.foldl_append

theorem Uncommented.append (h : p.Uncommented (cs ++ ds)) :
    (p.behind cs).Uncommented ds := by
  intro es hes
  rw [← behind_append]
  exact h _ ((List.mem_inits _ _).mpr
    ((List.prefix_append_right_inj cs).mpr ((List.mem_inits _ _).mp hes)))

theorem Admits.next_eq (h : p.Admits (some c)) : p.next c = opened c := by
  rcases h with rfl | ⟨rfl, hc⟩
  · rfl
  · exact slash_next (hc c rfl).1 (hc c rfl).2

/-- Where no comment lies ahead none begins. -/
theorem Uncommented.noComment (h : p.Uncommented cs) (hp : p.Admits cs.head?) :
    NoComment cs := by
  have hslash {d : Char} {ds : List Char} (hcs : cs = '/' :: d :: ds) :
      slash.next d ≠ .lineComment ∧ slash.next d ≠ .block := by
    subst hcs
    have hplace := h ['/', d] ((List.mem_inits _ _).mpr ⟨ds, rfl⟩)
    rwa [behind_cons, hp.next_eq] at hplace
  exact fun ds => ⟨fun heq => (hslash heq).1 rfl, fun heq => (hslash heq).2 rfl⟩

theorem code_behind (h : ∀ c ∈ cs, opened c = .code) :
    code.behind cs = .code := by
  induction cs with
  | nil => rfl
  | cons c cs ih =>
    rw [List.forall_mem_cons] at h
    rw [behind_cons, next, h.1, ih h.2]

theorem opened_of_inWord (h : inWord c = true) : opened c = .code := by
  have hne {d : Char} (hd : inWord d = false) : c ≠ d := by
    rintro rfl
    exact Bool.false_ne_true (hd.symm.trans h)
  exact opened_of_ne (hne (by decide)) (hne (by decide)) (hne (by decide))

theorem literal_behind {quote : Char} (hquote : quote ≠ '\\')
    (h : Decodes quote cs val) :
    (literal quote).behind cs = .literal quote := by
  induction h with
  | nil => rfl
  | plain hne hline hescape h ih =>
    rw [behind_cons, next, if_neg (by simp [hne, hline]), if_neg hescape, ih]
  | @escape d e cs val hd h ih =>
    have hline : d ≠ '\n' := by
      rintro rfl
      rw [escaped?_newline] at hd
      cases hd
    rw [behind_cons, next, if_neg (by simp [Ne.symm hquote]), if_pos rfl,
      behind_cons, next, if_neg hline, ih]

theorem code_of_quoted {quote : Char} {inner : List Char}
    (hquote : quote = '"' ∨ quote = '\'') (h : Decodes quote inner val)
    (hp : p.Admits (some quote)) :
    p.behind (quote :: (inner ++ [quote])) = .code := by
  have hne : quote ≠ '/' ∧ quote ≠ '\\' := by
    rcases hquote with rfl | rfl
    · decide
    · decide
  rw [behind_cons, hp.next_eq, opened, if_neg hne.1, if_pos hquote,
    behind_append, literal_behind hne.2 h, behind_cons,
    next, if_pos (Or.inl rfl), behind_nil]

end Place

/-- Behind the region of a token lies code again, or a slash that makes no
comment. -/
theorem Spells.admits {c : Option Char} (h : Spells t region c) {p : Place}
    (hp : p.Admits region.head?) : (p.behind region).Admits c := by
  have hrun {d : Char} {cs : List Char} (hd : p.Admits (some d))
      (hin : ∀ e ∈ d :: cs, Place.opened e = .code) :
      p.behind (d :: cs) = .code := by
    rw [List.forall_mem_cons] at hin
    rw [Place.behind_cons, hd.next_eq, hin.1, Place.code_behind hin.2]
  cases h with
  | @word c cs _ _ hfirst hin hends =>
    have hword : ∀ e ∈ c :: cs, Scan.inWord e = true :=
      List.forall_mem_cons.mpr ⟨inWord_of_startsWord hfirst, hin⟩
    exact Or.inl (hrun hp fun e he => Place.opened_of_inWord (hword e he))
  | number hspelling hends =>
    have hword := hspelling.inWord
    cases hspelling with
    | decimal hdigits =>
      exact Or.inl (hrun hp fun e he => Place.opened_of_inWord (hword e he))
    | hexadecimal hmark hdigits =>
      exact Or.inl (hrun hp fun e he => Place.opened_of_inWord (hword e he))
  | string hinner => exact Or.inl (Place.code_of_quoted (Or.inl rfl) hinner hp)
  | character hinner =>
    exact Or.inl (Place.code_of_quoted (Or.inr rfl) hinner hp)
  | pair hkind =>
    obtain ⟨hc, hslash, rfl⟩ := onlyMarks_of_ofPair? hkind
    refine Or.inl (hrun hp ?_)
    simp [Place.opened_of_ne hslash hc.string hc.character,
      show Place.opened '=' = .code by decide]
  | @mark c kind _ _ hkind hpair hcomment =>
    have hc := (onlyMarks_of_ofMark? hkind).1
    rw [Place.behind_cons, hp.next_eq]
    by_cases hslash : c = '/'
    · subst hslash
      exact Or.inr ⟨rfl, hcomment rfl⟩
    · exact Or.inl (Place.opened_of_ne hslash hc.string hc.character)

/-- Where there are no comments, a gap is made of blanks. -/
theorem Gap.blanks {atEnd : Bool} {gap rest : List Char} (h : Gap atEnd gap)
    {p : Place} (hp : p.Admits (gap ++ rest).head?)
    (hclear : p.Uncommented (gap ++ rest)) :
    (∀ c ∈ gap, isBlank c = true) ∧ (p.behind gap).Admits rest.head? := by
  have hno := hclear.noComment hp
  induction h generalizing p with
  | nil => exact ⟨fun c hc => absurd hc List.not_mem_nil, hp⟩
  | @blank atEnd c cs hc h ih =>
    have hnext : p.next c = .code := hp.next_eq.trans (opened_of_isBlank hc)
    have hafter : Place.code.Uncommented (cs ++ rest) := by
      have hbehind := @Place.Uncommented.append p [c] (cs ++ rest) hclear
      rwa [Place.behind_cons, hnext] at hbehind
    obtain ⟨hblanks, hadmits⟩ :=
      ih (Or.inl rfl) hafter (hafter.noComment (Or.inl rfl))
    rw [Place.behind_cons, hnext]
    exact ⟨List.forall_mem_cons.mpr ⟨hc, hblanks⟩, hadmits⟩
  | line hcomment h => exact absurd rfl (hno _).1
  | block hcomment h => exact absurd rfl (hno _).2
  | last hcomment => exact absurd rfl (hno _).1

/-- Where there are no comments, expansion sees no names in a gap. -/
theorem Gap.names_join {atEnd : Bool} {gap rest : List Char} (h : Gap atEnd gap)
    {ps qs : List Piece} (hps : ps.map Piece.toChar = gap)
    (hcut : ∀ p ∈ ps, p.WellCut) {place : Place}
    (hplace : place.Admits (gap ++ rest).head?)
    (hclear : place.Uncommented (gap ++ rest)) :
    Macro.names (Utf8.join (ps ++ qs)) = Macro.names (Utf8.join qs) := by
  obtain ⟨hblanks, -⟩ := h.blanks hplace hclear
  exact Macro.names_join_skip hcut fun p hp =>
    isNoted_of_isBlank (hblanks _ (hps ▸ List.mem_map_of_mem hp))

/-- The names that expansion sees in a text without comments are those that its
tokens spell. -/
theorem Tiles.names_join {src : List Char} {pos : Nat} {ts : List Token}
    (h : Tiles src pos ts) {ps : List Piece}
    (hps : ps.map Piece.toChar = src.drop pos) (hcut : ∀ p ∈ ps, p.WellCut)
    {place : Place} (hplace : place.Admits (src.drop pos).head?)
    (hclear : place.Uncommented (src.drop pos)) :
    Macro.names (Utf8.join ps) = ts.flatMap Token.spelledNames := by
  -- Gaps and regions lead from one place that admits what follows to the next.
  induction h generalizing ps place with
  | @last pos hpos hgap =>
    rw [← List.append_nil (src.drop pos)] at hplace hclear
    have hnames := @Gap.names_join _ _ [] hgap ps [] hps hcut _ hplace hclear
    rw [List.append_nil] at hnames
    rw [hnames]
    rfl
  | @next pos start stop t ts hstart hstop hend hgap hregion hline hrest ih =>
    obtain ⟨hdrop, -⟩ :=
      drop_eq_extract_append hstart
        (Nat.le_of_lt (Nat.lt_of_lt_of_le hstop hend))
    obtain ⟨hdrop', -⟩ := drop_eq_extract_append (Nat.le_of_lt hstop) hend
    rw [hdrop] at hps hplace hclear
    obtain ⟨gs, ps, rfl, hgs, hps⟩ := List.map_eq_append_iff.mp hps
    obtain ⟨hcutGap, hcut⟩ := List.forall_mem_append.mp hcut
    obtain ⟨-, hadmits⟩ := hgap.blanks hplace hclear
    rw [hgap.names_join hgs hcutGap hplace hclear]
    replace hclear := hclear.append
    rw [hdrop'] at hps hadmits hclear
    obtain ⟨rs, qs, rfl, hrs, hqs⟩ := List.map_eq_append_iff.mp hps
    rw [List.head?_append_of_ne_nil _ hregion.ne_nil] at hadmits
    rw [← List.head?_drop] at hregion
    have hnext : qs.head?.map Piece.toChar = (src.drop stop).head? := by
      rw [← hqs, List.head?_map]
    rw [hregion.names_join hrs hnext hcut, List.flatMap_cons,
      ih hqs (List.forall_mem_append.mp hcut).2 (hregion.admits hadmits)
      hclear.append]

end Scan

namespace Macros

open Macro (Fragment fragments names)

theorem get?_singleton (n k : Name) (m : Macro) :
    get? [(n, m)] k = if k = n then some m else none := by
  by_cases h : k = n
  · simp [get?, h]
  · simp [get?, List.lookup, beq_false_of_ne h, h]

/-- A macro with an empty body takes something away from a text that has its
name. -/
theorem expand_ne_of_mem_names {n : Name} {s : Bytes} (h : n ∈ names s) :
    expand [(n, { body := [] })] s ≠ s := by
  obtain ⟨f, hf, hname⟩ := List.mem_filterMap.mp h
  obtain rfl : f = .name n := by
    cases f with
    | name m => exact congrArg Fragment.name (Option.some.inj hname)
    | _ => cases hname
  have herased : erase [(n, { body := [] })] n = [] := by simp [erase]
  intro hsame
  rw [expand_eq_flatMap (by simp)] at hsame
  refine flatMap_ne (fun g hg => ?_) hf ?_
    (hsame.trans (Macro.flatMap_bytes_fragments s).symm)
  · cases g with
    | name m =>
      rw [replaceName, get?_singleton]
      split
      next hm =>
        rw [hm, Option.map_some, herased]
        exact Nat.zero_le _
      next => exact Nat.le_refl _
    | _ => exact Nat.le_refl _
  · rw [replaceName, get?_singleton, if_pos rfl, Option.map_some, herased]
    exact List.length_pos_of_ne_nil (Macro.bytes_ne_nil_of_mem hf)

/-- The names that expansion sees in a line without comments are those inside
its words and numbers: a macro changes the line only if its name is one of them.
In ASCII they are the words, so a line none of whose words has a macro stays as
it is. -/
theorem lines_without_macros_stay {line : Bytes} {ts : List Token}
    (hlex : lex line = .ok ts)
    (hclear : Scan.Place.code.Uncommented (Utf8.chars line)) :
    (∀ n, n ∈ ts.flatMap Token.spelledNames ↔
      expand [(n, { body := [] })] line ≠ line) ∧
    ∀ t : Macros, ((∀ n ∈ ts.flatMap Token.spelledNames, t.get? n = none) →
      t.expand line = line) ∧
    ((∀ tok ∈ ts, tok.isAlphanumeric = true → ∀ b ∈ tok.lexeme, b < 0x80) →
      (∀ tok ∈ ts, tok.kind.isWord = true → t.get? tok.lexeme = none) →
      t.expand line = line) := by
  have htiles := (Scan.scan_eq_iff line ts).mp (lex_eq_ok_iff.mp hlex)
  have hnames : names line = ts.flatMap Token.spelledNames := by
    have hjoin :=
      htiles.names_join rfl (Utf8.wellCut_pieces line) (Or.inl rfl) hclear
    rwa [Utf8.join_pieces] at hjoin
  have hstays {t : Macros}
      (hnone : ∀ n ∈ ts.flatMap Token.spelledNames, t.get? n = none) :
      t.expand line = line := expand_of_names (hnames ▸ hnone)
  refine ⟨fun n =>
    ⟨fun hn => expand_ne_of_mem_names (hnames ▸ hn), fun hne => ?_⟩,
    fun t => ⟨hstays, ?_⟩⟩
  · by_contra hn
    refine hne (hstays fun m hm => ?_)
    have hother : m ≠ n := by
      rintro rfl
      exact hn hm
    rw [get?_singleton, if_neg hother]
  · intro hascii hwords
    refine hstays fun n hn => ?_
    obtain ⟨tok, htok, hn⟩ := List.mem_flatMap.mp hn
    rcases htiles.spells tok htok with heof | ⟨region, next, hspells⟩
    · rw [Token.spelledNames, Token.isAlphanumeric, heof] at hn
      cases hn
    · rw [hspells.spelledNames_of_ascii (hascii tok htok)] at hn
      split at hn
      next hword =>
        rw [List.mem_singleton.mp hn]
        exact hwords tok htok hword
      next => cases hn

/-- Names of macros inside a longer word, a number and literals, one of them
with a quote and a letter that is not ASCII. -/
theorem lines_without_macros_stay_inside :
    let line := text "AA = 0x1F; \"A\\\" é x\", 'x'"
    let t : Macros :=
      [(text "A", { body := text "1" }),
        (text "x", { params := some [], body := text "2" }),
      (text "F", { body := text "3" })]
    ∃ ts, lex line = .ok ts ∧ Scan.Place.code.Uncommented (Utf8.chars line) ∧
      (∀ tok ∈ ts, tok.isAlphanumeric = true → ∀ b ∈ tok.lexeme, b < 0x80) ∧
      (∀ tok ∈ ts, tok.kind.isWord = true → t.get? tok.lexeme = none) ∧
      t.expand line = line := by
  intro line t
  let ts : List Token :=
    [⟨.identifier, text "AA", 1⟩, ⟨.assign, text "=", 1⟩,
      ⟨.integer, text "0x1F", 1⟩,
    ⟨.semicolon, text ";", 1⟩, ⟨.string, text "A\" é x", 1⟩,
    ⟨.comma, text ",", 1⟩, ⟨.character, text "120", 1⟩,
    ⟨.eof, [], 1⟩]
  have hlex : lex line = .ok ts := ok_of_toOption (by decide +kernel)
  have hclear : Scan.Place.code.Uncommented (Utf8.chars line) := by
    decide +kernel
  have hascii : ∀ tok ∈ ts, tok.isAlphanumeric = true → ∀ b ∈ tok.lexeme,
      b < 0x80 := by decide +kernel
  have hwords : ∀ tok ∈ ts, tok.kind.isWord = true →
      t.get? tok.lexeme = none := by decide +kernel
  exact ⟨ts, hlex, hclear, hascii, hwords,
    ((lines_without_macros_stay hlex hclear).2 t).2 hascii hwords⟩

/-- Beyond ASCII a macro is replaced inside a longer word, where a letter of
another script ends the name, and inside a number, where a digit of another
script does. -/
theorem names_inside_words_are_replaced :
    let word := text "éN"
    let number := text "0x٣F"
    let t : Macros :=
      [(text "N", { body := text "1" }), (text "F", { body := text "2" })]
    (lex word = .ok [⟨.identifier, word, 1⟩, ⟨.eof, [], 1⟩] ∧
      Scan.Place.code.Uncommented (Utf8.chars word) ∧ t.get? word = none ∧
      t.expand word = text "é1") ∧
    (lex number = .ok [⟨.integer, number, 1⟩, ⟨.eof, [], 1⟩] ∧
      Scan.Place.code.Uncommented (Utf8.chars number) ∧
      t.expand number = text "0x٣2") := by
  intro word number t
  have hword : lex word = .ok [⟨.identifier, word, 1⟩, ⟨.eof, [], 1⟩] :=
    ok_of_toOption (by decide +kernel)
  have hnumber : lex number = .ok [⟨.integer, number, 1⟩, ⟨.eof, [], 1⟩] :=
    ok_of_toOption (by decide +kernel)
  exact ⟨⟨hword, by decide +kernel, by decide +kernel, by decide +kernel⟩,
    hnumber, by decide +kernel,
    by decide +kernel⟩

end Macros

end StackC
