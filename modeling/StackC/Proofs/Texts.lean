import Mathlib
import StackC.Program.Assembly

/-!
Texts that are written as characters and read as bytes. Cutting the bytes of a
list of characters into pieces gives the characters back, and an ASCII byte
stands in the text only where its character does. So lines, comments, fields and
blanks of such a text can be found among the characters.
-/

namespace StackC

variable {cs : List Char}

namespace Utf8

theorem toNat_val_lt (c : Char) : c.val.toNat < 0x110000 := by
  have h := c.valid
  simp only [UInt32.isValidChar, Nat.isValidChar] at h
  omega

theorem scalar?_toNat {least : Nat} {c : Char} (h : least ≤ c.toNat) :
    scalar? least c.toNat = some c := by
  have hvalid : c.toNat.isValidChar := c.valid
  rw [scalar?, if_pos h, dif_pos hvalid]
  rfl

variable {b a c : UInt8} {ch : Char}

theorem isTail_iff : isTail b = true ↔ 0x80 ≤ b.toNat ∧ b.toNat ≤ 0xbf := by
  simp [isTail, UInt8.le_iff_toNat_le]

theorem two?_eq_none (h : 0xe0 ≤ a.toNat) : two? a b = none := by
  apply if_neg
  simp only [Bool.and_eq_true, decide_eq_true_eq, UInt8.le_iff_toNat_le,
    UInt8.lt_iff_toNat_lt]
  rintro ⟨⟨-, hlt⟩, -⟩
  exact absurd hlt (Nat.not_lt.mpr h)

theorem three?_eq_none (h : 0xf0 ≤ a.toNat) : three? a b c = none := by
  apply if_neg
  simp only [Bool.and_eq_true, decide_eq_true_eq, UInt8.le_iff_toNat_le,
    UInt8.lt_iff_toNat_lt]
  rintro ⟨⟨⟨-, hlt⟩, -⟩, -⟩
  exact absurd hlt (Nat.not_lt.mpr h)

theorem two?_eq_some (ha : 0xc0 ≤ a.toNat ∧ a.toNat < 0xe0)
    (hb : isTail b = true) (hleast : 0x80 ≤ ch.toNat)
    (hch : (a.toNat - 0xc0) * 0x40 + tailBits b = ch.toNat) :
    two? a b = some ch := by
  rw [two?, if_pos, hch, scalar?_toNat hleast]
  simp only [Bool.and_eq_true, decide_eq_true_eq, UInt8.le_iff_toNat_le,
    UInt8.lt_iff_toNat_lt]
  exact ⟨ha, hb⟩

theorem three?_eq_some (ha : 0xe0 ≤ a.toNat ∧ a.toNat < 0xf0)
    (hb : isTail b = true) (hc : isTail c = true) (hleast : 0x800 ≤ ch.toNat)
    (hch : (a.toNat - 0xe0) * 0x1000 + tailBits b * 0x40 + tailBits c =
      ch.toNat) : three? a b c = some ch := by
  rw [three?, if_pos, hch, scalar?_toNat hleast]
  simp only [Bool.and_eq_true, decide_eq_true_eq, UInt8.le_iff_toNat_le,
    UInt8.lt_iff_toNat_lt]
  exact ⟨⟨ha, hb⟩, hc⟩

theorem four?_eq_some {d : UInt8} (ha : 0xf0 ≤ a.toNat ∧ a.toNat < 0xf8)
    (hb : isTail b = true) (hc : isTail c = true) (hd : isTail d = true)
    (hleast : 0x10000 ≤ ch.toNat)
    (hch : (a.toNat - 0xf0) * 0x40000 + tailBits b * 0x1000 + tailBits c *
      0x40 + tailBits d = ch.toNat) : four? a b c d = some ch := by
  rw [four?, if_pos, hch, scalar?_toNat hleast]
  simp only [Bool.and_eq_true, decide_eq_true_eq, UInt8.le_iff_toNat_le,
    UInt8.lt_iff_toNat_lt]
  exact ⟨⟨⟨ha, hb⟩, hc⟩, hd⟩

theorem toNat_ofNat {n : Nat} (h : n < 256) : (UInt8.ofNat n).toNat = n :=
  UInt8.toNat_ofNat_of_lt' h

/-- A tail byte carries six bits. -/
theorem isTail_ofNat (n : Nat) :
    isTail (UInt8.ofNat (n % 64 + 128)) = true := by
  have h := toNat_ofNat (show n % 64 + 128 < 256 by omega)
  rw [isTail_iff, h]
  omega

theorem tailBits_ofNat (n : Nat) :
    tailBits (UInt8.ofNat (n % 64 + 128)) = n % 64 := by
  have h := toNat_ofNat (show n % 64 + 128 < 256 by omega)
  unfold tailBits
  omega

theorem not_lt_of_toNat (h : 0x80 ≤ a.toNat) : ¬ a < 0x80 := by
  rw [UInt8.lt_iff_toNat_lt]
  exact Nat.not_lt.mpr h

theorem pieces_one (h : a < 0x80) (s : Bytes) :
    pieces (a :: s) = .char (Char.ofUInt8 a) :: pieces s := by
  rw [pieces.eq_def]
  exact if_pos h

theorem pieces_two (ha : 0x80 ≤ a.toNat) (h : two? a b = some ch) (s : Bytes) :
    pieces (a :: b :: s) = .char ch :: pieces s := by
  rw [pieces.eq_def]
  simp only [if_neg (not_lt_of_toNat ha), h]

theorem pieces_three (ha : 0xe0 ≤ a.toNat) (h : three? a b c = some ch)
    (s : Bytes) : pieces (a :: b :: c :: s) = .char ch :: pieces s := by
  rw [pieces.eq_def]
  simp only [if_neg (not_lt_of_toNat (Nat.le_trans (by decide) ha)),
    two?_eq_none ha, h]

theorem pieces_four {d : UInt8} (ha : 0xf0 ≤ a.toNat)
    (h : four? a b c d = some ch) (s : Bytes) :
    pieces (a :: b :: c :: d :: s) = .char ch :: pieces s := by
  rw [pieces.eq_def]
  simp only [if_neg (not_lt_of_toNat (Nat.le_trans (by decide) ha)),
    two?_eq_none (Nat.le_trans (by decide) ha), three?_eq_none ha, h]

theorem ofUInt8_ofNat {c : Char} (h : c.toNat < 0x80) :
    Char.ofUInt8 (UInt8.ofNat c.toNat) = c := by
  apply Char.toNat_inj.mp
  show (UInt8.ofNat c.toNat).toUInt32.toNat = c.toNat
  rw [UInt8.toNat_toUInt32, toNat_ofNat (by omega)]

/-- The bytes of a character are read as that character, whatever follows. -/
theorem pieces_encodeChar (c : Char) (s : Bytes) :
    pieces (String.utf8EncodeChar c ++ s) = .char c :: pieces s := by
  have hmax : c.toNat < 0x110000 := toNat_val_lt c
  rw [String.utf8EncodeChar.eq_1, show c.val.toNat = c.toNat from rfl]
  generalize hn : c.toNat = n at hmax
  split
  next hone =>
    have hbyte : UInt8.ofNat n < 0x80 := by
      rw [UInt8.lt_iff_toNat_lt, toNat_ofNat (by omega)]
      exact Nat.lt_succ_of_le hone
    rw [List.singleton_append, pieces_one hbyte, ← hn, ofUInt8_ofNat (by omega)]
  next hone =>
    split
    next htwo =>
      have ha := toNat_ofNat (show n / 64 % 32 + 192 < 256 by omega)
      refine pieces_two (by omega)
        (two?_eq_some (by omega) (isTail_ofNat n) (by omega) ?_) s
      rw [tailBits_ofNat, ha]
      omega
    next htwo =>
      split
      next hthree =>
        have ha := toNat_ofNat (show n / 4096 % 16 + 224 < 256 by omega)
        refine pieces_three (by omega)
          (three?_eq_some (by omega) (isTail_ofNat (n / 64)) (isTail_ofNat n)
            (by omega) ?_) s
        rw [tailBits_ofNat, tailBits_ofNat, ha]
        omega
      next hthree =>
        have ha := toNat_ofNat (show n / 262144 % 8 + 240 < 256 by omega)
        refine pieces_four (by omega)
          (four?_eq_some (by omega) (isTail_ofNat (n / 4096))
            (isTail_ofNat (n / 64)) (isTail_ofNat n) (by omega) ?_) s
        rw [tailBits_ofNat, tailBits_ofNat, tailBits_ofNat, ha]
        omega

/-- The ASCII bytes of a character are the character itself. -/
theorem mem_encodeChar (hb : b.toNat < 0x80) {c : Char} :
    b ∈ String.utf8EncodeChar c ↔ c.toNat = b.toNat := by
  have hmax : c.toNat < 0x110000 := toNat_val_lt c
  rw [String.utf8EncodeChar.eq_1, show c.val.toNat = c.toNat from rfl]
  generalize c.toNat = n at hmax
  have hofNat {k : Nat} (hk : k < 256) : b = UInt8.ofNat k ↔ b.toNat = k := by
    rw [← UInt8.toNat_inj, toNat_ofNat hk]
  split
  next hone =>
    rw [List.mem_singleton, hofNat (by omega)]
    exact eq_comm
  next hone =>
    -- A character above ASCII has bytes from 0x80 on only.
    split
    next htwo =>
      simp only [List.mem_cons, List.not_mem_nil, or_false]
      rw [hofNat (by omega), hofNat (by omega)]
      omega
    next htwo =>
      split
      next hthree =>
        simp only [List.mem_cons, List.not_mem_nil, or_false]
        rw [hofNat (by omega), hofNat (by omega), hofNat (by omega)]
        omega
      next hthree =>
        simp only [List.mem_cons, List.not_mem_nil, or_false]
        rw [hofNat (by omega), hofNat (by omega), hofNat (by omega),
          hofNat (by omega)]
        omega

theorem encodeChar_ascii {c : Char} (h : c.toNat < 0x80) :
    String.utf8EncodeChar c = [c.toUInt8] :=
  if_pos (Nat.le_of_lt_succ h)

@[simp] theorem encode_append (cs ds : List Char) :
    encode (cs ++ ds) = encode cs ++ encode ds :=
  List.flatMap_append

theorem encode_cons (c : Char) (cs : List Char) :
    encode (c :: cs) = String.utf8EncodeChar c ++ encode cs :=
  List.flatMap_cons

theorem encode_eq_nil : encode cs = [] ↔ cs = [] := by
  constructor
  · intro h
    cases cs with
    | nil => rfl
    | cons c cs =>
      rw [encode_cons] at h
      exact absurd (List.append_eq_nil_iff.mp h).1 String.utf8EncodeChar_ne_nil
  · rintro rfl
    rfl

theorem encode_spaces (n : Nat) :
    encode (List.replicate n ' ') = List.replicate n (byte ' ') := by
  induction n with
  | zero => rfl
  | succ n ih =>
    rw [List.replicate_succ, encode_cons, ih]
    rfl

theorem pieces_encode_append (cs : List Char) (s : Bytes) :
    pieces (encode cs ++ s) = cs.map .char ++ pieces s := by
  induction cs with
  | nil => rfl
  | cons c cs ih =>
    rw [encode_cons, List.append_assoc, pieces_encodeChar, ih, List.map_cons,
      List.cons_append]

/-- The bytes of characters are read as those characters. -/
theorem pieces_encode (cs : List Char) : pieces (encode cs) = cs.map .char := by
  have h := pieces_encode_append cs []
  rwa [List.append_nil, pieces, List.append_nil] at h

theorem chars_encode (cs : List Char) : chars (encode cs) = cs := by
  rw [chars, pieces_encode, List.map_map]
  exact List.map_id cs

theorem join_map_char (cs : List Char) : join (cs.map .char) = encode cs := by
  rw [join, List.flatMap_map]
  rfl

/-- An ASCII byte stands in a text exactly if its character does. -/
theorem byte_mem_encode {d : Char} (hd : d.toNat < 0x80) :
    d.toUInt8 ∈ encode cs ↔ d ∈ cs := by
  have hbyte : d.toUInt8.toNat = d.toNat :=
    toNat_ofNat (Nat.lt_of_lt_of_le hd (by decide))
  rw [encode, List.mem_flatMap]
  constructor
  · rintro ⟨c, hc, hmem⟩
    have heq := (mem_encodeChar (by omega)).mp hmem
    rw [hbyte] at heq
    exact Char.toNat_inj.mp heq ▸ hc
  · intro h
    exact ⟨d, h, (mem_encodeChar (by omega)).mpr hbyte.symm⟩

end Utf8

namespace Bytes

theorem splitOn_eq (sep : UInt8) (s : Bytes) :
    splitOn sep s = List.splitOn sep s := by
  induction s with
  | nil => rfl
  | cons b s ih =>
    rw [splitOn, ih, List.splitOn_cons_eq_if_modifyHead]
    cases hpieces : List.splitOn sep s with
    | nil => exact absurd hpieces (List.splitOn_ne_nil sep s)
    | cons piece pieces => simp only [beq_iff_eq, List.modifyHead_cons]

theorem splitOn_append {sep : UInt8} {s : Bytes} (h : sep ∉ s) (t : Bytes) :
    splitOn sep (s ++ sep :: t) = s :: splitOn sep t := by
  rw [splitOn_eq, splitOn_eq, List.splitOn_append_cons_self_of_not_mem h]

theorem cut_of_not_mem {sep : UInt8} {s : Bytes} (h : sep ∉ s) :
    (cut sep s).1 = s := by
  apply List.takeWhile_eq_self_iff.mpr
  intro b hb
  exact bne_iff_ne.mpr fun heq => h (heq ▸ hb)

/-- Trimming leaves a text alone that neither starts nor ends with a blank. -/
theorem trim_encode (hfirst : ∀ c ∈ cs.head?, isBlank c = false)
    (hlast : ∀ c ∈ cs.getLast?, isBlank c = false) :
    trim (Utf8.encode cs) = Utf8.encode cs := by
  have hkeep {ps : List Piece} (h : ∀ p ∈ ps.head?, p.isBlank = false) :
      ps.dropWhile Piece.isBlank = ps := by
    cases ps with
    | nil => rfl
    | cons p ps => rw [List.dropWhile_cons, h p rfl]; rfl
  have hhead : ∀ p ∈ (cs.map Piece.char).head?, p.isBlank = false := by
    intro p hp
    rw [List.head?_map, Option.mem_map] at hp
    obtain ⟨c, hc, rfl⟩ := hp
    exact hfirst c hc
  have hend : ∀ p ∈ (cs.map Piece.char).reverse.head?, p.isBlank = false := by
    intro p hp
    rw [List.head?_reverse, List.getLast?_map, Option.mem_map] at hp
    obtain ⟨c, hc, rfl⟩ := hp
    exact hlast c hc
  rw [trim, Utf8.pieces_encode, hkeep hhead, hkeep hend, List.reverse_reverse,
    Utf8.join_map_char]

/-- Words with one or more spaces between neighbours; the number before a word
counts the spaces in front of it beyond the first. -/
def spaced (w : List Char) : List (Nat × List Char) → List Char
  | [] => w
  | (extra, next) :: ws => w ++ List.replicate (extra + 1) ' ' ++ spaced next ws

theorem spaced_eq_append (w : List Char) (ws : List (Nat × List Char)) :
    spaced w ws = w ++ ws.flatMap fun e =>
      List.replicate (e.1 + 1) ' ' ++ e.2 := by
  induction ws generalizing w with
  | nil => exact (List.append_nil w).symm
  | cons e ws ih =>
    rw [spaced, ih, List.flatMap_cons, List.append_assoc, List.append_assoc]

/-- A word has characters, and none of them is a blank. -/
def IsWord (w : List Char) : Prop :=
  w ≠ [] ∧ ∀ c ∈ w, isBlank c = false

variable {w : List Char} {ws : List (Nat × List Char)}

theorem spaced_ne_nil (hw : IsWord w) (ws : List (Nat × List Char)) :
    spaced w ws ≠ [] := by
  rw [spaced_eq_append]
  exact List.append_ne_nil_of_left_ne_nil hw.1 _

theorem trim_spaced (hw : IsWord w)
    (hws : ∀ e ∈ ws, IsWord e.2) :
    trim (Utf8.encode (spaced w ws)) = Utf8.encode (spaced w ws) := by
  apply trim_encode
  · intro c hc
    rw [spaced_eq_append, List.head?_append_of_ne_nil w hw.1] at hc
    exact hw.2 c (List.mem_of_mem_head? hc)
  · induction ws generalizing w with
    | nil =>
      intro c hc
      exact hw.2 c (List.mem_of_mem_getLast? hc)
    | cons e ws ih =>
      intro c hc
      have hnext := hws e List.mem_cons_self
      rw [spaced, List.getLast?_append_of_ne_nil _ (spaced_ne_nil hnext ws)]
        at hc
      exact ih hnext (fun d hd => hws d (List.mem_cons_of_mem e hd)) c hc

theorem mem_spaced {c : Char} (h : c ∈ spaced w ws) :
    c ∈ w ∨ c = ' ' ∨ ∃ e ∈ ws, c ∈ e.2 := by
  rw [spaced_eq_append, List.mem_append, List.mem_flatMap] at h
  rcases h with h | ⟨e, he, h⟩
  · exact .inl h
  · rcases List.mem_append.mp h with h | h
    · exact .inr (.inl (List.eq_of_mem_replicate h))
    · exact .inr (.inr ⟨e, he, h⟩)

theorem fieldsFrom_word (h : ∀ c ∈ w, isBlank c = false)
    (field ps : List Piece) :
    fieldsFrom field (w.map .char ++ ps) =
      fieldsFrom ((w.map .char).reverse ++ field) ps := by
  induction w generalizing field with
  | nil => rfl
  | cons c w ih =>
    have hc : (Piece.char c).isBlank = false := h c List.mem_cons_self
    simp only [List.map_cons, List.cons_append, fieldsFrom, hc,
      Bool.false_eq_true, if_false]
    rw [ih fun d hd => h d (List.mem_cons_of_mem c hd)]
    simp

theorem fieldsFrom_spaces (n : Nat) (ps : List Piece) :
    fieldsFrom [] ((List.replicate n ' ').map .char ++ ps) =
      fieldsFrom [] ps := by
  induction n with
  | zero => rfl
  | succ n ih =>
    have hspace : (Piece.char ' ').isBlank = true := by decide
    simp only [List.replicate_succ, List.map_cons, List.cons_append, fieldsFrom,
      hspace, if_true, List.isEmpty_nil]
    exact ih

/-- The fields of spaced words are the words. -/
theorem fields_spaced (hw : IsWord w) (hws : ∀ e ∈ ws, IsWord e.2) :
    fields (Utf8.encode (spaced w ws)) =
      Utf8.encode w :: ws.map (Utf8.encode ·.2) := by
  rw [fields, Utf8.pieces_encode]
  have hrun {v : List Char} (hv : IsWord v) :
      ((v.map Piece.char).reverse ++ []).isEmpty = false := by
    simpa using hv.1
  have hjoin (v : List Char) :
      Utf8.join ((v.map Piece.char).reverse ++ []).reverse = Utf8.encode v := by
    rw [List.append_nil, List.reverse_reverse, Utf8.join_map_char]
  induction ws generalizing w with
  | nil =>
    have h := fieldsFrom_word hw.2 [] []
    rw [List.append_nil] at h
    rw [spaced, h, fieldsFrom, hrun hw, if_neg Bool.false_ne_true, hjoin]
    rfl
  | cons e ws ih =>
    obtain ⟨extra, next⟩ := e
    have hspace : (Piece.char ' ').isBlank = true := by decide
    rw [spaced, List.append_assoc, List.map_append, fieldsFrom_word hw.2,
      List.replicate_succ, List.cons_append, List.map_cons, fieldsFrom, hspace,
      if_pos rfl, hrun hw, if_neg Bool.false_ne_true, hjoin, List.map_append,
      fieldsFrom_spaces]
    rw [ih (hws _ List.mem_cons_self) fun e he =>
      hws e (List.mem_cons_of_mem _ he)]
    rfl

end Bytes

end StackC
