import StackC.Proofs.Texts

/-!
Texts of any bytes. A byte string is divided into characters and stray bytes in
one way, and a division ends wherever a byte follows that cannot be the tail of
a character. So what is trimmed from a text, and the fields that blanks divide
it into, can be found part by part.
-/

namespace StackC

namespace Utf8

/-- The character of several bytes that begins with `a`, and the bytes behind
it. -/
def wide? (a : UInt8) : Bytes → Option (Char × Bytes)
  | [] => none
  | [b] => (two? a b).map (·, [])
  | [b, c] => ((two? a b).map (·, [c])).or ((three? a b c).map (·, []))
  | b :: c :: d :: s =>
    ((two? a b).map (·, c :: d :: s)).or
      (((three? a b c).map (·, d :: s)).or ((four? a b c d).map (·, s)))

variable {a b c : UInt8} {s t : Bytes} {ch : Char}

theorem pieces_wide (h : ¬ a < 0x80) (s : Bytes) :
    pieces (a :: s) =
      match wide? a s with
      | some (ch, rest) => .char ch :: pieces rest
      | none => .stray a :: pieces s := by
  rw [pieces.eq_def]
  simp only [if_neg h]
  rcases s with _ | ⟨b, _ | ⟨c, _ | ⟨d, s⟩⟩⟩
  · rfl
  · cases htwo : two? a b with
    | some ch => simp [wide?, htwo]
    | none => simp [wide?, htwo]
  · cases htwo : two? a b with
    | some ch => simp [wide?, htwo]
    | none =>
      cases hthree : three? a b c with
      | some ch => simp [wide?, htwo, hthree]
      | none => simp [wide?, htwo, hthree]
  · cases htwo : two? a b with
    | some ch => simp [wide?, htwo]
    | none =>
      cases hthree : three? a b c with
      | some ch => simp [wide?, htwo, hthree]
      | none =>
        cases hfour : four? a b c d with
        | some ch => simp [wide?, htwo, hthree, hfour]
        | none => simp [wide?, htwo, hthree, hfour]

theorem two?_of_not_tail (h : isTail b = false) : two? a b = none := by
  simp [two?, h]

theorem three?_of_not_tail (h : isTail b = false ∨ isTail c = false) :
    three? a b c = none := by
  rcases h with h | h <;> simp [three?, h]

theorem four?_of_not_tail {d : UInt8}
    (h : isTail b = false ∨ isTail c = false ∨ isTail d = false) :
    four? a b c d = none := by
  rcases h with h | h | h <;> simp [four?, h]

/-- A text begins with a byte that ends any character before it. -/
def StartsApart (s : Bytes) : Prop :=
  ∀ b ∈ s.head?, isTail b = false

theorem startsApart_nil : StartsApart [] := by
  intro b hb
  cases hb

theorem startsApart_cons : StartsApart (b :: s) ↔ isTail b = false := by
  constructor
  · exact fun h => h b rfl
  · intro h c hc
    cases hc
    exact h

/-- What follows a text does not reach into its characters. -/
theorem wide?_append (ht : StartsApart t) (a : UInt8) (s : Bytes) :
    wide? a (s ++ t) = (wide? a s).map fun e => (e.1, e.2 ++ t) := by
  match t with
  | [] => simp
  | x :: t =>
    have hx := startsApart_cons.mp ht
    match s with
    | [] =>
      match t with
      | [] => simp [wide?, two?_of_not_tail hx]
      | [y] => simp [wide?, two?_of_not_tail hx, three?_of_not_tail (Or.inl hx)]
      | y :: z :: t =>
        simp [wide?, two?_of_not_tail hx, three?_of_not_tail (Or.inl hx),
          four?_of_not_tail (Or.inl hx)]
    | [b] =>
      match t with
      | [] => simp [wide?, three?_of_not_tail (Or.inr hx), Function.comp_def]
      | y :: t =>
        simp [wide?, three?_of_not_tail (Or.inr hx),
          four?_of_not_tail (Or.inr (Or.inl hx)), Function.comp_def]
    | [b, c] =>
      simp [wide?, four?_of_not_tail (Or.inr (Or.inr hx)), Option.map_or,
        Function.comp_def]
    | b :: c :: d :: s => simp [wide?, Option.map_or, Function.comp_def]

theorem toNat_of_scalar? {least n : Nat} (h : scalar? least n = some ch) :
    least ≤ n ∧ ch.toNat = n := by
  rw [scalar?] at h
  obtain ⟨hleast, h⟩ := Option.ite_none_right_eq_some.mp h
  split at h
  next hvalid =>
    cases h
    exact ⟨hleast, rfl⟩
  next => cases h

theorem tailBits_eq (h : isTail b = true) :
    b.toNat = tailBits b + 0x80 ∧ tailBits b < 0x40 := by
  have hrange := isTail_iff.mp h
  unfold tailBits
  omega

theorem ofNat_eq_of_toNat {n : Nat} (h : b.toNat = n) : UInt8.ofNat n = b := by
  rw [← h]
  exact UInt8.ofNat_toNat

theorem encodeChar_of_two? (h : two? a b = some ch) :
    String.utf8EncodeChar ch = [a, b] := by
  rw [two?] at h
  obtain ⟨hform, h⟩ := Option.ite_none_right_eq_some.mp h
  simp only [Bool.and_eq_true, decide_eq_true_eq, UInt8.le_iff_toNat_le,
    UInt8.lt_iff_toNat_lt] at hform
  obtain ⟨⟨hlow, hhigh⟩, hb⟩ := hform
  have hlow' : 0xc0 ≤ a.toNat := hlow
  have hhigh' : a.toNat < 0xe0 := hhigh
  obtain ⟨hleast, hnat⟩ := toNat_of_scalar? h
  obtain ⟨htail, hbits⟩ := tailBits_eq hb
  rw [String.utf8EncodeChar.eq_1, show ch.val.toNat = ch.toNat from rfl, hnat,
    if_neg (by omega), if_pos (by omega), ofNat_eq_of_toNat (b := a) (by omega),
    ofNat_eq_of_toNat (b := b) (by omega)]

theorem encodeChar_of_three? (h : three? a b c = some ch) :
    String.utf8EncodeChar ch = [a, b, c] := by
  rw [three?] at h
  obtain ⟨hform, h⟩ := Option.ite_none_right_eq_some.mp h
  simp only [Bool.and_eq_true, decide_eq_true_eq, UInt8.le_iff_toNat_le,
    UInt8.lt_iff_toNat_lt] at hform
  obtain ⟨⟨⟨hlow, hhigh⟩, hb⟩, hc⟩ := hform
  have hlow' : 0xe0 ≤ a.toNat := hlow
  have hhigh' : a.toNat < 0xf0 := hhigh
  obtain ⟨hleast, hnat⟩ := toNat_of_scalar? h
  obtain ⟨htail, hbits⟩ := tailBits_eq hb
  obtain ⟨htail', hbits'⟩ := tailBits_eq hc
  rw [String.utf8EncodeChar.eq_1, show ch.val.toNat = ch.toNat from rfl, hnat,
    if_neg (by omega), if_neg (by omega), if_pos (by omega),
    ofNat_eq_of_toNat (b := a) (by omega),
    ofNat_eq_of_toNat (b := b) (by omega),
    ofNat_eq_of_toNat (b := c) (by omega)]

theorem encodeChar_of_four? {d : UInt8} (h : four? a b c d = some ch) :
    String.utf8EncodeChar ch = [a, b, c, d] := by
  rw [four?] at h
  obtain ⟨hform, h⟩ := Option.ite_none_right_eq_some.mp h
  simp only [Bool.and_eq_true, decide_eq_true_eq, UInt8.le_iff_toNat_le,
    UInt8.lt_iff_toNat_lt] at hform
  obtain ⟨⟨⟨⟨hlow, hhigh⟩, hb⟩, hc⟩, hd⟩ := hform
  have hlow' : 0xf0 ≤ a.toNat := hlow
  have hhigh' : a.toNat < 0xf8 := hhigh
  obtain ⟨hleast, hnat⟩ := toNat_of_scalar? h
  obtain ⟨htail, hbits⟩ := tailBits_eq hb
  obtain ⟨htail', hbits'⟩ := tailBits_eq hc
  obtain ⟨htail'', hbits''⟩ := tailBits_eq hd
  rw [String.utf8EncodeChar.eq_1, show ch.val.toNat = ch.toNat from rfl, hnat,
    if_neg (by omega), if_neg (by omega), if_neg (by omega),
    ofNat_eq_of_toNat (b := a) (by omega),
    ofNat_eq_of_toNat (b := b) (by omega),
    ofNat_eq_of_toNat (b := c) (by omega),
    ofNat_eq_of_toNat (b := d) (by omega)]

/-- A character of several bytes is the character of the bytes it was read
from. -/
theorem encodeChar_of_wide? {rest : Bytes} (h : wide? a s = some (ch, rest)) :
    String.utf8EncodeChar ch ++ rest = a :: s := by
  have hpair {ch' : Option Char} {tail : Bytes}
      (hmap : ch'.map (·, tail) = some (ch, rest)) : ch' = some ch ∧
      tail = rest := by
    cases ch' with
    | none => cases hmap
    | some c => cases hmap; exact ⟨rfl, rfl⟩
  match s with
  | [] => cases h
  | [b] =>
    obtain ⟨htwo, rfl⟩ := hpair h
    rw [encodeChar_of_two? htwo]
    rfl
  | [b, c] =>
    rcases Option.or_eq_some_iff.mp h with h | ⟨-, h⟩
    · obtain ⟨htwo, rfl⟩ := hpair h
      rw [encodeChar_of_two? htwo]
      rfl
    · obtain ⟨hthree, rfl⟩ := hpair h
      rw [encodeChar_of_three? hthree]
      rfl
  | b :: c :: d :: s =>
    rcases Option.or_eq_some_iff.mp h with h | ⟨-, h⟩
    · obtain ⟨htwo, rfl⟩ := hpair h
      rw [encodeChar_of_two? htwo]
      rfl
    · rcases Option.or_eq_some_iff.mp h with h | ⟨-, h⟩
      · obtain ⟨hthree, rfl⟩ := hpair h
        rw [encodeChar_of_three? hthree]
        rfl
      · obtain ⟨hfour, rfl⟩ := hpair h
        rw [encodeChar_of_four? hfour]
        rfl

theorem length_lt_of_wide? {rest : Bytes} (h : wide? a s = some (ch, rest)) :
    rest.length < s.length + 1 := by
  have hlength := congrArg List.length (encodeChar_of_wide? h)
  have hpos : 0 < (String.utf8EncodeChar ch).length :=
    List.length_pos_iff.mpr String.utf8EncodeChar_ne_nil
  rw [List.length_append, List.length_cons] at hlength
  omega

theorem encodeChar_ofUInt8 (h : a < 0x80) :
    String.utf8EncodeChar (Char.ofUInt8 a) = [a] := by
  have hnat : (Char.ofUInt8 a).toNat = a.toNat := by
    show a.toUInt32.toNat = a.toNat
    rw [UInt8.toNat_toUInt32]
  have hlt : a.toNat < 0x80 := UInt8.lt_iff_toNat_lt.mp h
  rw [encodeChar_ascii (by omega)]
  show [UInt8.ofNat (Char.ofUInt8 a).toNat] = [a]
  rw [ofNat_eq_of_toNat hnat.symm]

/-- The pieces of a text that ends before a new character. -/
theorem pieces_append (ht : StartsApart t) (s : Bytes) :
    pieces (s ++ t) = pieces s ++ pieces t := by
  induction hn : s.length using Nat.strong_induction_on generalizing s with
  | _ n ih =>
    match s with
    | [] => rfl
    | a :: s =>
      rw [List.length_cons] at hn
      by_cases ha : a < 0x80
      · rw [List.cons_append, pieces_one ha, pieces_one ha,
          ih s.length (by omega) s rfl, List.cons_append]
      · rw [List.cons_append, pieces_wide ha, pieces_wide ha, wide?_append ht]
        cases hwide : wide? a s with
        | none =>
          simp only [Option.map_none]
          rw [ih s.length (by omega) s rfl, List.cons_append]
        | some e =>
          obtain ⟨ch, rest⟩ := e
          have hlength : rest.length < n := hn ▸ length_lt_of_wide? hwide
          simp only [Option.map_some]
          rw [ih rest.length hlength rest rfl, List.cons_append]

/-- The pieces of a text are all of it. -/
theorem join_pieces (s : Bytes) : join (pieces s) = s := by
  induction hn : s.length using Nat.strong_induction_on generalizing s with
  | _ n ih =>
    match s with
    | [] => rfl
    | a :: s =>
      rw [List.length_cons] at hn
      by_cases ha : a < 0x80
      · rw [pieces_one ha, join, List.flatMap_cons, ← join,
          ih s.length (by omega) s rfl, Piece.bytes, encodeChar_ofUInt8 ha]
        rfl
      · rw [pieces_wide ha]
        cases hwide : wide? a s with
        | none =>
          simp only [join, List.flatMap_cons]
          rw [← join, ih s.length (by omega) s rfl]
          rfl
        | some e =>
          obtain ⟨ch, rest⟩ := e
          have hlength : rest.length < n := hn ▸ length_lt_of_wide? hwide
          simp only [join, List.flatMap_cons]
          rw [← join, ih rest.length hlength rest rfl]
          exact encodeChar_of_wide? hwide

theorem join_append (ps qs : List Piece) :
    join (ps ++ qs) = join ps ++ join qs :=
  List.flatMap_append

theorem bytes_ne_nil (p : Piece) : p.bytes ≠ [] := by
  cases p with
  | char c => exact String.utf8EncodeChar_ne_nil
  | stray b => exact List.cons_ne_nil b []

theorem isTail_head_encodeChar {c : Char}
    (h : b ∈ (String.utf8EncodeChar c).head?) : isTail b = false := by
  have hmax : c.toNat < 0x110000 := toNat_val_lt c
  have hnot {k : Nat} (hk : k < 256) (hrange : k < 0x80 ∨ 0xc0 ≤ k) :
      isTail (UInt8.ofNat k) = false := by
    rw [Bool.eq_false_iff, Ne, isTail_iff, toNat_ofNat hk]
    omega
  rw [String.utf8EncodeChar.eq_1, show c.val.toNat = c.toNat from rfl] at h
  generalize c.toNat = n at hmax h
  split at h
  next hone =>
    cases h
    exact hnot (by omega) (by omega)
  next =>
    split at h
    next =>
      cases h
      exact hnot (by omega) (by omega)
    next =>
      split at h
      next =>
        cases h
        exact hnot (by omega) (by omega)
      next =>
        cases h
        exact hnot (by omega) (by omega)

theorem startsApart_encodeChar (c : Char) (s : Bytes) :
    StartsApart (String.utf8EncodeChar c ++ s) := by
  intro b hb
  rw [List.head?_append_of_ne_nil _ String.utf8EncodeChar_ne_nil] at hb
  exact isTail_head_encodeChar hb

theorem startsApart_ascii (h : a < 0x80) (s : Bytes) :
    StartsApart (a :: s) := by
  refine startsApart_cons.mpr (Bool.eq_false_iff.mpr fun htail => ?_)
  have hle := (isTail_iff.mp htail).1
  exact absurd (UInt8.lt_iff_toNat_lt.mp h) (Nat.not_lt.mpr hle)

theorem chars_append (ht : StartsApart t) (s : Bytes) :
    chars (s ++ t) = chars s ++ chars t := by
  rw [chars, pieces_append ht, List.map_append]
  rfl

theorem chars_ascii (h : a < 0x80) (s : Bytes) :
    chars (a :: s) = Char.ofUInt8 a :: chars s := by
  rw [chars, pieces_one h]
  rfl

/-- A text that begins with a character begins apart from what is before it. -/
theorem startsApart_of_pieces (h : ∀ p ∈ (pieces s).head?, ∃ c, p = .char c) :
    StartsApart s := by
  cases hps : pieces s with
  | nil =>
    rw [← join_pieces s, hps]
    exact startsApart_nil
  | cons p ps =>
    obtain ⟨c, rfl⟩ := h p (by rw [hps]; rfl)
    rw [← join_pieces s, hps, join, List.flatMap_cons]
    exact startsApart_encodeChar c _

end Utf8

namespace Bytes

variable {p : Piece} {ps : List Piece}

theorem char_of_isBlank (h : p.isBlank = true) :
    ∃ c, p = .char c ∧ isBlank c = true := by
  cases p with
  | char c => exact ⟨c, rfl, h⟩
  | stray b =>
    exact absurd (show isBlank Piece.replacement = true from h) (by decide)

theorem exists_chars_of_blanks (h : ∀ p ∈ ps, p.isBlank = true) :
    ∃ cs : List Char, ps = cs.map .char := by
  induction ps with
  | nil => exact ⟨[], rfl⟩
  | cons p ps ih =>
    obtain ⟨c, rfl, -⟩ := char_of_isBlank (h p List.mem_cons_self)
    obtain ⟨cs, rfl⟩ := ih fun q hq => h q (List.mem_cons_of_mem _ hq)
    exact ⟨c :: cs, rfl⟩

theorem pieces_join_blanks (h : ∀ p ∈ ps, p.isBlank = true) (s : Bytes) :
    Utf8.pieces (Utf8.join ps ++ s) = ps ++ Utf8.pieces s := by
  obtain ⟨cs, rfl⟩ := exists_chars_of_blanks h
  rw [Utf8.join_map_char, Utf8.pieces_encode_append]

/-- Pieces without the blanks at either end. -/
def trimmed (ps : List Piece) : List Piece :=
  ((ps.dropWhile Piece.isBlank).reverse.dropWhile Piece.isBlank).reverse

theorem exists_trimmed (ps : List Piece) :
    ∃ lead trail, ps = lead ++ (trimmed ps ++ trail) ∧
      (∀ p ∈ lead, p.isBlank = true) ∧ ∀ p ∈ trail, p.isBlank = true := by
  have hback :=
    List.takeWhile_append_dropWhile (p := Piece.isBlank)
      (l := (ps.dropWhile Piece.isBlank).reverse)
  have hrest :
      trimmed ps ++
      ((ps.dropWhile Piece.isBlank).reverse.takeWhile Piece.isBlank).reverse =
      ps.dropWhile Piece.isBlank := by
    rw [trimmed, ← List.reverse_append, hback, List.reverse_reverse]
  refine ⟨ps.takeWhile Piece.isBlank,
    ((ps.dropWhile Piece.isBlank).reverse.takeWhile Piece.isBlank).reverse, ?_,
    fun p hp => List.mem_takeWhile_imp hp,
    fun p hp => List.mem_takeWhile_imp (List.mem_reverse.mp hp)⟩
  rw [hrest, List.takeWhile_append_dropWhile]

theorem join_trimmed {s : Bytes} {lead trail : List Piece}
    (h : Utf8.pieces s = lead ++ (trimmed (Utf8.pieces s) ++ trail)) :
    Utf8.join lead ++ (trim s ++ Utf8.join trail) = s := by
  rw [show trim s = Utf8.join (trimmed (Utf8.pieces s)) from rfl,
    ← Utf8.join_append, ← Utf8.join_append, ← h, Utf8.join_pieces]

theorem mem_of_mem_trim {b : UInt8} {s : Bytes} (h : b ∈ trim s) : b ∈ s := by
  obtain ⟨lead, trail, heq, -, -⟩ := exists_trimmed (Utf8.pieces s)
  rw [← join_trimmed heq]
  exact List.mem_append_right _ (List.mem_append_left _ h)

theorem head?_trimmed (ps : List Piece) :
    (trimmed ps).head? = (ps.dropWhile Piece.isBlank).head? := by
  rw [trimmed]
  cases hdrop : ps.dropWhile Piece.isBlank with
  | nil => rfl
  | cons p qs =>
    have hp : p.isBlank = false := by
      have hnot := List.head?_dropWhile_not Piece.isBlank ps
      rwa [hdrop] at hnot
    rw [List.reverse_cons, List.dropWhile_append]
    split <;> simp [hp]

theorem isBlank_of_getLast?_trimmed (h : p ∈ (trimmed ps).getLast?) :
    p.isBlank = false := by
  rw [trimmed, List.getLast?_reverse] at h
  have hnot :=
    List.head?_dropWhile_not Piece.isBlank (ps.dropWhile Piece.isBlank).reverse
  rw [Option.mem_def.mp h] at hnot
  simpa using hnot

/-- The pieces of a trimmed text. -/
theorem pieces_trim (s : Bytes) :
    Utf8.pieces (trim s) = trimmed (Utf8.pieces s) := by
  obtain ⟨lead, trail, heq, hlead, htrail⟩ := exists_trimmed (Utf8.pieces s)
  have hpieces : Utf8.pieces (Utf8.join trail) = trail := by
    simpa [Utf8.pieces] using pieces_join_blanks htrail []
  have happart : Utf8.StartsApart (Utf8.join trail) := by
    apply Utf8.startsApart_of_pieces
    intro p hp
    rw [hpieces] at hp
    obtain ⟨c, rfl, -⟩ := char_of_isBlank (htrail p (List.mem_of_mem_head? hp))
    exact ⟨c, rfl⟩
  have hsplit : Utf8.pieces s = lead ++ (Utf8.pieces (trim s) ++ trail) := by
    calc
      Utf8.pieces s = Utf8.pieces
          (Utf8.join lead ++ (trim s ++ Utf8.join trail)) := by
        rw [join_trimmed heq]
      _ = lead ++ (Utf8.pieces (trim s) ++ trail) := by
        rw [pieces_join_blanks hlead, Utf8.pieces_append happart, hpieces]
  exact (List.append_cancel_right
    (List.append_cancel_left (heq.symm.trans hsplit))).symm

theorem fieldsFrom_blanks (h : ∀ p ∈ ps, p.isBlank = true) (qs : List Piece) :
    fieldsFrom [] (ps ++ qs) = fieldsFrom [] qs := by
  induction ps with
  | nil => rfl
  | cons p ps ih =>
    rw [List.cons_append, fieldsFrom, if_pos (h p List.mem_cons_self),
      if_pos (by rfl)]
    exact ih fun q hq => h q (List.mem_cons_of_mem p hq)

theorem fieldsFrom_append_blanks {trail : List Piece}
    (h : ∀ p ∈ trail, p.isBlank = true) (field ps : List Piece) :
    fieldsFrom field (ps ++ trail) = fieldsFrom field ps := by
  induction ps generalizing field with
  | nil =>
    cases trail with
    | nil => rfl
    | cons p trail =>
      have hrest : fieldsFrom [] trail = [] := by
        have := fieldsFrom_blanks
          (fun q hq => h q (List.mem_cons_of_mem p hq)) []
        rwa [List.append_nil] at this
      rw [List.nil_append, fieldsFrom.eq_2, if_pos (h p List.mem_cons_self),
        hrest, fieldsFrom]
  | cons p ps ih => rw [List.cons_append, fieldsFrom, fieldsFrom, ih, ih]

/-- Trimming a text leaves its fields as they are. -/
theorem fields_trim (s : Bytes) : fields (trim s) = fields s := by
  obtain ⟨lead, trail, heq, hlead, htrail⟩ := exists_trimmed (Utf8.pieces s)
  rw [fields, fields, pieces_trim]
  conv => rhs; rw [heq]
  rw [fieldsFrom_blanks hlead, fieldsFrom_append_blanks htrail]

/-- The last field ends where the last piece does that is not blank. -/
theorem exists_last_field (hp : p.isBlank = false) (field ps : List Piece) :
    ∃ fs qs, fieldsFrom field (ps ++ [p]) = fs ++ [Utf8.join (qs ++ [p])] := by
  induction ps generalizing field with
  | nil =>
    refine ⟨[], field.reverse, ?_⟩
    rw [List.nil_append, fieldsFrom, hp, if_neg Bool.false_ne_true, fieldsFrom,
      if_neg (by simp), List.reverse_cons, List.nil_append]
  | cons q ps ih =>
    rw [List.cons_append, fieldsFrom]
    split
    next =>
      obtain ⟨fs, qs, hfs⟩ := ih []
      split
      next => exact ⟨fs, qs, hfs⟩
      next =>
        exact ⟨Utf8.join field.reverse :: fs, qs, by rw [hfs, List.cons_append]⟩
    next => exact ih (q :: field)

/-- A trimmed text ends as its last field does. -/
theorem getLast?_trim (s : Bytes) :
    (trim s).getLast? = (fields s).getLast?.bind List.getLast? := by
  have hlast (qs : List Piece)
      (p : Piece) : (Utf8.join (qs ++ [p])).getLast? = p.bytes.getLast? := by
    rw [Utf8.join_append,
      List.getLast?_append_of_ne_nil
      _ (by simpa [Utf8.join] using Utf8.bytes_ne_nil p)]
    simp [Utf8.join]
  rw [← fields_trim, fields, pieces_trim, ← Utf8.join_pieces (trim s),
    pieces_trim]
  rcases List.eq_nil_or_concat (trimmed (Utf8.pieces s)) with
      hnil | ⟨ps, p, hconcat⟩
  · rw [hnil]
    rfl
  · have hmem : p ∈ (trimmed (Utf8.pieces s)).getLast? := by
      rw [hconcat]
      simp
    have hp : p.isBlank = false := isBlank_of_getLast?_trimmed hmem
    obtain ⟨fs, qs, hfs⟩ := exists_last_field hp [] ps
    rw [hconcat, List.concat_eq_append, hfs, hlast, List.getLast?_concat,
      Option.bind_some, hlast]

end Bytes

end StackC
