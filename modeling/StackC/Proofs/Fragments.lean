import StackC.Proofs.Rescanning

/-!
The fragments of a text: the literals, names and numbers that expansion takes as
a whole, and the single bytes between them. Together they are the text. Under
macros without parameters expansion goes fragment by fragment, and a text none
of whose names has a macro stays as it is.
-/

namespace StackC

/-- Lists that are put together from parts differ if the parts of one are
nowhere longer and somewhere shorter. -/
theorem flatMap_ne {α β : Type} {f g : α → List β} {l : List α}
    (hle : ∀ x ∈ l, (f x).length ≤ (g x).length) {x : α} (hx : x ∈ l)
    (hlt : (f x).length < (g x).length) : l.flatMap f ≠ l.flatMap g := by
  intro heq
  have hlength := congrArg List.length heq
  rw [List.length_flatMap, List.length_flatMap] at hlength
  exact Nat.ne_of_lt (List.sum_lt_sum _ _ hle ⟨x, hx, hlt⟩) hlength

namespace Macro

/-- Whether a text is the rest of a literal, up to the quote that closes it. -/
def completes (quote : UInt8) : Bytes → Bool
  | [] => false
  | [b] => b == quote
  | b :: c :: s =>
    if b == byte '\\' then completes quote s
    else b != quote && completes quote (c :: s)

/-- A part of a text that expansion looks at as a whole. -/
inductive Fragment where
  | literal (s : Bytes)
  | name (n : Name)
  | number (s : Bytes)
  | other (b : UInt8)
  deriving DecidableEq, Repr

namespace Fragment

def bytes : Fragment → Bytes
  | literal s => s
  | name n => n
  | number s => s
  | other b => [b]

def ofText (b : UInt8) (s : Bytes) : Fragment :=
  if isQuote b then literal s
  else if startsName b then name s
  else if isDecimal b then number s
  else other b

/-- Whether a fragment is no literal without its end. -/
def isComplete : Fragment → Bool
  | literal [] => false
  | literal (quote :: s) => completes quote s
  | _ => true

def name? : Fragment → Option Name
  | name n => some n
  | _ => none

end Fragment

/-- The first fragments of a text, `fuel` of them at most. -/
def fragmentsUpTo : (fuel : Nat) → Bytes → List Fragment
  | 0, _ => []
  | _ + 1, [] => []
  | fuel + 1, b :: s =>
    .ofText b (firstPart inName b s).1 :: fragmentsUpTo fuel
      (firstPart inName b s).2

def fragments (s : Bytes) : List Fragment :=
  fragmentsUpTo s.length s

def names (s : Bytes) : List Name :=
  (fragments s).filterMap Fragment.name?

theorem fragmentsUpTo_fuel {fuel fuel' : Nat} {s : Bytes} (h : s.length ≤ fuel)
    (h' : s.length ≤ fuel') : fragmentsUpTo fuel s = fragmentsUpTo fuel' s := by
  induction fuel generalizing fuel' s with
  | zero =>
    obtain rfl := List.eq_nil_of_length_eq_zero (Nat.le_zero.mp h)
    cases fuel' <;> rfl
  | succ fuel ih =>
    cases s with
    | nil => cases fuel' <;> rfl
    | cons b s =>
      cases fuel' with
      | zero => cases h'
      | succ fuel' =>
        have hlength := length_firstPart inName b s
        rw [List.length_cons] at h h'
        have hrest :
            fragmentsUpTo fuel (firstPart inName b s).2 = fragmentsUpTo fuel'
            (firstPart inName b s).2 := ih (by omega) (by omega)
        rw [fragmentsUpTo, fragmentsUpTo, hrest]

theorem fragments_cons (b : UInt8) (s : Bytes) :
    fragments (b :: s) = .ofText b (firstPart inName b s).1 :: fragments
      (firstPart inName b s).2 := by
  rw [fragments, List.length_cons, fragmentsUpTo, fragments,
    fragmentsUpTo_fuel (length_firstPart inName b s) (Nat.le_refl _)]

/-- What holds of a text behind its first fragment and so of the text, and of
the empty text, holds of all texts. -/
@[elab_as_elim] theorem fragment_induction {P : Bytes → Prop} (nil : P [])
    (cons : ∀ b s, P (firstPart inName b s).2 → P (b :: s)) (s : Bytes) :
    P s := by
  induction hn : s.length using Nat.strong_induction_on generalizing s with
  | _ n ih =>
    cases s with
    | nil => exact nil
    | cons b s =>
      have hlength := length_firstPart inName b s
      rw [List.length_cons] at hn
      exact cons b s (ih _ (by omega) _ rfl)

theorem bytes_ofText (b : UInt8) (s : Bytes) :
    (Fragment.ofText b (firstPart inName b s).1).bytes =
      (firstPart inName b s).1 := by
  rw [Fragment.ofText]
  cases hquote : isQuote b with
  | true => rfl
  | false =>
    cases hstart : startsName b with
    | true => rfl
    | false =>
      cases hdigit : isDecimal b
        <;> simp [Fragment.bytes, firstPart, hquote, inName, hstart, hdigit]

theorem ofText_of_startsName {b : UInt8} (h : startsName b = true) (s : Bytes) :
    Fragment.ofText b s = .name s := by
  rw [Fragment.ofText, isQuote_of_startsName h, h]
  rfl

theorem name?_ofText (b : UInt8) (s : Bytes) :
    (Fragment.ofText b s).name? = if startsName b then some s else none := by
  cases hstart : startsName b with
  | true =>
    rw [ofText_of_startsName hstart]
    rfl
  | false =>
    rw [Fragment.ofText, hstart]
    cases isQuote b <;> cases isDecimal b <;> rfl

theorem names_cons (b : UInt8) (s : Bytes) :
    names (b :: s) = if startsName b then
      (firstPart inName b s).1 :: names (firstPart inName b s).2
      else names (firstPart inName b s).2 := by
  rw [names, fragments_cons, List.filterMap_cons, name?_ofText]
  cases startsName b <;> rfl

/-- The fragments of a text are all of it. -/
theorem flatMap_bytes_fragments (s : Bytes) :
    (fragments s).flatMap Fragment.bytes = s := by
  induction s using fragment_induction with
  | nil => rfl
  | cons b s ih =>
    rw [fragments_cons, List.flatMap_cons, bytes_ofText, ih, firstPart_append]

theorem bytes_ne_nil_of_mem {s : Bytes} {f : Fragment} (h : f ∈ fragments s) :
    f.bytes ≠ [] := by
  induction s using fragment_induction with
  | nil => cases h
  | cons b s ih =>
    rw [fragments_cons] at h
    rcases List.mem_cons.mp h with rfl | h
    · rw [bytes_ofText]
      intro hnil
      have hwhole := congrArg List.length (firstPart_append inName b s)
      have hlength := length_firstPart inName b s
      rw [hnil, List.nil_append, List.length_cons] at hwhole
      omega
    · exact ih h

variable {b : UInt8} {s t : Bytes}

theorem startsName_of_inName (h : inName b = false) :
    startsName b = false ∧ isDecimal b = false :=
  Bool.or_eq_false_iff.mp h

theorem fragments_other (hquote : isQuote b = false) (hname : inName b = false)
    (s : Bytes) : fragments (b :: s) = .other b :: fragments s := by
  obtain ⟨hstart, hdigit⟩ := startsName_of_inName hname
  simp [fragments_cons, Fragment.ofText, firstPart, hquote, hname,
    hstart, hdigit]

theorem fragments_literal {lit rest : Bytes} (hquote : isQuote b = true)
    (h : literalRest b s = (lit, rest)) :
    fragments (b :: s) = .literal (b :: lit) :: fragments rest := by
  simp [fragments_cons, Fragment.ofText, firstPart, hquote, h]

/-- A run of bytes of a class ends where a text follows that does not begin with
one of them. -/
theorem run_append_of_head {p : UInt8 → Bool} (ht : ∀ c ∈ t.head?, p c = false)
    (s : Bytes) :
    (s ++ t).takeWhile p = s.takeWhile p ∧
      (s ++ t).dropWhile p = s.dropWhile p ++ t := by
  have hstop : t.takeWhile p = [] ∧ t.dropWhile p = t := by
    cases t with
    | nil => exact ⟨rfl, rfl⟩
    | cons c t =>
      have hc : ¬ p c = true := Bool.eq_false_iff.mp (ht c rfl)
      exact ⟨List.takeWhile_cons_of_neg hc, List.dropWhile_cons_of_neg hc⟩
  induction s with
  | nil => exact hstop
  | cons c s ih =>
    rw [List.cons_append, List.takeWhile_cons, List.takeWhile_cons,
      List.dropWhile_cons, List.dropWhile_cons, ih.1, ih.2]
    split
    · exact ⟨rfl, rfl⟩
    · exact ⟨rfl, rfl⟩

/-- A run of bytes of a name or number is taken as a whole. -/
theorem firstPart_of_run {begins : UInt8 → Bool} {run : Bytes}
    (hquote : isQuote b = false) (hb : begins b = true)
    (hrun : ∀ c ∈ run, inName c = true) (ht : ∀ c ∈ t.head?, inName c = false) :
    firstPart begins b (run ++ t) = (b :: run, t) := by
  obtain ⟨htake, hdrop⟩ := run_append_of_head ht run
  rw [firstPart, hquote, hb, htake, hdrop, List.takeWhile_eq_self_iff.mpr hrun,
    List.dropWhile_eq_nil_iff.mpr hrun]
  rfl

variable {quote : UInt8}

theorem literalRest_quote (h : (quote == byte '\\') = false) (s : Bytes) :
    literalRest quote (quote :: s) = ([quote], s) := by
  cases s with
  | nil => rfl
  | cons c s =>
    simp only [literalRest, h, beq_self_eq_true, Bool.false_eq_true,
      if_false, if_true]

theorem completes_cons (hescape : (b == byte '\\') = false)
    (hquote : (b == quote) = false) (s : Bytes) :
    completes quote (b :: s) = completes quote s := by
  cases s with
  | nil => exact hquote
  | cons c s =>
    simp only [completes, hescape, bne, hquote, Bool.false_eq_true, if_false,
      Bool.not_false, Bool.true_and]

/-- A literal that is closed ends there, whatever follows. -/
theorem literalRest_of_completes (hquote : (quote == byte '\\') = false)
    (h : completes quote (literalRest quote s).1 = true) (t : Bytes) :
    literalRest quote (s ++ t) =
      ((literalRest quote s).1, (literalRest quote s).2 ++ t) := by
  fun_induction literalRest quote s with
  | case1 => cases h
  | case2 b =>
    obtain rfl : b = quote := beq_iff_eq.mp h
    exact literalRest_quote hquote t
  | case3 b c s hescape lit rest hrest ih =>
    rw [hrest] at ih
    rw [completes, if_pos hescape] at h
    simp only [List.cons_append, literalRest, hescape, if_true, ih h]
  | case4 b c s hescape hclose =>
    obtain rfl : b = quote := beq_iff_eq.mp hclose
    exact literalRest_quote hquote (c :: s ++ t)
  | case5 b c s hescape hclose lit rest hrest ih =>
    rw [Bool.not_eq_true] at hescape hclose
    rw [hrest] at ih
    rw [completes_cons hescape hclose] at h
    rw [List.cons_append, literalRest_cons hescape hclose, ih h]

/-- A fragment that is complete ends before a byte that cannot go on with a name
or number. -/
theorem firstPart_append_of_complete
    (h : (Fragment.ofText b (firstPart inName b s).1).isComplete = true)
    (ht : ∀ c ∈ t.head?, inName c = false) :
    firstPart inName b (s ++ t) =
      ((firstPart inName b s).1, (firstPart inName b s).2 ++ t) := by
  cases hquote : isQuote b with
  | true =>
    have hescape : (b == byte '\\') = false := by
      rw [isQuote, Bool.or_eq_true, beq_iff_eq, beq_iff_eq] at hquote
      rcases hquote with rfl | rfl
      · decide
      · decide
    rw [firstPart, hquote, if_pos rfl, Fragment.ofText, hquote, if_pos rfl] at h
    rw [firstPart, firstPart, hquote, if_pos rfl, if_pos rfl,
      literalRest_of_completes hescape h t]
  | false =>
    obtain ⟨htake, hdrop⟩ := run_append_of_head ht s
    rw [firstPart, firstPart, hquote, htake, hdrop]
    cases inName b <;> rfl

/-- Between a text with complete literals and one that does not go on with a
name or number no fragment is cut. -/
theorem fragments_append (hs : ∀ f ∈ fragments s, f.isComplete = true)
    (ht : ∀ c ∈ t.head?, inName c = false) :
    fragments (s ++ t) = fragments s ++ fragments t := by
  induction s using fragment_induction with
  | nil => rfl
  | cons b s ih =>
    rw [fragments_cons, List.forall_mem_cons] at hs
    rw [List.cons_append, fragments_cons, fragments_cons,
      firstPart_append_of_complete hs.1 ht, ih hs.2, List.cons_append]

theorem isComplete_of_quotes (hs : ∀ c ∈ s, isQuote c = false) :
    ∀ f ∈ fragments s, f.isComplete = true := by
  induction s using fragment_induction with
  | nil => exact fun f hf => absurd hf List.not_mem_nil
  | cons b s ih =>
    have hrest : ∀ c ∈ (firstPart inName b s).2, isQuote c = false := by
      intro c hc
      refine hs c ?_
      rw [← firstPart_append inName b s]
      exact List.mem_append_right _ hc
    rw [fragments_cons]
    refine List.forall_mem_cons.mpr ⟨?_, ih hrest⟩
    rw [Fragment.ofText, hs b List.mem_cons_self]
    cases startsName b <;> cases isDecimal b <;> rfl

end Macro

namespace Macros

open Macro (Fragment fragments names firstPart fragment_induction)

variable {t : Macros} {inner : Name → Bytes → Bytes} {s : Bytes}

/-- What a fragment becomes when the body of a macro without parameters takes
the place of its name. -/
def replaceName (t : Macros) (inner : Name → Bytes → Bytes) : Fragment → Bytes
  | .name n => ((t.get? n).map fun m => inner n m.body).getD n
  | f => f.bytes

theorem replaceName_of_name? {f : Fragment} (h : f.name? = none) :
    t.replaceName inner f = f.bytes := by
  cases f with
  | name n => cases h
  | _ => rfl

/-- If no name of a text has a macro with parameters, the text is expanded
fragment by fragment. -/
theorem expandWith_eq_flatMap
    (h : ∀ n ∈ names s, ∀ m ∈ t.get? n, m.params = none) {fuel : Nat}
    (hfuel : s.length ≤ fuel) :
    t.expandWith inner fuel s =
      (fragments s).flatMap (t.replaceName inner) := by
  induction s using fragment_induction generalizing fuel with
  | nil => exact expandWith_nil t inner fuel
  | cons b s ih =>
    rw [List.length_cons] at hfuel
    obtain ⟨fuel, rfl⟩ :=
      Nat.exists_eq_add_of_le' (Nat.le_trans (Nat.le_add_left 1 _) hfuel)
    have hlength := Macro.length_firstPart Macro.inName b s
    have hkind := Macro.name?_ofText b (firstPart Macro.inName b s).1
    rw [Macro.names_cons] at h
    rw [Macro.fragments_cons, List.flatMap_cons]
    cases hstart : Macro.startsName b with
    | false =>
      rw [hstart, if_neg Bool.false_ne_true] at h hkind
      rw [expandWith_copied fuel
        (fun hb => absurd (hstart.symm.trans hb) Bool.false_ne_true),
        ih h (by omega), replaceName_of_name? hkind, Macro.bytes_ofText]
    | true =>
      rw [hstart, if_pos rfl, List.forall_mem_cons] at h
      obtain ⟨hfirst, hrest⟩ := h
      rw [Macro.ofText_of_startsName hstart, replaceName]
      cases hget : t.get? (firstPart Macro.inName b s).1 with
      | none =>
        rw [expandWith_copied fuel fun _ => by rw [hget]; rfl,
          ih hrest (by omega)]
        rfl
      | some m =>
        have happly : m.apply (firstPart Macro.inName b s).2 =
            some (m.body, (firstPart Macro.inName b s).2) := by
          rw [Macro.apply, hfirst m hget]
        rw [expandWith_replaced fuel hstart (by rw [hget]; exact happly),
          ih hrest (by omega)]
        rfl

/-- A text none of whose names has a macro stays as it is. -/
theorem expand_of_names (h : ∀ n ∈ names s, t.get? n = none) :
    t.expand s = s := by
  have hsame : ∀ f ∈ fragments s, ∀ inner, t.replaceName inner f = f.bytes := by
    intro f hf inner
    cases f with
    | name n =>
      have hn : n ∈ names s := List.mem_filterMap.mpr ⟨_, hf, rfl⟩
      rw [replaceName, h n hn]
      rfl
    | _ => rfl
  rw [expand]
  cases t.length with
  | zero => rfl
  | succ depth =>
    rw [expandTo, expandWith_eq_flatMap (fun n hn m hm => ?_) (Nat.le_refl _),
      List.flatMap_congr fun f hf => hsame f hf _,
      Macro.flatMap_bytes_fragments]
    rw [h n hn] at hm
    cases hm

/-- How deep expansion may nest does not matter once it is as many as there are
macros. -/
theorem expandTo_eq_expand {depth : Nat} (h : t.length ≤ depth) (s : Bytes) :
    expandTo depth t s = t.expand s := by
  have hdepth {k : Nat} (hk : t.length ≤ k) :
      ∃ calls, t.Expands [] s (expandTo k t s) calls := by
    have hexpands :
        ∃ calls, t.Expands [] s (expandTo k (t.without []) s) calls :=
      expands_expandTo (by rwa [without_nil]) s
    rwa [without_nil] at hexpands
  obtain ⟨calls, hexpands⟩ := hdepth h
  obtain ⟨calls', hexpands'⟩ := hdepth (Nat.le_refl t.length)
  exact (hexpands.unique hexpands').1

/-- Macros without parameters are expanded fragment by fragment, each in the
body of the others. -/
theorem expand_eq_flatMap (ht : ∀ e ∈ t, e.2.params = none) (s : Bytes) :
    t.expand s = (fragments s).flatMap (t.replaceName fun n body =>
      (t.erase n).expand body) := by
  rw [expand]
  cases hlength : t.length with
  | zero =>
    obtain rfl := List.eq_nil_of_length_eq_zero hlength
    rw [List.flatMap_congr (g := Fragment.bytes) fun f _ => by cases f
      <;> rfl, Macro.flatMap_bytes_fragments]
    rfl
  | succ depth =>
    rw [expandTo,
      expandWith_eq_flatMap (fun n _ m hm => ht _ (mem_of_lookup_eq_some hm))
      (Nat.le_refl _)]
    refine List.flatMap_congr fun f _ => ?_
    cases f with
    | name n =>
      rw [replaceName, replaceName]
      cases hget : t.get? n with
      | none => rfl
      | some m =>
        have hfewer : (t.erase n).length < t.length :=
          List.length_filter_lt_length_iff_exists.mpr
            ⟨_, mem_of_lookup_eq_some hget, by simp⟩
        exact expandTo_eq_expand (by omega) m.body
    | _ => rfl

end Macros

end StackC
