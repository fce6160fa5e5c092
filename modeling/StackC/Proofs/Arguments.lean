import StackC.Proofs.Comments
import StackC.Proofs.Fragments

/-!
Where a list of macro arguments is cut: at the commas outside parentheses, up to
the parenthesis that closes it. Every byte counts, also those in literals. So
arguments are found as they are written if their parentheses are balanced and
their commas enclosed when the bytes of literals are counted in, and not
otherwise.
-/

namespace StackC

namespace Bytes

/-- Trimming leaves a text alone or makes it shorter. -/
theorem trim_eq_or_lt (s : Bytes) :
    trim s = s ∨ (trim s).length < s.length := by
  obtain ⟨lead, trail, heq, -, -⟩ := exists_trimmed (Utf8.pieces s)
  have hwhole := join_trimmed heq
  have hlength := congrArg List.length hwhole
  rw [List.length_append, List.length_append] at hlength
  by_cases hblanks : (Utf8.join lead).length + (Utf8.join trail).length = 0
  · rw [Nat.add_eq_zero_iff, List.length_eq_zero_iff, List.length_eq_zero_iff]
      at hblanks
    rw [hblanks.1, hblanks.2, List.nil_append, List.append_nil] at hwhole
    exact Or.inl hwhole
  · exact Or.inr (by omega)

/-- Texts that take as much room trimmed as they do untrimmed have no blanks at
their ends. -/
theorem trim_eq_of_flatMap {sep : UInt8} {pieces : List Bytes}
    (h : (pieces.map trim).flatMap (sep :: ·) = pieces.flatMap (sep :: ·)) :
    ∀ p ∈ pieces, trim p = p := by
  have hle (p : Bytes) : (trim p).length ≤ p.length := by
    rcases trim_eq_or_lt p with heq | hlt
    · rw [heq]
    · exact Nat.le_of_lt hlt
  rw [List.flatMap_map] at h
  intro p hp
  rcases trim_eq_or_lt p with heq | hlt
  · exact heq
  · exact absurd h
      (flatMap_ne (fun q _ => Nat.succ_le_succ (hle q)) hp
        (Nat.succ_lt_succ hlt))

end Bytes

namespace Macro

/-- The number of parentheses open behind a byte of an argument, `depth` of them
being open before it; `none` if the argument ends before the byte. -/
def depthAfter? (depth : Nat) (b : UInt8) : Option Nat :=
  if b == byte '(' then some (depth + 1)
  else if b == byte ')' then if depth = 0 then none else some (depth - 1)
  else if b == byte ',' && depth == 0 then none
  else some depth

/-- Whether a text closes `depth` parentheses and those that it opens, with all
its commas inside parentheses. -/
def enclosed : (depth : Nat) → Bytes → Bool
  | depth, [] => depth == 0
  | depth, b :: s =>
    match depthAfter? depth b with
    | none => false
    | some depth => enclosed depth s

variable {first : Bool} {depth : Nat} {b : UInt8} {arg s rest : Bytes}
  {args : List Bytes}

theorem enclosed_of_some {d : Nat} (h : depthAfter? depth b = some d) :
    enclosed depth (b :: s) = enclosed d s := by
  rw [enclosed, h]

theorem argumentsFrom_of_some {d : Nat} (h : depthAfter? depth b = some d)
    (first : Bool) (arg s : Bytes) :
    argumentsFrom first depth arg (b :: s) =
      argumentsFrom first d (b :: arg) s := by
  rw [depthAfter?] at h
  rw [argumentsFrom.eq_def]
  dsimp only
  split at h
  next hopen =>
    cases h
    rw [if_pos hopen]
  next hopen =>
    rw [if_neg hopen]
    split at h
    next hclose =>
      rw [if_pos hclose]
      cases depth with
      | zero => cases h
      | succ depth =>
        cases h
        rfl
    next hclose =>
      rw [if_neg hclose]
      obtain ⟨hcomma, h⟩ := Option.ite_none_left_eq_some.mp h
      cases h
      rw [if_neg hcomma]

/-- An argument ends outside its parentheses, with a parenthesis that was not
opened in it or with a comma. -/
theorem ends_of_none (h : depthAfter? depth b = none) :
    depth = 0 ∧ (b = byte ')' ∨ b = byte ',') := by
  rw [depthAfter?] at h
  split at h
  next => cases h
  next =>
    split at h
    next hclose =>
      split at h
      next hdepth => exact ⟨hdepth, Or.inl (beq_iff_eq.mp hclose)⟩
      next => cases h
    next =>
      split at h
      next hcomma =>
        rw [Bool.and_eq_true, beq_iff_eq, beq_iff_eq] at hcomma
        exact ⟨hcomma.2, Or.inr hcomma.1⟩
      next => cases h

theorem argumentsFrom_close (first : Bool) (arg s : Bytes) :
    argumentsFrom first 0 arg (byte ')' :: s) =
      some (if first && (Bytes.trim arg.reverse).isEmpty then []
        else [Bytes.trim arg.reverse], s) :=
  rfl

theorem argumentsFrom_comma (first : Bool) (arg s : Bytes) :
    argumentsFrom first 0 arg (byte ',' :: s) = (argumentsFrom false 0 [] s).map
      fun e => (Bytes.trim arg.reverse :: e.1, e.2) := by
  rw [argumentsFrom]
  cases argumentsFrom false 0 [] s <;> rfl

/-- The arguments that stand between the commas of a list. A first one that is
blank and alone counts as none. -/
def argumentsOf (first : Bool) (piece : Bytes) (more : List Bytes) :
    List Bytes :=
  if first && more.isEmpty && (Bytes.trim piece).isEmpty then []
  else (piece :: more).map Bytes.trim

theorem argumentsFrom_enclosed {piece : Bytes} (h : enclosed depth piece = true)
    (first : Bool) (arg s : Bytes) :
    argumentsFrom first depth arg (piece ++ s) =
      argumentsFrom first 0 (piece.reverse ++ arg) s := by
  induction piece generalizing depth arg with
  | nil =>
    obtain rfl : depth = 0 := beq_iff_eq.mp h
    rfl
  | cons b piece ih =>
    cases hdepth : depthAfter? depth b with
    | none =>
      rw [enclosed, hdepth] at h
      cases h
    | some d =>
      rw [enclosed_of_some hdepth] at h
      rw [List.cons_append, argumentsFrom_of_some hdepth, ih h,
        List.reverse_cons, List.append_assoc]
      rfl

/-- Pieces that are enclosed are found between their commas. -/
theorem argumentsFrom_pieces {piece : Bytes} {more : List Bytes}
    (hpiece : enclosed depth piece = true)
    (hmore : ∀ m ∈ more, enclosed 0 m = true) (first : Bool)
    (arg rest : Bytes) :
    argumentsFrom first depth arg
      (piece ++ (more.flatMap (byte ',' :: ·) ++ byte ')' :: rest)) =
      some (argumentsOf first (arg.reverse ++ piece) more, rest) := by
  have hreverse (piece arg : Bytes) :
      (piece.reverse ++ arg).reverse = arg.reverse ++ piece := by
    rw [List.reverse_append, List.reverse_reverse]
  rw [argumentsFrom_enclosed hpiece]
  induction more generalizing first depth arg piece with
  | nil =>
    rw [List.flatMap_nil, List.nil_append, argumentsFrom_close, hreverse,
      argumentsOf]
    cases first <;> rfl
  | cons m more ih =>
    rw [List.forall_mem_cons] at hmore
    rw [List.flatMap_cons, List.cons_append, List.cons_append,
      List.append_assoc, argumentsFrom_comma, argumentsFrom_enclosed hmore.1,
      ih hmore.1 hmore.2, hreverse]
    simp [argumentsOf]

/-- What is found stands between commas, in pieces that are enclosed. -/
theorem pieces_of_argumentsFrom
    (h : argumentsFrom first depth arg s = some (args, rest)) :
    ∃ piece more,
      s = piece ++ (more.flatMap (byte ',' :: ·) ++ byte ')' :: rest) ∧
    enclosed depth piece = true ∧ (∀ m ∈ more, enclosed 0 m = true) ∧
    args = argumentsOf first (arg.reverse ++ piece) more := by
  induction s generalizing first depth arg args with
  | nil => cases h
  | cons b s ih =>
    cases hdepth : depthAfter? depth b with
    | some d =>
      rw [argumentsFrom_of_some hdepth] at h
      obtain ⟨piece, more, rfl, hpiece, hmore, rfl⟩ := ih h
      refine ⟨b :: piece, more, rfl, (enclosed_of_some hdepth).trans hpiece,
        hmore, ?_⟩
      rw [List.reverse_cons, List.append_assoc]
      rfl
    | none =>
      obtain ⟨rfl, rfl | rfl⟩ := ends_of_none hdepth
      · rw [argumentsFrom_close] at h
        cases h
        refine ⟨[], [], rfl, rfl, by simp, ?_⟩
        rw [argumentsOf, List.append_nil]
        cases first <;> rfl
      · rw [argumentsFrom_comma, Option.map_eq_some_iff] at h
        obtain ⟨⟨args', rest'⟩, hrest, heq⟩ := h
        cases heq
        obtain ⟨piece, more, rfl, hpiece, hmore, rfl⟩ := ih hrest
        refine ⟨[], piece :: more, by simp, rfl,
          List.forall_mem_cons.mpr ⟨hpiece, hmore⟩, ?_⟩
        simp [argumentsOf]

/-- Arguments are found as they are written exactly if each of them is
enclosed. -/
theorem arguments_intercalate_iff {as : List Bytes} (hne : as ≠ [])
    (hargs : ∀ a ∈ as, a ≠ [] ∧ Bytes.trim a = a) (rest : Bytes) :
    arguments (byte '(' :: ([byte ','].intercalate as ++ byte ')' :: rest)) =
      some (as, rest) ↔
    ∀ a ∈ as, enclosed 0 a = true := by
  have hstart (s : Bytes) :
      arguments (byte '(' :: s) = argumentsFrom true 0 [] s := rfl
  obtain ⟨a, more, rfl⟩ := List.exists_cons_of_ne_nil hne
  rw [hstart, Bytes.intercalate_cons, List.append_assoc]
  constructor
  · intro h
    obtain ⟨piece, more', heq, hpiece, hmore, hargsOf⟩ :=
      pieces_of_argumentsFrom h
    rw [argumentsOf] at hargsOf
    split at hargsOf
    next => cases hargsOf
    next =>
      -- The pieces take the room that they take without blanks, so they have
      -- none.
      rw [← List.append_assoc, ← List.append_assoc, List.append_left_inj] at heq
      have hroom : ((piece :: more').map Bytes.trim).flatMap (byte ',' :: ·) =
          (piece :: more').flatMap (byte ',' :: ·) := by
        rw [List.reverse_nil, List.nil_append] at hargsOf
        rw [← hargsOf, List.flatMap_cons, List.flatMap_cons, List.cons_append,
          List.cons_append, heq]
      rw [hargsOf, List.reverse_nil, List.nil_append,
        List.map_congr_left (Bytes.trim_eq_of_flatMap hroom), List.map_id']
      exact List.forall_mem_cons.mpr ⟨hpiece, hmore⟩
  · intro h
    rw [List.forall_mem_cons] at h
    have hfirst : (Bytes.trim a).isEmpty = false := by
      rw [(hargs a List.mem_cons_self).2]
      exact List.isEmpty_eq_false_iff.mpr (hargs a List.mem_cons_self).1
    rw [argumentsFrom_pieces h.1 h.2, argumentsOf, List.reverse_nil,
      List.nil_append, hfirst, Bool.and_false, if_neg Bool.false_ne_true,
      List.map_congr_left fun b hb => (hargs b hb).2, List.map_id']

namespace Fragment

def code : Fragment → Bytes
  | literal _ => []
  | f => f.bytes

def quoted : Fragment → Bytes
  | literal s => s
  | _ => []

end Fragment

/-- A text that can be written for one argument: its literals are complete,
outside of them its parentheses are balanced and its commas in parentheses, and
it is not empty and has no blanks at its ends. -/
structure IsArgument (a : Bytes) : Prop where
  literals : ∀ f ∈ fragments a, f.isComplete = true
  code : enclosed 0 ((fragments a).flatMap Fragment.code) = true
  nonempty : a ≠ []
  trimmed : Bytes.trim a = a

instance (a : Bytes) : Decidable (IsArgument a) :=
  decidable_of_iff ((∀ f ∈ fragments a, f.isComplete = true) ∧
    enclosed 0 ((fragments a).flatMap Fragment.code) = true ∧ a ≠ [] ∧
    Bytes.trim a = a) ⟨fun ⟨hliterals, hcode, hnonempty, htrimmed⟩ =>
    ⟨hliterals, hcode, hnonempty, htrimmed⟩,
    fun h => ⟨h.literals, h.code, h.nonempty, h.trimmed⟩⟩

/-- The bytes that lists of arguments are cut by. -/
def isSeparator (b : UInt8) : Bool :=
  b == byte '(' || b == byte ')' || b == byte ','

theorem enclosed_append (h : ∀ b ∈ s, isSeparator b = false) (depth : Nat)
    (t : Bytes) : enclosed depth (s ++ t) = enclosed depth t := by
  induction s with
  | nil => rfl
  | cons b s ih =>
    rw [List.forall_mem_cons] at h
    have hdepth : depthAfter? depth b = some depth := by
      simp only [isSeparator, Bool.or_eq_false_iff] at h
      rw [depthAfter?, h.1.1.1, h.1.1.2, h.1.2]
      rfl
    rw [List.cons_append, enclosed_of_some hdepth, ih h.2]

theorem enclosed_congr {t t' : Bytes}
    (h : ∀ depth, enclosed depth t = enclosed depth t') (depth : Nat)
    (s : Bytes) : enclosed depth (s ++ t) = enclosed depth (s ++ t') := by
  induction s generalizing depth with
  | nil => exact h depth
  | cons b s ih =>
    rw [List.cons_append, List.cons_append, enclosed, enclosed]
    cases depthAfter? depth b with
    | none => rfl
    | some d => exact ih d

/-- Literals without separators do not count. -/
theorem enclosed_code {fs : List Fragment}
    (h : ∀ b ∈ fs.flatMap Fragment.quoted, isSeparator b = false)
    (depth : Nat) :
    enclosed depth (fs.flatMap Fragment.code) =
      enclosed depth (fs.flatMap Fragment.bytes) := by
  induction fs generalizing depth with
  | nil => rfl
  | cons f fs ih =>
    rw [List.flatMap_cons, List.forall_mem_append] at h
    rw [List.flatMap_cons, List.flatMap_cons]
    cases f with
    | literal lit =>
      exact (ih h.2 depth).trans (enclosed_append h.1 depth _).symm
    | _ => exact enclosed_congr (ih h.2) depth _

/-- Texts with complete literals keep their fragments between commas. -/
theorem fragments_intercalate {as : List Bytes}
    (h : ∀ a ∈ as, ∀ f ∈ fragments a, f.isComplete = true) {t : Bytes}
    (ht : ∀ c ∈ t.head?, inName c = false) :
    fragments ([byte ','].intercalate as ++ t) =
      [Fragment.other (byte ',')].intercalate (as.map fragments) ++
      fragments t := by
  induction as with
  | nil => rfl
  | cons a as ih =>
    rw [List.forall_mem_cons] at h
    cases as with
    | nil => simpa using fragments_append h.1 ht
    | cons b as =>
      have hcomma :
          ∀ c ∈ (byte ',' :: ([byte ','].intercalate (b :: as) ++ t)).head?,
          inName c = false := by
        intro c hc
        cases hc
        rfl
      rw [List.map_cons, List.map_cons, List.intercalate_cons_cons,
        List.intercalate_cons_cons, List.append_assoc, List.append_assoc,
        List.singleton_append, fragments_append h.1 hcomma,
        fragments_other rfl rfl, ih h.2, List.map_cons]
      simp

/-- To expansion a list of arguments is the fragments of its arguments and the
marks between them. It is cut at those marks exactly if the parentheses and
commas inside of literals do no harm, and surely if no literal has any. -/
theorem arguments_are_cut_at_commas {as : List Bytes} (hne : as ≠ [])
    (hargs : ∀ a ∈ as, IsArgument a) (rest : Bytes) :
    let list := byte '(' :: ([byte ','].intercalate as ++ byte ')' :: rest)
    fragments list =
      .other (byte '(') ::
      ([.other (byte ',')].intercalate (as.map fragments) ++
        .other (byte ')') :: fragments rest) ∧
    (arguments list = some (as, rest) ↔ ∀ a ∈ as, enclosed 0 a = true) ∧
    ((∀ a ∈ as, ∀ b ∈ (fragments a).flatMap Fragment.quoted,
      isSeparator b = false) → arguments list = some (as, rest)) := by
  intro list
  have hclose : ∀ c ∈ (byte ')' :: rest).head?, inName c = false := by
    intro c hc
    cases hc
    rfl
  have hiff :=
    arguments_intercalate_iff hne
      (fun a ha => ⟨(hargs a ha).nonempty, (hargs a ha).trimmed⟩) rest
  refine ⟨?_, hiff, fun hliterals => hiff.mpr fun a ha => ?_⟩
  · rw [fragments_other rfl rfl,
      fragments_intercalate (fun a ha => (hargs a ha).literals) hclose,
      fragments_other rfl rfl]
  · have hcode := (hargs a ha).code
    rwa [enclosed_code (hliterals a ha), flatMap_bytes_fragments] at hcode

/-- A call with a list of its own, a string with a quote in it and a character
that is a quote. -/
theorem arguments_are_cut_at_commas_nested :
    let as := [text "f(a, (b))", text "\"it\\\"s \"", text "'\\''"]
    as ≠ [] ∧ (∀ a ∈ as, IsArgument a) ∧
      (∀ a ∈ as, ∀ b ∈ (fragments a).flatMap Fragment.quoted,
        isSeparator b = false) ∧
        arguments (text "(f(a, (b)),\"it\\\"s \",'\\''), c)") =
        some (as, text ", c)") := by
  intro as
  have hne : as ≠ [] := by decide
  have hargs : ∀ a ∈ as, IsArgument a := by decide +kernel
  have hquoted : ∀ a ∈ as, ∀ b ∈ (fragments a).flatMap Fragment.quoted,
      isSeparator b = false := by decide +kernel
  exact ⟨hne, hargs, hquoted,
    (arguments_are_cut_at_commas hne hargs (text ", c)")).2.2 hquoted⟩

/-- A comma in a literal makes two arguments out of one, and a parenthesis in a
literal ends the list. -/
theorem literals_are_cut :
    (IsArgument (text "\",\"") ∧
      arguments (text "(\",\")") = some ([text "\"", text "\""], [])) ∧
    IsArgument (text "')'") ∧
    arguments (text "(')')") = some ([text "'"], text "')") := by
  decide +kernel

end Macro

end StackC
