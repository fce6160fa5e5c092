import StackC.Proofs.Fragments

/-!
How a macro body is filled in. The body is taken apart as expansion takes a text
apart, and each name that is a parameter gives way to its argument. Numbers are
not left alone as expansion leaves them: the letters behind the digits of a
number are looked up like a name. So a body is filled in by its names alone
exactly if no parameter is what follows the digits of one of its numbers.
-/

namespace StackC

namespace Macro

namespace Fragment

def fillName (arg? : Name → Option Bytes) : Fragment → Bytes
  | name n => (arg? n).getD n
  | f => f.bytes

/-- What follows the digits of a number. -/
def suffix : Fragment → Bytes
  | number s => s.dropWhile isDecimal
  | _ => []

/-- A fragment with an argument in place of its name or of what follows its
digits. -/
def fillIn (arg? : Name → Option Bytes) : Fragment → Bytes
  | name n => (arg? n).getD n
  | number s =>
    s.takeWhile isDecimal ++ if (s.dropWhile isDecimal).isEmpty then []
      else (arg? (s.dropWhile isDecimal)).getD (s.dropWhile isDecimal)
  | f => f.bytes

end Fragment

/-- The argument of a name belongs to the last parameter with that name. -/
theorem argument?_eq_some_iff {params args : List Bytes} {n : Name}
    {a : Bytes} :
    argument? params args n = some a ↔
      ∃ before after, params.zip args = before ++ (n, a) :: after ∧
        ∀ e ∈ after, e.1 ≠ n := by
  rw [argument?, List.lookup_eq_some_iff]
  constructor
  · rintro ⟨after, before, heq, hafter⟩
    refine ⟨before.reverse, after.reverse, ?_, fun e he => ?_⟩
    · rw [← List.reverse_reverse (params.zip args), heq]
      simp
    · exact Ne.symm (bne_iff_ne.mp (hafter e (List.mem_reverse.mp he)))
  · rintro ⟨before, after, heq, hafter⟩
    refine ⟨after.reverse, before.reverse, by simp [heq], fun e he => ?_⟩
    exact bne_iff_ne.mpr (Ne.symm (hafter e (List.mem_reverse.mp he)))

theorem argument?_eq_none_iff {params args : List Bytes}
    (hlength : args.length = params.length) {n : Name} :
    argument? params args n = none ↔ n ∉ params := by
  have hparams : params = (params.zip args).map Prod.fst :=
    (List.map_fst_zip (Nat.le_of_eq hlength.symm)).symm
  rw [argument?, List.lookup_eq_none_iff]
  constructor
  · intro h hn
    rw [hparams] at hn
    obtain ⟨e, he, rfl⟩ := List.mem_map.mp hn
    exact bne_iff_ne.mp (h e (List.mem_reverse.mpr he)) rfl
  · intro h e he
    refine bne_iff_ne.mpr ?_
    rintro rfl
    exact h (List.of_mem_zip (List.mem_reverse.mp he)).1

variable {arg? : Name → Option Bytes} {b : UInt8} {s rest out : Bytes}

theorem digit_cases :
    ∀ b, isDecimal b = true → isQuote b = false ∧ startsName b = false := by
  decide +kernel

theorem inName_of_takeWhile (s : Bytes) :
    ∀ c ∈ s.takeWhile inName, inName c = true :=
  fun _ hc => List.mem_takeWhile_imp hc

theorem not_inName_of_dropWhile (s : Bytes) :
    ∀ c ∈ (s.dropWhile inName).head?, inName c = false := by
  intro c hc
  have hnot := List.head?_dropWhile_not inName s
  rwa [Option.mem_def.mp hc] at hnot

/-- The digits of a number are copied one by one, and where a letter follows
them a name begins. -/
theorem substitutes_number {run : Bytes} (hrun : ∀ c ∈ run, inName c = true)
    (hrest : ∀ c ∈ rest.head?, inName c = false)
    (h : Substitutes arg? rest out) :
    Substitutes arg? (run ++ rest)
      ((Fragment.number run).fillIn arg? ++ out) := by
  induction run with
  | nil => exact h
  | cons c run ih =>
    rw [List.forall_mem_cons] at hrun
    cases hdigit : isDecimal c with
    | true =>
      have hfill : (Fragment.number (c :: run)).fillIn arg? =
          c :: (Fragment.number run).fillIn arg? := by
        simp [Fragment.fillIn, hdigit]
      obtain ⟨hquote, hstart⟩ := digit_cases c hdigit
      have hcopied :=
        @Substitutes.copied arg? c (run ++ rest)
          ((Fragment.number run).fillIn arg? ++ out) hstart
      rw [firstPart, hquote, hstart] at hcopied
      rw [hfill]
      exact hcopied (ih hrun.2)
    | false =>
      have hstart : startsName c = true := by
        have hin := hrun.1
        rwa [inName, hdigit, Bool.or_false] at hin
      have hfill : (Fragment.number (c :: run)).fillIn arg? =
          (arg? (c :: run)).getD (c :: run) := by
        simp [Fragment.fillIn, hdigit]
      have hname := @Substitutes.name arg? c (run ++ rest) out hstart
      rw [firstPart_of_run (isQuote_of_startsName hstart) hstart hrun.2 hrest]
        at hname
      rw [hfill]
      exact hname h

theorem substitutes_fragments (s : Bytes) :
    Substitutes arg? s ((fragments s).flatMap (Fragment.fillIn arg?)) := by
  induction s using fragment_induction with
  | nil => exact .nil
  | cons b s ih =>
    rw [fragments_cons, List.flatMap_cons]
    cases hdigit : isDecimal b with
    | true =>
      obtain ⟨hquote, hstart⟩ := digit_cases b hdigit
      have hname : inName b = true := Bool.or_eq_true_iff.mpr (Or.inr hdigit)
      have hrun : ∀ c ∈ b :: s.takeWhile inName, inName c = true :=
        List.forall_mem_cons.mpr ⟨hname, inName_of_takeWhile s⟩
      rw [firstPart, hquote, hname] at ih ⊢
      rw [Fragment.ofText, hquote, hstart, hdigit]
      have hnumber := substitutes_number hrun (not_inName_of_dropWhile s) ih
      rwa [List.cons_append, List.takeWhile_append_dropWhile] at hnumber
    | false =>
      -- Without digits what begins a name is what stands in one, and both take
      -- the same part of the text.
      have hfirst : firstPart inName b s = firstPart startsName b s := by
        rw [firstPart, firstPart, inName, hdigit, Bool.or_false]
      rw [hfirst] at ih ⊢
      cases hstart : startsName b with
      | true =>
        rw [ofText_of_startsName hstart]
        exact .name hstart ih
      | false =>
        have hfill :
            (Fragment.ofText b (firstPart startsName b s).1).fillIn arg? =
            (firstPart startsName b s).1 := by
          rw [Fragment.ofText, hstart, hdigit]
          cases hquote : isQuote b with
          | true => rfl
          | false =>
            rw [firstPart, hquote, hstart]
            rfl
        rw [hfill]
        exact .copied hstart ih

/-- A body is filled in fragment by fragment. -/
theorem instantiate_eq_flatMap (body : Bytes) (params args : List Bytes) :
    instantiate body params args =
      (fragments body).flatMap (Fragment.fillIn (argument? params args)) :=
  (substitutes_substitute (Nat.le_refl _)).eq (substitutes_fragments body)

namespace Fragment

/-- Only what follows the digits of a number is looked up that is no name. -/
theorem fillIn_cases (arg? : Name → Option Bytes) (f : Fragment) :
    f.suffix = [] ∧ f.fillIn arg? = f.fillName arg? ∨
      f.suffix ≠ [] ∧ ∃ digits, f.fillName arg? = digits ++ f.suffix ∧
        f.fillIn arg? = digits ++ (arg? f.suffix).getD f.suffix := by
  cases f with
  | number s =>
    have hsplit : s.takeWhile isDecimal ++ s.dropWhile isDecimal = s :=
      List.takeWhile_append_dropWhile
    have hfill : (number s).fillIn arg? = s.takeWhile isDecimal ++
        if (s.dropWhile isDecimal).isEmpty then []
        else (arg? (s.dropWhile isDecimal)).getD (s.dropWhile isDecimal) := rfl
    by_cases hdrop : s.dropWhile isDecimal = []
    · refine Or.inl ⟨hdrop, ?_⟩
      rw [hdrop] at hsplit
      rw [hfill, hdrop, List.isEmpty_nil, if_pos rfl]
      exact hsplit
    · refine Or.inr ⟨hdrop, s.takeWhile isDecimal, hsplit.symm, ?_⟩
      rw [hfill, List.isEmpty_eq_false_iff.mpr hdrop, if_neg Bool.false_ne_true]
      rfl
  | _ => exact Or.inl ⟨rfl, rfl⟩

theorem fillIn_eq_fillName {f : Fragment}
    (h : f.suffix ≠ [] → arg? f.suffix = none) :
    f.fillIn arg? = f.fillName arg? := by
  rcases f.fillIn_cases arg? with ⟨-, heq⟩ | ⟨hne, digits, hname, hin⟩
  · exact heq
  · rw [hin, hname, h hne, Option.getD_none]

end Fragment

/-- If all arguments are empty, a body with a parameter for what follows the
digits of a number loses it. -/
theorem flatMap_fillIn_ne {fs : List Fragment}
    (harg : ∀ n, ∀ a ∈ arg? n, a = []) {f : Fragment} (hf : f ∈ fs)
    (hsuffix : f.suffix ≠ []) (hsome : arg? f.suffix ≠ none) :
    fs.flatMap (Fragment.fillIn arg?) ≠
      fs.flatMap (Fragment.fillName arg?) := by
  have hempty {n : Name} (hn : arg? n ≠ none) : (arg? n).getD n = [] := by
    obtain ⟨a, ha⟩ := Option.ne_none_iff_exists'.mp hn
    rw [ha, harg n a ha, Option.getD_some]
  refine flatMap_ne (fun g hg => ?_) hf ?_
  · rcases g.fillIn_cases arg? with ⟨-, heq⟩ | ⟨-, digits, hname, hin⟩
    · rw [heq]
    · rw [hname, hin, List.length_append, List.length_append]
      by_cases hnone : arg? g.suffix = none
      · rw [hnone, Option.getD_none]
      · rw [hempty hnone]
        exact Nat.add_le_add_left (Nat.zero_le _) _
  · rcases f.fillIn_cases arg? with ⟨hnil, -⟩ | ⟨-, digits, hname, hin⟩
    · exact absurd hnil hsuffix
    · rw [hname, hin, hempty hsome, List.append_nil, List.length_append]
      exact Nat.lt_add_of_pos_right (List.length_pos_of_ne_nil hsuffix)

/-- A body is taken apart as expansion takes it apart, and names that are
parameters are replaced, each by the argument of the last parameter with that
name, but so is what follows the digits of a number. All else but the names
stays for all arguments exactly if no number has a parameter behind its
digits. -/
theorem parameters_are_replaced (body : Bytes) (params : List Bytes) :
    (∀ t : Macros, (∀ e ∈ t, e.2.params = none) →
      t.expand body = (fragments body).flatMap (t.replaceName fun n inner =>
        (t.erase n).expand inner)) ∧
    (∀ args : List Bytes, args.length = params.length →
      (∀ n, argument? params args n = none ↔ n ∉ params) ∧
        (∀ n a, argument? params args n = some a ↔
          ∃ before after, params.zip args = before ++ (n, a) :: after ∧
            ∀ e ∈ after, e.1 ≠ n) ∧
        instantiate body params args =
          (fragments body).flatMap (Fragment.fillIn (argument? params args))) ∧
    ((∀ args : List Bytes, args.length = params.length →
      instantiate body params args =
        (fragments body).flatMap (Fragment.fillName (argument? params args))) ↔
      ∀ f ∈ fragments body, f.suffix ∈ params → f.suffix = []) := by
  refine ⟨fun t ht => Macros.expand_eq_flatMap ht body, fun args hlength =>
    ⟨fun n => argument?_eq_none_iff hlength, fun n a => argument?_eq_some_iff,
      instantiate_eq_flatMap body params args⟩, ?_⟩
  constructor
  · intro h f hf hmem
    by_contra hsuffix
    have hlength : (List.replicate params.length ([] : Bytes)).length =
        params.length := List.length_replicate
    have harg : ∀ n, ∀ a ∈ argument? params (List.replicate params.length []) n,
        a = [] := by
      intro n a ha
      obtain ⟨before, after, hzip, -⟩ := argument?_eq_some_iff.mp ha
      have hmem : (n, a) ∈ params.zip (List.replicate params.length []) := by
        simp [hzip]
      exact List.eq_of_mem_replicate (List.of_mem_zip hmem).2
    have hsome : argument? params (List.replicate params.length []) f.suffix ≠
        none := fun hnone => (argument?_eq_none_iff hlength).mp hnone hmem
    have hfill := h _ hlength
    rw [instantiate_eq_flatMap] at hfill
    exact flatMap_fillIn_ne harg hf hsuffix hsome hfill
  · intro h args hlength
    rw [instantiate_eq_flatMap]
    refine List.flatMap_congr fun f hf =>
      Fragment.fillIn_eq_fillName fun hne => ?_
    exact (argument?_eq_none_iff hlength).mpr fun hmem => hne (h f hf hmem)

/-- A parameter that is given twice, a literal with its name and numbers with it
behind other letters. -/
theorem parameters_are_replaced_twice :
    let body := text "a + \"a\" + 0xa + 12 + b"
    let params := [text "a", text "b", text "a"]
    let args := [text "1", text "2", text "3"]
    args.length = params.length ∧
      (∀ f ∈ fragments body, f.suffix ∈ params → f.suffix = []) ∧
      instantiate body params args =
      (fragments body).flatMap (Fragment.fillName (argument? params args)) ∧
      instantiate body params args = text "3 + \"a\" + 0xa + 12 + 2" := by
  intro body params args
  have hlength : args.length = params.length := by decide
  have hnumbers : ∀ f ∈ fragments body, f.suffix ∈ params → f.suffix = [] := by
    decide +kernel
  obtain ⟨-, -, hiff⟩ := parameters_are_replaced body params
  exact ⟨hlength, hnumbers, hiff.mpr hnumbers args hlength, by decide +kernel⟩

/-- A parameter with the name of what follows the first digit of a number is
replaced in the number. -/
theorem numbers_are_filled_in :
    let body := text "xFF & 0xFF"
    let params := [text "xFF"]
    let args := [text "v"]
    instantiate body params args = text "v & 0v" ∧
      (fragments body).flatMap (Fragment.fillName (argument? params args)) =
      text "v & 0xFF" := by
  decide +kernel

end Macro

end StackC
