import StackC.Proofs.Fields
import StackC.Source.Expand

/-!
What expansion does to the end of a line. Expansion makes up no bytes of its
own: what comes out was in the text or in the body of a macro. And it works from
left to right, so the end of a line from two slashes on does not change what
comes before, unless arguments that are open there are closed behind.
-/

namespace StackC

namespace Macro

/-- A literal and what follows it are all of the text. -/
theorem literalRest_append (quote : UInt8) (s : Bytes) :
    (literalRest quote s).1 ++ (literalRest quote s).2 = s := by
  fun_induction literalRest quote s with
  | case1 => rfl
  | case2 => rfl
  | case3 b c s hescape lit rest hrest ih =>
    rw [hrest] at ih
    exact congrArg (b :: c :: ·) ih
  | case4 => rfl
  | case5 b c s hescape hquote lit rest hrest ih =>
    rw [hrest] at ih
    exact congrArg (b :: ·) ih

variable {s rest body : Bytes} {m : Macro}

/-- Arguments are parts of the text, what follows them is the end of it, and
they are found whatever follows. -/
theorem argumentsFrom_spec {first : Bool} {depth : Nat} {arg : Bytes}
    {args : List Bytes}
    (h : argumentsFrom first depth arg s = some (args, rest)) :
    rest <:+ s ∧ (∀ a ∈ args, ∀ b ∈ a, b ∈ arg ∨ b ∈ s) ∧
      ∀ t, argumentsFrom first depth arg (s ++ t) = some (args, rest ++ t) := by
  -- A byte that is moved from the text to the argument being read was in the
  -- text.
  have hgrow {b : UInt8} {arg s : Bytes} {args : List Bytes}
      (hargs : ∀ a ∈ args, ∀ c ∈ a, c ∈ b :: arg ∨ c ∈ s) : ∀ a ∈ args, ∀ c ∈ a,
      c ∈ arg ∨ c ∈ b :: s := by
    intro a ha c hc
    have := hargs a ha c hc
    rw [List.mem_cons] at this ⊢
    tauto
  fun_induction argumentsFrom first depth arg s generalizing args with
  | case1 => cases h
  | case2 first depth arg b s hopen ih =>
    obtain ⟨hsuffix, hargs, happend⟩ := ih h
    refine ⟨hsuffix.trans (List.suffix_cons b s), hgrow hargs, fun t => ?_⟩
    rw [List.cons_append, argumentsFrom.eq_def]
    simp only [if_pos hopen, happend]
  | case3 first arg b s hopen hclose =>
    cases h
    refine ⟨List.suffix_cons b rest, ?_, fun t => ?_⟩
    · intro a ha c hc
      split at ha
      · cases ha
      · rw [List.mem_singleton.mp ha] at hc
        exact Or.inl (List.mem_reverse.mp (Bytes.mem_of_mem_trim hc))
    · rw [List.cons_append, argumentsFrom, if_neg hopen, if_pos hclose]
  | case4 first arg b s hopen hclose depth ih =>
    obtain ⟨hsuffix, hargs, happend⟩ := ih h
    refine ⟨hsuffix.trans (List.suffix_cons b s), hgrow hargs, fun t => ?_⟩
    rw [List.cons_append, argumentsFrom, if_neg hopen, if_pos hclose, happend]
  | case5 => cases h
  | case6 first depth arg b s hopen hclose hcomma args' rest' hmore ih =>
    cases h
    obtain ⟨hsuffix, hargs, happend⟩ := ih hmore
    refine ⟨hsuffix.trans (List.suffix_cons b s), ?_, fun t => ?_⟩
    · intro a ha c hc
      rcases List.mem_cons.mp ha with rfl | ha
      · exact Or.inl (List.mem_reverse.mp (Bytes.mem_of_mem_trim hc))
      · rcases hargs a ha c hc with hc | hc
        · cases hc
        · exact Or.inr (List.mem_cons_of_mem b hc)
    · rw [List.cons_append, argumentsFrom.eq_def]
      simp only [if_neg hopen, if_neg hclose, if_pos hcomma, happend]
  | case7 first depth arg b s hopen hclose hcomma ih =>
    obtain ⟨hsuffix, hargs, happend⟩ := ih h
    refine ⟨hsuffix.trans (List.suffix_cons b s), hgrow hargs, fun t => ?_⟩
    rw [List.cons_append, argumentsFrom.eq_def]
    simp only [if_neg hopen, if_neg hclose, if_neg hcomma, happend]

theorem arguments_spec {args : List Bytes}
    (h : arguments s = some (args, rest)) :
    rest <:+ s ∧ (∀ a ∈ args, ∀ b ∈ a, b ∈ s) ∧
      ∀ t, arguments (s ++ t) = some (args, rest ++ t) := by
  rw [arguments] at h
  have hblanks :=
    List.takeWhile_append_dropWhile
      (p := fun b => b == byte ' ' || b == byte '\t') (l := s)
  cases hdrop : s.dropWhile fun b => b == byte ' ' || b == byte '\t' with
  | nil =>
    rw [hdrop] at h
    cases h
  | cons b after =>
    rw [hdrop] at h hblanks
    simp only at h
    obtain ⟨hopen, h⟩ := Option.ite_none_right_eq_some.mp h
    obtain ⟨hsuffix, hargs, happend⟩ := argumentsFrom_spec h
    have hs : after <:+ s := by
      rw [← hblanks]
      exact (List.suffix_cons b after).trans (List.suffix_append _ _)
    refine ⟨hsuffix.trans hs, fun a ha c hc => ?_, fun t => ?_⟩
    · rcases hargs a ha c hc with hc | hc
      · cases hc
      · exact hs.subset hc
    · rw [arguments, List.dropWhile_append, hdrop]
      simp only [List.isEmpty_cons, Bool.false_eq_true, if_false,
        List.cons_append, hopen, if_true]
      exact happend t

variable {P : UInt8 → Prop}

theorem all_literalRest (quote : UInt8) (h : ∀ b ∈ s, P b) :
    (∀ b ∈ (literalRest quote s).1, P b) ∧
      ∀ b ∈ (literalRest quote s).2, P b := by
  rw [← literalRest_append quote s, List.forall_mem_append] at h
  exact h

theorem all_run (p : UInt8 → Bool) (h : ∀ b ∈ s, P b) :
    (∀ b ∈ s.takeWhile p, P b) ∧ ∀ b ∈ s.dropWhile p, P b :=
  ⟨fun b hb => h b ((List.takeWhile_prefix p).subset hb),
    fun b hb => h b ((List.dropWhile_suffix p).subset hb)⟩

theorem all_substitute {arg? : Name → Option Bytes}
    (harg : ∀ name, ∀ a ∈ arg? name, ∀ b ∈ a, P b) (fuel : Nat)
    (h : ∀ b ∈ s, P b) : ∀ b ∈ substitute arg? fuel s, P b := by
  induction fuel generalizing s with
  | zero => exact h
  | succ fuel ih =>
    cases s with
    | nil => exact h
    | cons b s =>
      obtain ⟨hb, hs⟩ := List.forall_mem_cons.mp h
      rw [substitute]
      split
      · obtain ⟨hlit, hrest⟩ := all_literalRest b hs
        exact List.forall_mem_cons.mpr
          ⟨hb, List.forall_mem_append.mpr ⟨hlit, ih hrest⟩⟩
      split
      · obtain ⟨htake, hdrop⟩ := all_run inName hs
        refine List.forall_mem_append.mpr ⟨?_, ih hdrop⟩
        cases ha : arg? (b :: s.takeWhile inName) with
        | none => exact List.forall_mem_cons.mpr ⟨hb, htake⟩
        | some a => exact harg _ a ha
      · exact List.forall_mem_cons.mpr ⟨hb, ih hs⟩

/-- A macro without parameters takes its name only, one with parameters the
arguments behind it too. -/
theorem apply_cases (h : m.apply s = some (body, rest)) :
    body = m.body ∧ rest = s ∨
      ∃ params args, arguments s = some (args, rest) ∧
        body = instantiate m.body params args := by
  rw [apply] at h
  cases hparams : m.params with
  | none =>
    rw [hparams] at h
    cases h
    exact Or.inl ⟨rfl, rfl⟩
  | some params =>
    rw [hparams] at h
    cases hargs : arguments s with
    | none =>
      simp only [hargs] at h
      cases h
    | some e =>
      simp only [hargs] at h
      obtain ⟨-, h⟩ := Option.ite_none_right_eq_some.mp h
      cases h
      exact Or.inr ⟨params, e.1, rfl, rfl⟩

theorem all_apply (hbody : ∀ b ∈ m.body, P b) (hs : ∀ b ∈ s, P b)
    (h : m.apply s = some (body, rest)) :
    (∀ b ∈ body, P b) ∧ ∀ b ∈ rest, P b := by
  rcases apply_cases h with ⟨rfl, rfl⟩ | ⟨params, args, hargs, rfl⟩
  · exact ⟨hbody, hs⟩
  · obtain ⟨hsuffix, hparts, -⟩ := arguments_spec hargs
    refine ⟨all_substitute (fun name a ha b hb => ?_) _ hbody,
      fun b hb => hs b (hsuffix.subset hb)⟩
    have hmem := List.mem_reverse.mp (mem_of_lookup_eq_some ha)
    exact hs b (hparts a (List.of_mem_zip hmem).2 b hb)

theorem apply_suffix (h : m.apply s = some (body, rest)) : rest <:+ s := by
  rcases apply_cases h with ⟨-, rfl⟩ | ⟨params, args, hargs, -⟩
  · exact List.suffix_refl rest
  · exact (arguments_spec hargs).1

end Macro

namespace Macros

variable {P : UInt8 → Prop}

variable {t : Macros} {s : Bytes}

theorem all_expandWith {inner : Name → Bytes → Bytes}
    (ht : ∀ e ∈ t, ∀ b ∈ e.2.body, P b)
    (hinner : ∀ name body, (∀ b ∈ body, P b) → ∀ b ∈ inner name body, P b)
    (fuel : Nat) (h : ∀ b ∈ s, P b) : ∀ b ∈ t.expandWith inner fuel s, P b := by
  induction fuel generalizing s with
  | zero => exact h
  | succ fuel ih =>
    cases s with
    | nil => exact h
    | cons b s =>
      obtain ⟨hb, hs⟩ := List.forall_mem_cons.mp h
      obtain ⟨htake, hdrop⟩ := Macro.all_run Macro.inName hs
      rw [expandWith]
      split
      · obtain ⟨hlit, hrest⟩ := Macro.all_literalRest b hs
        exact List.forall_mem_cons.mpr
          ⟨hb, List.forall_mem_append.mpr ⟨hlit, ih hrest⟩⟩
      split
      · dsimp only
        split
        next =>
          exact List.forall_mem_cons.mpr
            ⟨hb, List.forall_mem_append.mpr ⟨htake, ih hdrop⟩⟩
        next body rest happly =>
          obtain ⟨m, hm, happly⟩ := Option.bind_eq_some_iff.mp happly
          obtain ⟨hbody, hrest⟩ :=
            Macro.all_apply (ht _ (mem_of_lookup_eq_some hm)) hdrop happly
          exact List.forall_mem_append.mpr ⟨hinner _ body hbody, ih hrest⟩
      split
      · exact List.forall_mem_cons.mpr
          ⟨hb, List.forall_mem_append.mpr ⟨htake, ih hdrop⟩⟩
      · exact List.forall_mem_cons.mpr ⟨hb, ih hs⟩

theorem all_expandTo (depth : Nat) (ht : ∀ e ∈ t, ∀ b ∈ e.2.body, P b)
    (h : ∀ b ∈ s, P b) : ∀ b ∈ expandTo depth t s, P b := by
  induction depth generalizing t s with
  | zero => exact h
  | succ depth ih =>
    refine all_expandWith ht
      (fun name body hbody => ih (fun e he => ht e ?_) hbody) s.length h
    exact List.mem_of_mem_filter he

/-- Expansion makes up no bytes. -/
theorem all_expand (ht : ∀ e ∈ t, ∀ b ∈ e.2.body, P b) (h : ∀ b ∈ s, P b) :
    ∀ b ∈ t.expand s, P b :=
  all_expandTo t.length ht h

end Macros

namespace Macro

theorem not_inName_slash : inName (byte '/') = false := by decide

theorem takeWhile_slashes (s c : Bytes) :
    (s ++ byte '/' :: c).takeWhile inName = s.takeWhile inName ∧
      (s ++ byte '/' :: c).dropWhile inName = s.dropWhile inName ++
        byte '/' :: c := by
  induction s with
  | nil => simp [not_inName_slash]
  | cons b s ih =>
    cases hb : inName b with
    | false => simp [hb]
    | true => simp [hb, ih]

theorem literalRest_cons {quote b : UInt8} (hescape : (b == byte '\\') = false)
    (hquote : (b == quote) = false) (s : Bytes) :
    literalRest quote (b :: s) =
      (b :: (literalRest quote s).1, (literalRest quote s).2) := by
  cases s with
  | nil => rfl
  | cons c s =>
    simp only [literalRest, hescape, hquote, Bool.false_eq_true, if_false]

/-- A literal is closed before the slashes, or it goes on behind them. -/
theorem literalRest_slashes {quote : UInt8}
    (hquote : (byte '/' == quote) = false) (s c : Bytes) :
    literalRest quote (s ++ byte '/' :: byte '/' :: c) =
      ((literalRest quote s).1,
        (literalRest quote s).2 ++ byte '/' :: byte '/' :: c) ∨
    literalRest quote s = (s, []) ∧
      ∃ u v, literalRest quote (s ++ byte '/' :: byte '/' :: c) =
        (s ++ byte '/' :: byte '/' :: u, v) := by
  have hslash (c : Bytes) :
      literalRest quote (byte '/' :: c) = (byte '/' :: (literalRest quote c).1,
      (literalRest quote c).2) := literalRest_cons (by decide) hquote c
  fun_induction literalRest quote s with
  | case1 =>
    refine Or.inr ⟨rfl, (literalRest quote c).1, (literalRest quote c).2, ?_⟩
    rw [List.nil_append, hslash, hslash]
    rfl
  | case2 b =>
    -- The last byte before the slashes: a backslash takes the first slash
    -- along, a quote closes the literal.
    cases hescape : b == byte '\\' with
    | true =>
      refine Or.inr ⟨rfl, (literalRest quote c).1, (literalRest quote c).2, ?_⟩
      simp only [List.cons_append, List.nil_append, literalRest, hescape,
        if_true, hslash]
    | false =>
      cases hclose : b == quote with
      | true =>
        left
        simp only [List.cons_append, List.nil_append, literalRest, hescape,
          hclose, Bool.false_eq_true, if_false, if_true]
      | false =>
        refine Or.inr ⟨rfl, (literalRest quote c).1,
          (literalRest quote c).2, ?_⟩
        rw [List.cons_append, literalRest_cons hescape hclose, List.nil_append,
          hslash, hslash]
        rfl
  | case3 b b' s hescape lit rest hrest ih =>
    have hstep (t : Bytes) : literalRest quote (b :: b' :: t) =
        (b :: b' :: (literalRest quote t).1, (literalRest quote t).2) := by
      simp only [literalRest, hescape, if_true]
    rw [hrest] at ih
    rcases ih with ih | ⟨hopen, u, v, ih⟩
    · left
      simp only [List.cons_append, hstep, ih]
    · obtain ⟨rfl, rfl⟩ := Prod.mk.injEq .. ▸ hopen
      exact Or.inr ⟨rfl, u, v, by simp only [List.cons_append, hstep, ih]⟩
  | case4 b b' s hescape hclose =>
    left
    simp only [List.cons_append, literalRest, hescape, hclose,
      Bool.false_eq_true, if_false, if_true]
  | case5 b b' s hescape hclose lit rest hrest ih =>
    have hstep (t : Bytes) :
        literalRest quote (b :: t) =
        (b :: (literalRest quote t).1, (literalRest quote t).2) :=
      literalRest_cons (Bool.not_eq_true _ ▸ hescape)
        (Bool.not_eq_true _ ▸ hclose) t
    rw [hrest] at ih
    rcases ih with ih | ⟨hopen, u, v, ih⟩
    · left
      rw [List.cons_append, hstep, ih]
    · obtain ⟨rfl, rfl⟩ := Prod.mk.injEq .. ▸ hopen
      refine Or.inr ⟨rfl, u, v, ?_⟩
      rw [List.cons_append, hstep, ih]
      rfl

/-- Unless `t` closes arguments that are open at the end of `s`, a macro takes
the same text whether `t` follows or not. -/
theorem apply_append {m : Macro} {s t : Bytes}
    (h : m.params.isSome → arguments s = none → arguments (s ++ t) = none) :
    m.apply (s ++ t) = (m.apply s).map fun e => (e.1, e.2 ++ t) := by
  rw [apply, apply]
  cases hparams : m.params with
  | none => rfl
  | some params =>
    cases hargs : arguments s with
    | none =>
      rw [h (by rw [hparams]; rfl) hargs]
      rfl
    | some e =>
      rw [(arguments_spec hargs).2.2 t]
      dsimp only
      split <;> rfl

end Macro

namespace Macros

/-- Whether the end of a line closes arguments of a macro that are still open
before it. -/
def ClosesCall (t : Macros) (line rest : Bytes) : Prop :=
  ∃ e ∈ t, e.2.params.isSome ∧
    ∃ after ∈ line.tails, e.1 ++ after <:+ line ∧ Macro.arguments after = none ∧
      (Macro.arguments (after ++ rest)).isSome

instance (t : Macros) (line rest : Bytes) :
    Decidable (t.ClosesCall line rest) :=
  inferInstanceAs (Decidable (∃ _ ∈ _, _ ∧ ∃ _ ∈ _, _))

variable {t : Macros} {s : Bytes}

theorem ClosesCall.of_suffix {line rest : Bytes} (hs : s <:+ line)
    (h : t.ClosesCall s rest) : t.ClosesCall line rest := by
  obtain ⟨e, he, hparams, after, hafter, hcall, hargs⟩ := h
  exact ⟨e, he, hparams, after,
    (List.mem_tails _ _).mpr (((List.mem_tails _ _).mp hafter).trans hs),
    hcall.trans hs, hargs⟩

theorem apply_slashes {name : Name} {after rest : Bytes}
    (h : ¬ t.ClosesCall (name ++ after) rest) :
    (t.get? name).bind (·.apply (after ++ rest)) =
      ((t.get? name).bind (·.apply after)).map fun e => (e.1, e.2 ++ rest) := by
  cases hm : t.get? name with
  | none => rfl
  | some m =>
    refine Macro.apply_append fun hparams hargs => ?_
    by_contra hclosed
    exact h ⟨(name, m), mem_of_lookup_eq_some hm, hparams, after,
      (List.mem_tails _ _).mpr (List.suffix_append name after),
      List.suffix_refl _, hargs, Option.isSome_iff_ne_none.mpr hclosed⟩

theorem expandWith_nil (t : Macros) (inner : Name → Bytes → Bytes)
    (fuel : Nat) : t.expandWith inner fuel [] = [] := by
  cases fuel <;> rfl

theorem expandWith_slash (t : Macros) (inner : Name → Bytes → Bytes)
    (fuel : Nat) (s : Bytes) :
    t.expandWith inner (fuel + 1) (byte '/' :: s) =
      byte '/' :: t.expandWith inner fuel s := by
  have hquote : Macro.isQuote (byte '/') = false := by decide
  have hstart : Macro.startsName (byte '/') = false := by decide
  have hdigit : Macro.isDecimal (byte '/') = false := by decide
  simp only [expandWith, hquote, hstart, hdigit, Bool.false_eq_true, if_false]

/-- Unless it closes arguments, the end of a line from two slashes on does not
change how what comes before is expanded. -/
theorem expandWith_slashes (inner : Name → Bytes → Bytes) {c : Bytes}
    {fuel fuel' : Nat} (hcalls : ¬ t.ClosesCall s (byte '/' :: byte '/' :: c))
    (hfuel : s.length ≤ fuel) (hfuel' : s.length + 2 ≤ fuel') :
    ∃ x, t.expandWith inner fuel' (s ++ byte '/' :: byte '/' :: c) =
      t.expandWith inner fuel s ++ byte '/' :: byte '/' :: x := by
  have hnil {fuel fuel' : Nat} (h : 2 ≤ fuel') :
      ∃ x, t.expandWith inner fuel' (byte '/' :: byte '/' :: c) =
      t.expandWith inner fuel [] ++ byte '/' :: byte '/' :: x := by
    obtain ⟨fuel', rfl⟩ := Nat.exists_eq_add_of_le' h
    refine ⟨t.expandWith inner fuel' c, ?_⟩
    rw [expandWith_slash, expandWith_slash, expandWith_nil, List.nil_append]
  induction fuel generalizing fuel' s with
  | zero =>
    obtain rfl := List.eq_nil_of_length_eq_zero (Nat.le_zero.mp hfuel)
    exact hnil hfuel'
  | succ fuel ih =>
    cases s with
    | nil => exact hnil hfuel'
    | cons b s =>
      rw [List.length_cons] at hfuel hfuel'
      obtain ⟨fuel', rfl⟩ : ∃ k, fuel' = k + 1 := ⟨fuel' - 1, by omega⟩
      -- The induction hypothesis at what follows the part that is looked at.
      have hrest {r : Bytes} (hr : r <:+ s) :
          ∃ x, t.expandWith inner fuel' (r ++ byte '/' :: byte '/' :: c) =
          t.expandWith inner fuel r ++ byte '/' :: byte '/' :: x := by
        have hlen := hr.length_le
        exact ih
          (fun hclose =>
            hcalls (hclose.of_suffix (hr.trans (List.suffix_cons b s))))
            (by omega) (by omega)
      obtain ⟨htake, hdrop⟩ := Macro.takeWhile_slashes s (byte '/' :: c)
      have hsuffix : s.dropWhile Macro.inName <:+ s := List.dropWhile_suffix _
      rw [List.cons_append, expandWith, expandWith]
      split
      next hquote =>
        have hslash : (byte '/' == b) = false := by
          rw [Macro.isQuote, Bool.or_eq_true, beq_iff_eq, beq_iff_eq] at hquote
          rcases hquote with rfl | rfl <;> decide
        rcases Macro.literalRest_slashes hslash s c with
            hlit | ⟨hopen, u, v, hlit⟩
        · obtain ⟨x, hx⟩ :=
            hrest (⟨_, Macro.literalRest_append b s⟩ : (Macro.literalRest b s).2
              <:+ s)
          exact ⟨x, by simp only [hlit, hx, List.cons_append,
            List.append_assoc]⟩
        · -- The literal goes on behind the slashes, so all of it is copied.
          exact ⟨u ++ t.expandWith inner fuel' v, by
            simp only [hlit, hopen, expandWith_nil, List.append_nil,
              List.cons_append, List.append_assoc]⟩
      split
      next =>
        have hcall :
            ¬ t.ClosesCall
            ((b :: s.takeWhile Macro.inName) ++ s.dropWhile Macro.inName)
            (byte '/' :: byte '/' :: c) := by
          rw [List.cons_append, List.takeWhile_append_dropWhile]
          exact hcalls
        simp only [htake, hdrop, apply_slashes hcall]
        cases happly :
          (t.get? (b :: s.takeWhile Macro.inName)).bind
          (·.apply (s.dropWhile Macro.inName)) with
        | none =>
          obtain ⟨x, hx⟩ := hrest hsuffix
          exact ⟨x, by simp only [Option.map_none, hx, List.append_assoc]⟩
        | some e =>
          obtain ⟨m, -, hm⟩ := Option.bind_eq_some_iff.mp happly
          obtain ⟨x, hx⟩ := hrest ((Macro.apply_suffix hm).trans hsuffix)
          exact ⟨x, by simp only [Option.map_some, hx, List.append_assoc]⟩
      split
      next =>
        obtain ⟨x, hx⟩ := hrest hsuffix
        exact ⟨x, by rw [htake, hdrop, hx, List.cons_append, List.append_assoc]⟩
      next =>
        obtain ⟨x, hx⟩ := hrest (List.suffix_refl s)
        exact ⟨x, by rw [hx, List.cons_append]⟩

theorem expand_slashes {c : Bytes}
    (hcalls : ¬ t.ClosesCall s (byte '/' :: byte '/' :: c)) :
    ∃ x, t.expand (s ++ byte '/' :: byte '/' :: c) = t.expand s ++ byte '/' ::
      byte '/' :: x := by
  rw [expand, expand]
  cases t.length with
  | zero => exact ⟨c, rfl⟩
  | succ depth =>
    refine expandWith_slashes _ hcalls (Nat.le_refl _) ?_
    rw [List.length_append, List.length_cons, List.length_cons]
    omega

end Macros

end StackC
