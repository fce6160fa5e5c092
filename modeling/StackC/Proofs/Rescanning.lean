import StackC.Proofs.Expansion

/-!
Expansion ends, whatever the macros say about themselves and each other. The
rules below expand a text with no bound on the length of the text or on how deep
expansions nest, and leave alone the names that are being expanded. Each text
has exactly one expansion by these rules, the one that is computed. Names nest
in it only inside different names.
-/

namespace StackC

namespace Macro

/-- The part at the start of a text that is looked at as a whole, and the text
after it: a literal, or a run of bytes that can stand in a name if the first of
them `begins` one, or else a single byte. -/
def firstPart (begins : UInt8 → Bool) (b : UInt8) (s : Bytes) : Bytes × Bytes :=
  if isQuote b then (b :: (literalRest b s).1, (literalRest b s).2)
  else if begins b then (b :: s.takeWhile inName, s.dropWhile inName)
  else ([b], s)

variable {begins : UInt8 → Bool} {b : UInt8} {s : Bytes}

theorem startsName_of_isQuote (h : isQuote b = true) :
    startsName b = false := by
  rw [isQuote, Bool.or_eq_true, beq_iff_eq, beq_iff_eq] at h
  rcases h with rfl | rfl <;> decide

theorem isQuote_of_startsName (h : startsName b = true) :
    isQuote b = false := by
  by_contra hquote
  rw [startsName_of_isQuote (Bool.not_eq_false _ ▸ hquote)] at h
  cases h

/-- Each part leaves less to look at. -/
theorem length_firstPart (begins : UInt8 → Bool) (b : UInt8) (s : Bytes) :
    (firstPart begins b s).2.length ≤ s.length := by
  rw [firstPart]
  split
  · have happend := congrArg List.length (literalRest_append b s)
    rw [List.length_append] at happend
    exact happend ▸ Nat.le_add_left _ _
  split
  · exact (List.dropWhile_suffix inName).length_le
  · exact Nat.le_refl _

theorem firstPart_append (begins : UInt8 → Bool) (b : UInt8) (s : Bytes) :
    (firstPart begins b s).1 ++ (firstPart begins b s).2 = b :: s := by
  rw [firstPart]
  split
  · rw [List.cons_append, literalRest_append]
  split
  · rw [List.cons_append, List.takeWhile_append_dropWhile]
  · rfl

/-- A body with arguments in place of parameters. -/
inductive Substitutes (arg? : Name → Option Bytes) : Bytes → Bytes → Prop where
  | nil : Substitutes arg? [] []
  | copied {b : UInt8} {s out : Bytes} (hb : startsName b = false)
      (hrest : Substitutes arg? (firstPart startsName b s).2 out) :
      Substitutes arg? (b :: s) ((firstPart startsName b s).1 ++ out)
  | name {b : UInt8} {s out : Bytes} (hb : startsName b = true)
    (hrest : Substitutes arg? (firstPart startsName b s).2 out) :
    Substitutes arg? (b :: s)
      ((arg? (firstPart startsName b s).1).getD
        (firstPart startsName b s).1 ++ out)

variable {arg? : Name → Option Bytes}

theorem substitute_copied (fuel : Nat) (hb : startsName b = false) :
    substitute arg? (fuel + 1) (b :: s) = (firstPart startsName b s).1 ++
      substitute arg? fuel (firstPart startsName b s).2 := by
  rw [substitute, firstPart]
  split
  · rfl
  · rw [hb]
    rfl

theorem substitute_name (fuel : Nat) (hb : startsName b = true) :
    substitute arg? (fuel + 1) (b :: s) =
      (arg? (firstPart startsName b s).1).getD (firstPart startsName b s).1 ++
        substitute arg? fuel (firstPart startsName b s).2 := by
  rw [substitute, firstPart, isQuote_of_startsName hb, hb]
  rfl

theorem substitutes_substitute {fuel : Nat} (hfuel : s.length ≤ fuel) :
    Substitutes arg? s (substitute arg? fuel s) := by
  induction fuel generalizing s with
  | zero =>
    obtain rfl := List.eq_nil_of_length_eq_zero (Nat.le_zero.mp hfuel)
    exact .nil
  | succ fuel ih =>
    cases s with
    | nil => exact .nil
    | cons b s =>
      have hrest :=
        ih (Nat.le_trans (length_firstPart startsName b s)
          (Nat.le_of_succ_le_succ hfuel))
      cases hb : startsName b with
      | false =>
        rw [substitute_copied fuel hb]
        exact .copied hb hrest
      | true =>
        rw [substitute_name fuel hb]
        exact .name hb hrest

theorem Substitutes.eq {out out' : Bytes} (h : Substitutes arg? s out)
    (h' : Substitutes arg? s out') : out = out' := by
  induction h generalizing out' with
  | nil =>
    cases h'
    rfl
  | copied hb _ ih =>
    cases h' with
    | copied _ hrest => rw [ih hrest]
    | name hb' _ => exact absurd (hb.symm.trans hb') Bool.false_ne_true
  | name hb _ ih =>
    cases h' with
    | copied hb' _ => exact absurd (hb'.symm.trans hb) Bool.false_ne_true
    | name _ hrest => rw [ih hrest]

/-- A macro that `s` follows is replaced by a body, with the text after what is
replaced. -/
inductive Applies (m : Macro) (s : Bytes) : Bytes → Bytes → Prop where
  | bare (h : m.params = none) : Applies m s m.body s
  | call {params args : List Bytes} {body rest : Bytes}
    (h : m.params = some params) (hargs : arguments s = some (args, rest))
    (hlength : args.length = params.length)
    (hbody : Substitutes (argument? params args) m.body body) :
    Applies m s body rest

theorem applies_iff {m : Macro} {body rest : Bytes} :
    m.Applies s body rest ↔ m.apply s = some (body, rest) := by
  constructor
  · rintro (h | ⟨h, hargs, hlength, hbody⟩)
    · rw [apply, h]
    · rw [apply, h]
      simp only [hargs, hlength, if_true, instantiate]
      rw [hbody.eq (substitutes_substitute (Nat.le_refl _))]
  · intro h
    rw [apply] at h
    cases hparams : m.params with
    | none =>
      rw [hparams] at h
      cases h
      exact .bare hparams
    | some params =>
      rw [hparams] at h
      cases hargs : arguments s with
      | none =>
        simp only [hargs] at h
        cases h
      | some e =>
        simp only [hargs] at h
        obtain ⟨hlength, h⟩ := Option.ite_none_right_eq_some.mp h
        cases h
        exact .call hparams hargs hlength
          (substitutes_substitute (Nat.le_refl _))

end Macro

namespace Macros

open Macro (firstPart length_firstPart firstPart_append)

/-- The text begins with a name that has a macro, is not being expanded and is
followed by the arguments it needs, so that `body` takes its place before
`after`. -/
def Replaces (t : Macros) (active : List Name) (b : UInt8)
    (s body after : Bytes) : Prop :=
  Macro.startsName b = true ∧ (firstPart Macro.inName b s).1 ∉ active ∧
    ∃ m, t.get? (firstPart Macro.inName b s).1 = some m ∧
      m.Applies (firstPart Macro.inName b s).2 body after

/-- The expansion of a text while the names in `active` are being expanded. For
each name that is replaced `calls` has the names that it is replaced inside of,
from itself outwards. -/
inductive Expands (t : Macros) :
    (active : List Name) → Bytes → Bytes → (calls : List (List Name)) →
      Prop where
  | nil {active : List Name} : Expands t active [] [] []
  | copied {active : List Name} {b : UInt8} {s out : Bytes}
    {calls : List (List Name)}
    (hkept : ∀ body after, ¬ t.Replaces active b s body after)
    (hrest : Expands t active (firstPart Macro.inName b s).2 out calls) :
    Expands t active (b :: s) ((firstPart Macro.inName b s).1 ++ out) calls
  | replaced {active : List Name} {b : UInt8} {s body after inner out : Bytes}
    {calls calls' : List (List Name)}
    (hreplaces : t.Replaces active b s body after)
    (hbody : Expands t ((firstPart Macro.inName b s).1 :: active) body
      inner calls)
    (hafter : Expands t active after out calls') :
    Expands t active (b :: s) (inner ++ out)
      ([(firstPart Macro.inName b s).1] :: calls.map
        (· ++ [(firstPart Macro.inName b s).1]) ++ calls')

/-- How deep expansions nest: the outermost one, and one more for each name that
it is replaced inside of. -/
def depth (calls : List (List Name)) : Nat :=
  calls.foldr (fun call deepest => max (call.length + 1) deepest) 1

theorem depth_le {calls : List (List Name)} {n : Nat}
    (h : ∀ call ∈ calls, call.length ≤ n) : depth calls ≤ n + 1 := by
  induction calls with
  | nil => exact Nat.le_add_left 1 n
  | cons call calls ih =>
    obtain ⟨hcall, hcalls⟩ := List.forall_mem_cons.mp h
    exact Nat.max_le.mpr ⟨Nat.succ_le_succ hcall, ih hcalls⟩

def without (t : Macros) (names : List Name) : Macros :=
  t.filter fun e => !names.contains e.1

variable {t : Macros} {active : List Name} {b : UInt8} {s body after : Bytes}

theorem without_nil (t : Macros) : t.without [] = t := by
  simp [without]

theorem erase_without (t : Macros) (names : List Name) (name : Name) :
    (t.without names).erase name = t.without (name :: names) := by
  simp only [erase, without, List.filter_filter, List.contains_cons,
    Bool.not_or]
  rfl

theorem get?_cons (e : Name × Macro) (t : Macros) (name : Name) :
    get? (e :: t) name = if name = e.1 then some e.2 else t.get? name := by
  obtain ⟨k, m⟩ := e
  by_cases hname : name = k
  · simp [get?, hname]
  · simp [get?, List.lookup_cons, hname, beq_false_of_ne hname]

theorem get?_without (t : Macros) (names : List Name) (name : Name) :
    (t.without names).get? name = if name ∈ names then none
      else t.get? name := by
  induction t with
  | nil => simp [without, get?]
  | cons e t ih =>
    by_cases hmem : e.1 ∈ names
    · have hfilter : without (e :: t) names = without t names := by
        simp [without, hmem]
      rw [hfilter, ih, get?_cons]
      by_cases hname : name = e.1
      · simp [hname, hmem]
      · simp [hname]
    · have hfilter : without (e :: t) names = e :: without t names := by
        simp [without, hmem]
      rw [hfilter, get?_cons, get?_cons, ih]
      by_cases hname : name = e.1
      · simp [hname, hmem]
      · simp [hname]

theorem replaces_iff :
    t.Replaces active b s body after ↔
      Macro.startsName b = true ∧
        ((t.without active).get? (firstPart Macro.inName b s).1).bind
          (·.apply (firstPart Macro.inName b s).2) = some (body, after) := by
  rw [Replaces, get?_without]
  by_cases hmem : (firstPart Macro.inName b s).1 ∈ active
  · simp [hmem]
  · simp [hmem, Option.bind_eq_some_iff, Macro.applies_iff]

/-- At most one text takes the place of a name. -/
theorem Replaces.unique {body' after' : Bytes}
    (h : t.Replaces active b s body after)
    (h' : t.Replaces active b s body' after') :
    body = body' ∧ after = after' := by
  have heq := (replaces_iff.mp h).2.symm.trans (replaces_iff.mp h').2
  exact Prod.mk.inj (Option.some.inj heq)

/-- Expansion goes from left to right in one way. -/
theorem Expands.unique {out out' : Bytes} {calls calls' : List (List Name)}
    (h : t.Expands active s out calls) (h' : t.Expands active s out' calls') :
    out = out' ∧ calls = calls' := by
  induction h generalizing out' calls' with
  | nil =>
    cases h'
    exact ⟨rfl, rfl⟩
  | copied hkept _ ih =>
    cases h' with
    | copied _ hrest =>
      obtain ⟨rfl, rfl⟩ := ih hrest
      exact ⟨rfl, rfl⟩
    | replaced hreplaces _ _ => exact absurd hreplaces (hkept _ _)
  | replaced hreplaces _ _ ihBody ihAfter =>
    cases h' with
    | copied hkept _ => exact absurd hreplaces (hkept _ _)
    | replaced hreplaces' hbody hafter =>
      obtain ⟨rfl, rfl⟩ := hreplaces.unique hreplaces'
      obtain ⟨rfl, rfl⟩ := ihBody hbody
      obtain ⟨rfl, rfl⟩ := ihAfter hafter
      exact ⟨rfl, rfl⟩

/-- Names are replaced inside other names only, all of them defined, and none of
those that were being expanded. -/
theorem Expands.calls_nodup {out : Bytes} {calls : List (List Name)}
    (h : t.Expands active s out calls) :
    ∀ call ∈ calls, call.Nodup ∧
      ∀ name ∈ call, name ∉ active ∧ name ∈ t.map Prod.fst := by
  induction h with
  | nil => exact fun call hcall => absurd hcall List.not_mem_nil
  | copied _ _ ih => exact ih
  | @replaced active b s body after inner out calls calls' hreplaces _ _ ihBody
      ihAfter =>
    obtain ⟨-, hactive, m, hm, -⟩ := hreplaces
    have hdefined : (firstPart Macro.inName b s).1 ∈ t.map Prod.fst :=
      List.mem_map_of_mem (mem_of_lookup_eq_some hm)
    intro call hcall
    rw [List.cons_append, List.mem_cons, List.mem_append, List.mem_map] at hcall
    rcases hcall with rfl | ⟨inside, hinside, rfl⟩ | hcall
    · exact ⟨List.nodup_singleton _, fun name hname =>
        List.mem_singleton.mp hname ▸ ⟨hactive, hdefined⟩⟩
    · obtain ⟨hnodup, hnames⟩ := ihBody inside hinside
      refine ⟨List.nodup_append.mpr ⟨hnodup, List.nodup_singleton _,
        fun name hname other hother heq => ?_⟩, ?_⟩
      · -- the name itself is among those that are being expanded inside
        rw [List.mem_singleton.mp hother] at heq
        exact (hnames name hname).1 (heq ▸ List.mem_cons_self)
      · intro name hname
        rcases List.mem_append.mp hname with hname | hname
        · exact ⟨fun hmem =>
            (hnames name hname).1 (List.mem_cons_of_mem _ hmem),
            (hnames name hname).2⟩
        · exact List.mem_singleton.mp hname ▸ ⟨hactive, hdefined⟩
    · exact ihAfter call hcall

variable {inner : Name → Bytes → Bytes}

theorem expandWith_copied (fuel : Nat)
    (h : Macro.startsName b = true →
      (t.get? (firstPart Macro.inName b s).1).bind
      (·.apply (firstPart Macro.inName b s).2) = none) :
    t.expandWith inner (fuel + 1) (b :: s) = (firstPart Macro.inName b s).1 ++
      t.expandWith inner fuel (firstPart Macro.inName b s).2 := by
  rw [expandWith]
  cases hquote : Macro.isQuote b with
  | true => simp [firstPart, hquote]
  | false =>
    cases hstart : Macro.startsName b with
    | true =>
      simp only [firstPart, hquote, Macro.inName, hstart, Bool.true_or,
        Bool.false_eq_true, if_false, if_true, true_imp_iff] at h ⊢
      rw [h]
    | false =>
      cases hdigit : Macro.isDecimal b
        <;> simp [firstPart, hquote, Macro.inName, hstart, hdigit]

theorem expandWith_replaced (fuel : Nat) (hstart : Macro.startsName b = true)
    (h : (t.get? (firstPart Macro.inName b s).1).bind
      (·.apply (firstPart Macro.inName b s).2) = some (body, after)) :
    t.expandWith inner (fuel + 1) (b :: s) =
      inner (firstPart Macro.inName b s).1 body ++ t.expandWith inner
      fuel after := by
  have hquote := Macro.isQuote_of_startsName hstart
  simp only [firstPart, hquote, Macro.inName, hstart, Bool.true_or,
    Bool.false_eq_true, if_false, if_true] at h ⊢
  rw [expandWith]
  simp only [hquote, hstart, Bool.false_eq_true, if_false, if_true]
  rw [h]

/-- Scanning a text ends, if the bodies that are put into it can be expanded. -/
theorem expands_expandWith {fuel : Nat} (hfuel : s.length ≤ fuel)
    (hinner : ∀ b s body after, t.Replaces active b s body after →
      ∃ calls, t.Expands ((firstPart Macro.inName b s).1 :: active) body
      (inner (firstPart Macro.inName b s).1 body) calls) :
    ∃ calls,
      t.Expands active s
      ((t.without active).expandWith inner fuel s) calls := by
  induction fuel generalizing s with
  | zero =>
    obtain rfl := List.eq_nil_of_length_eq_zero (Nat.le_zero.mp hfuel)
    exact ⟨[], .nil⟩
  | succ fuel ih =>
    cases s with
    | nil => exact ⟨[], .nil⟩
    | cons b s =>
      have hlength := length_firstPart Macro.inName b s
      rw [List.length_cons] at hfuel
      by_cases hreplaced : ∃ body after, t.Replaces active b s body after
      · obtain ⟨body, after, hreplaces⟩ := hreplaced
        obtain ⟨hstart, happly⟩ := replaces_iff.mp hreplaces
        obtain ⟨calls, hbody⟩ := hinner b s body after hreplaces
        have hshorter : after.length ≤ fuel := by
          obtain ⟨m, -, happly⟩ := Option.bind_eq_some_iff.mp happly
          have := (Macro.apply_suffix happly).length_le
          omega
        obtain ⟨calls', hafter⟩ := ih hshorter
        rw [expandWith_replaced fuel hstart happly]
        exact ⟨_, .replaced hreplaces hbody hafter⟩
      · have hkept : ∀ body after, ¬ t.Replaces active b s body after :=
          fun body after h => hreplaced ⟨body, after, h⟩
        obtain ⟨calls, hrest⟩ :=
          ih (Nat.le_trans hlength (Nat.le_of_succ_le_succ hfuel))
        rw [expandWith_copied fuel fun hstart => ?_]
        · exact ⟨calls, .copied hkept hrest⟩
        · refine Option.eq_none_iff_forall_ne_some.mpr fun e he => ?_
          exact hkept e.1 e.2 (replaces_iff.mpr ⟨hstart, he⟩)

/-- Without macros a text stays as it is. -/
theorem expandWith_of_nil (inner : Name → Bytes → Bytes) (fuel : Nat)
    (s : Bytes) : expandWith [] inner fuel s = s := by
  induction fuel generalizing s with
  | zero => rfl
  | succ fuel ih =>
    cases s with
    | nil => rfl
    | cons b s =>
      rw [expandWith_copied fuel (fun _ => rfl), ih, firstPart_append]

theorem expands_self (h : t.without active = []) (s : Bytes) :
    ∃ calls, t.Expands active s s calls := by
  have hnone : ∀ b s body after, ¬ t.Replaces active b s body after := by
    intro b s body after hreplaces
    obtain ⟨-, happly⟩ := replaces_iff.mp hreplaces
    rw [h] at happly
    cases happly
  have hexpands :
      ∃ calls,
      t.Expands active s
      ((t.without active).expandWith (fun _ body => body) s.length s) calls :=
    expands_expandWith (Nat.le_refl _) fun b s body after hreplaces =>
      absurd hreplaces (hnone b s body after)
  rwa [h, expandWith_of_nil] at hexpands

/-- Expansion ends: with each name that is replaced there are fewer left to
replace inside of it. -/
theorem expands_expandTo {depth : Nat} (h : (t.without active).length ≤ depth)
    (s : Bytes) :
    ∃ calls,
      t.Expands active s (expandTo depth (t.without active) s) calls := by
  induction depth generalizing active s with
  | zero =>
    exact expands_self (List.eq_nil_of_length_eq_zero (Nat.le_zero.mp h)) s
  | succ depth ih =>
    refine expands_expandWith (Nat.le_refl _) fun b s body after hreplaces => ?_
    rw [erase_without]
    refine ih ?_ body
    obtain ⟨-, happly⟩ := replaces_iff.mp hreplaces
    obtain ⟨m, hm, -⟩ := Option.bind_eq_some_iff.mp happly
    have hfewer :
        ((t.without active).erase (firstPart Macro.inName b s).1).length <
        (t.without active).length :=
      List.length_filter_lt_length_iff_exists.mpr
        ⟨_, mem_of_lookup_eq_some hm, by simp⟩
    rw [erase_without] at hfewer
    omega

/-- Whatever macros mention themselves or each other, expansion ends, with one
outcome and one course. Expansions nest at most one deeper than there are names
with macros, and no name is replaced inside its own expansion. -/
theorem expansion_terminates (t : Macros) (s : Bytes) :
    ∃ calls, (∀ out calls', t.Expands [] s out calls' ↔
      out = t.expand s ∧ calls' = calls) ∧
    depth calls ≤ (t.map Prod.fst).dedup.length + 1 ∧
    ∀ call ∈ calls, call.Nodup := by
  have hlength : (t.without []).length ≤ t.length := by rw [without_nil]
  obtain ⟨calls, hexpands⟩ := expands_expandTo hlength s
  rw [without_nil] at hexpands
  have hcalls := hexpands.calls_nodup
  refine ⟨calls, fun out calls' => ⟨fun h => h.unique hexpands, ?_⟩,
    depth_le fun call hcall => ?_, fun call hcall => (hcalls call hcall).1⟩
  · rintro ⟨rfl, rfl⟩
    exact hexpands
  · obtain ⟨hnodup, hnames⟩ := hcalls call hcall
    exact (hnodup.subperm fun name hname =>
      List.mem_dedup.mpr (hnames name hname).2).length_le

/-- Two macros that mention each other and themselves. -/
example :
    expand [(text "A", { body := text "B A" }),
      (text "B", { params := some [text "x"], body := text "(x A B(2))" })]
      (text "A B(B(1))") = text "B A (B(1) B A B(2))" := by
  decide +kernel

end Macros

end StackC
