import StackC.Proofs.Parameters

/-!
The parameters of a macro are bound names. Other names may be given to them, in
the parameter list and in the body, and the macro stays what it is: a body is
filled in at once, and what is put in for one parameter is not looked at again
for another. Only a word of the body that is no parameter must not become one.
-/

namespace StackC

namespace Macro

def isName (s : Bytes) : Bool :=
  s.head?.any startsName && s.all inName

namespace Fragment

/-- The word of a fragment that is looked up when a body is filled in: a name,
or what follows the digits of a number. -/
def word? : Fragment → Option Name
  | name n => some n
  | number s =>
    if (s.dropWhile isDecimal).isEmpty then none
    else some (s.dropWhile isDecimal)
  | _ => none

/-- What comes before the word of a fragment. -/
def lead : Fragment → Bytes
  | name _ => []
  | number s => s.takeWhile isDecimal
  | f => f.bytes

/-- A fragment with another word in place of its own. -/
def mapWord (r : Name → Name) : Fragment → Fragment
  | name n => name (r n)
  | number s => number ((number s).lead ++ (number s).word?.elim [] r)
  | f => f

end Fragment

def words (body : Bytes) : List Name :=
  (fragments body).filterMap Fragment.word?

def mapWords (r : Name → Name) (body : Bytes) : Bytes :=
  (fragments body).flatMap fun f => (f.mapWord r).bytes

/-- The new name of a parameter; all else keeps its name. -/
def newName (params : List Name) (ρ : Name → Name) (w : Name) : Name :=
  if w ∈ params then ρ w else w

/-- The macro with these parameters and this body, under new names for its
parameters. -/
def renamed (params : List Name) (body : Bytes) (ρ : Name → Name) : Macro where
  params := some (params.map ρ)
  body := mapWords (newName params ρ) body

/-- Parameters get names again, and different ones if they differ. -/
structure IsRenaming (params : List Name) (ρ : Name → Name) : Prop where
  injective : ∀ p ∈ params, ∀ q ∈ params, ρ p = ρ q → p = q
  isName : ∀ p ∈ params, isName (ρ p) = true

instance (params : List Name) (ρ : Name → Name) :
    Decidable (IsRenaming params ρ) :=
  decidable_of_iff ((∀ p ∈ params, ∀ q ∈ params, ρ p = ρ q → p = q) ∧
    ∀ p ∈ params, isName (ρ p) = true) ⟨fun ⟨hinjective, hname⟩ =>
    ⟨hinjective, hname⟩, fun h => ⟨h.injective, h.isName⟩⟩

variable {b : UInt8} {s t : Bytes} {r : Name → Name}

theorem isName_iff {n : Bytes} :
    isName n = true ↔
      ∃ b run, n = b :: run ∧ startsName b = true ∧
        ∀ c ∈ run, inName c = true := by
  cases n with
  | nil => simp [isName]
  | cons b run =>
    have hin : startsName b = true → inName b = true :=
      fun h => Bool.or_eq_true_iff.mpr (Or.inl h)
    simp only [isName, List.head?_cons, Option.any_some, List.all_cons,
      Bool.and_eq_true, List.all_eq_true]
    constructor
    · rintro ⟨hstart, -, hrun⟩
      exact ⟨b, run, rfl, hstart, hrun⟩
    · rintro ⟨_, _, heq, hstart, hrun⟩
      cases heq
      exact ⟨hstart, hin hstart, hrun⟩

theorem inName_of_isName {n : Bytes} (h : isName n = true) :
    ∀ c ∈ n, inName c = true :=
  List.all_eq_true.mp (Bool.and_eq_true_iff.mp h).2

theorem isDecimal_of_startsName (h : startsName b = true) :
    isDecimal b = false := by
  by_contra hdigit
  rw [Bool.not_eq_false] at hdigit
  exact absurd (h.symm.trans (digit_cases b hdigit).2) (by decide)

namespace Fragment

theorem word?_number (s : Bytes) :
    (s.dropWhile isDecimal = [] ∧ (number s).word? = none) ∨
      (s.dropWhile isDecimal ≠ [] ∧
        (number s).word? = some (s.dropWhile isDecimal)) := by
  rw [word?]
  cases s.dropWhile isDecimal with
  | nil => exact Or.inl ⟨rfl, rfl⟩
  | cons c w => exact Or.inr ⟨List.cons_ne_nil c w, rfl⟩

/-- What is put into a fragment takes the place of its word. -/
theorem fillIn_eq_lead (arg? : Name → Option Bytes) (f : Fragment) :
    f.fillIn arg? = f.lead ++ f.word?.elim [] fun w => (arg? w).getD w := by
  cases f with
  | number s =>
    rw [fillIn, lead]
    rcases word?_number s with ⟨hnil, hword⟩ | ⟨hne, hword⟩
    · rw [hword, hnil]
      rfl
    · rw [hword, List.isEmpty_eq_false_iff.mpr hne]
      rfl
  | _ => simp [fillIn, lead, word?]

/-- A name in place of the word of a fragment becomes its word. -/
theorem mapWord_spec {f : Fragment} (h : ∀ w ∈ f.word?, isName (r w) = true) :
    (f.mapWord r).lead = f.lead ∧ (f.mapWord r).word? = f.word?.map r := by
  cases f with
  | number s =>
    have hdigits : ∀ c ∈ s.takeWhile isDecimal, isDecimal c = true :=
      fun c hc => List.mem_takeWhile_imp hc
    rw [mapWord]
    rcases word?_number s with ⟨-, hword⟩ | ⟨-, hword⟩
    · rw [hword, Option.elim_none, List.append_nil, lead, lead, word?,
        List.takeWhile_eq_self_iff.mpr hdigits,
        List.dropWhile_eq_nil_iff.mpr hdigits]
      exact ⟨rfl, rfl⟩
    · obtain ⟨c, run, hrun, hstart, -⟩ := isName_iff.mp (h _ hword)
      have hhead : ∀ d ∈ (c :: run).head?, isDecimal d = false := by
        intro d hd
        cases hd
        exact isDecimal_of_startsName hstart
      obtain ⟨htake, hdrop⟩ := run_append_of_head hhead (s.takeWhile isDecimal)
      rw [hword, Option.elim_some, Option.map_some, hrun, lead, lead, word?,
        htake, hdrop, List.takeWhile_eq_self_iff.mpr hdigits,
        List.dropWhile_eq_nil_iff.mpr hdigits]
      exact ⟨rfl, rfl⟩
  | _ => exact ⟨rfl, rfl⟩

end Fragment

/-- The first fragment of a text is a literal, a name, a number or a single
byte. -/
theorem firstFragment_cases (b : UInt8) (s : Bytes) :
    isQuote b = true ∧
      Fragment.ofText b (firstPart inName b s).1 =
        .literal (b :: (literalRest b s).1) ∧
      (firstPart inName b s).2 = (literalRest b s).2 ∨
    startsName b = true ∧
      Fragment.ofText b (firstPart inName b s).1 =
        .name (b :: s.takeWhile inName) ∧
      (firstPart inName b s).2 = s.dropWhile inName ∨
    isDecimal b = true ∧
      Fragment.ofText b (firstPart inName b s).1 =
        .number (b :: s.takeWhile inName) ∧
      (firstPart inName b s).2 = s.dropWhile inName ∨
    (isQuote b = false ∧ inName b = false) ∧
      Fragment.ofText b (firstPart inName b s).1 = .other b ∧
      (firstPart inName b s).2 = s := by
  rw [Fragment.ofText, firstPart, inName]
  cases isQuote b with
  | true => exact Or.inl ⟨rfl, rfl, rfl⟩
  | false =>
    right
    cases startsName b with
    | true => exact Or.inl ⟨rfl, rfl, rfl⟩
    | false =>
      right
      cases isDecimal b with
      | true => exact Or.inl ⟨rfl, rfl, rfl⟩
      | false => exact Or.inr ⟨⟨rfl, rfl⟩, rfl, rfl⟩

variable {run : Bytes} {w : Name}

/-- What follows the digits of a number is a name. -/
theorem isName_dropWhile (hrun : ∀ c ∈ run, inName c = true)
    (hne : run.dropWhile isDecimal ≠ []) :
    isName (run.dropWhile isDecimal) = true := by
  have hnot := List.head?_dropWhile_not isDecimal run
  have hin : ∀ c ∈ run.dropWhile isDecimal, inName c = true := fun c hc =>
    hrun c ((List.dropWhile_suffix isDecimal).subset hc)
  obtain ⟨c, w, hw⟩ := List.exists_cons_of_ne_nil hne
  rw [hw] at hnot hin ⊢
  rw [List.forall_mem_cons] at hin
  refine isName_iff.mpr ⟨c, w, rfl, ?_, hin.2⟩
  have hdigit : isDecimal c = false := hnot
  have hc := hin.1
  rwa [inName, hdigit, Bool.or_false] at hc

/-- The words of a body are names. -/
theorem isName_of_word? {f : Fragment} (hf : f ∈ fragments s)
    (hw : w ∈ f.word?) : isName w = true := by
  induction s using fragment_induction with
  | nil => cases hf
  | cons b s ih =>
    rw [fragments_cons] at hf
    rcases List.mem_cons.mp hf with rfl | hf
    · rcases firstFragment_cases b s with
          ⟨-, hkind, -⟩ | ⟨hstart, hkind, -⟩ | ⟨hdigit, hkind, -⟩
          | ⟨-, hkind, -⟩
      · rw [hkind] at hw
        cases hw
      · rw [hkind] at hw
        cases hw
        exact isName_iff.mpr ⟨b, _, rfl, hstart, inName_of_takeWhile s⟩
      · rw [hkind] at hw
        have hrun : ∀ c ∈ b :: s.takeWhile inName, inName c = true :=
          List.forall_mem_cons.mpr ⟨Bool.or_eq_true_iff.mpr (Or.inr hdigit),
            inName_of_takeWhile s⟩
        rcases Fragment.word?_number (b :: s.takeWhile inName) with
            ⟨-, hword⟩ | ⟨hne, hword⟩
        · rw [hword] at hw
          cases hw
        · rw [hword] at hw
          cases hw
          exact isName_dropWhile hrun hne
      · rw [hkind] at hw
        cases hw
    · exact ih hf

theorem mapWords_cons (r : Name → Name) (b : UInt8) (s : Bytes) :
    mapWords r (b :: s) =
      ((Fragment.ofText b (firstPart inName b s).1).mapWord r).bytes ++
      mapWords r (firstPart inName b s).2 := by
  rw [mapWords, fragments_cons, List.flatMap_cons]
  rfl

/-- A literal ends where it ended if the text behind it changes, unless there
was none. -/
theorem literalRest_of_rest {quote : UInt8}
    (h : (literalRest quote s).2 = [] → t = []) :
    literalRest quote ((literalRest quote s).1 ++ t) =
      ((literalRest quote s).1, t) := by
  fun_induction literalRest quote s with
  | case1 =>
    obtain rfl := h rfl
    rfl
  | case2 b =>
    obtain rfl := h rfl
    rfl
  | case3 b c s hescape lit rest hrest ih =>
    rw [hrest] at ih
    simp only [List.cons_append, literalRest, hescape, if_true, ih h]
  | case4 b c s hescape hclose =>
    obtain rfl : b = quote := beq_iff_eq.mp hclose
    exact literalRest_quote (Bool.not_eq_true _ ▸ hescape) t
  | case5 b c s hescape hclose lit rest hrest ih =>
    rw [hrest] at ih
    rw [List.cons_append,
      literalRest_cons (Bool.not_eq_true _ ▸ hescape)
      (Bool.not_eq_true _ ▸ hclose), ih h]

/-- A text that does not begin with a name or a number begins under new words as
it did. -/
theorem head?_mapWords (hs : ∀ c ∈ s.head?, inName c = false) :
    (mapWords r s).head? = s.head? := by
  cases s with
  | nil => rfl
  | cons b s =>
    have hname : inName b = false := hs b rfl
    obtain ⟨hstart, hdigit⟩ := startsName_of_inName hname
    rw [mapWords_cons, Fragment.ofText, firstPart, hstart, hdigit, hname]
    cases isQuote b <;> rfl

theorem fragments_run (hb : inName b = true) (hrun : ∀ c ∈ run, inName c = true)
    (ht : ∀ c ∈ t.head?, inName c = false) :
    fragments (b :: run ++ t) = .ofText b (b :: run) :: fragments t := by
  have hquote : isQuote b = false := by
    rcases Bool.or_eq_true_iff.mp hb with hstart | hdigit
    · exact isQuote_of_startsName hstart
    · exact (digit_cases b hdigit).1
  rw [List.cons_append, fragments_cons, firstPart_of_run hquote hb hrun ht]

/-- A number stays one fragment if a name takes the place of what follows its
digits. -/
theorem fragments_mapWord_number (hdigit : isDecimal b = true)
    (hrun : ∀ c ∈ run, inName c = true)
    (hword : ∀ w ∈ (Fragment.number (b :: run)).word?, isName (r w) = true)
    (ht : ∀ c ∈ t.head?, inName c = false) :
    fragments (((Fragment.number (b :: run)).mapWord r).bytes ++ t) =
      (Fragment.number (b :: run)).mapWord r :: fragments t := by
  have hlead : (Fragment.number (b :: run)).lead =
      b :: run.takeWhile isDecimal := List.takeWhile_cons_of_pos hdigit
  have hnew :
      ∀ c ∈ run.takeWhile isDecimal ++ (Fragment.number
      (b :: run)).word?.elim [] r, inName c = true := by
    refine List.forall_mem_append.mpr
      ⟨fun c hc => hrun c ((List.takeWhile_prefix isDecimal).subset hc), ?_⟩
    cases hw : (Fragment.number (b :: run)).word? with
    | none => exact fun c hc => absurd hc List.not_mem_nil
    | some w => exact inName_of_isName (hword w hw)
  obtain ⟨hquote, hstart⟩ := digit_cases b hdigit
  rw [Fragment.mapWord, hlead, List.cons_append, Fragment.bytes,
    fragments_run (Bool.or_eq_true_iff.mpr (Or.inr hdigit)) hnew ht,
    Fragment.ofText, hquote, hstart, hdigit]
  rfl

/-- A body under new words has the fragments that it had, with the new words in
them. -/
theorem fragments_mapWords
    (h : ∀ f ∈ fragments s, ∀ w ∈ f.word?, isName (r w) = true) :
    fragments (mapWords r s) = (fragments s).map (Fragment.mapWord r) := by
  induction s using fragment_induction with
  | nil => rfl
  | cons b s ih =>
    rw [fragments_cons, List.forall_mem_cons] at h
    obtain ⟨hfirst, hrest⟩ := h
    -- What follows a name or number begins as before, so a new name cannot run
    -- into it.
    have hnext : ∀ c ∈ (mapWords r (s.dropWhile inName)).head?,
        inName c = false := by
      rw [head?_mapWords (not_inName_of_dropWhile s)]
      exact not_inName_of_dropWhile s
    rw [mapWords_cons, fragments_cons b s, List.map_cons, ← ih hrest]
    rcases firstFragment_cases b s with
        ⟨hquote, hkind, hafter⟩ | ⟨-, hkind, hafter⟩ | ⟨hdigit, hkind, hafter⟩
        | ⟨⟨hquote, hname⟩, hkind, hafter⟩
    · rw [hkind, hafter]
      refine fragments_literal hquote (literalRest_of_rest fun hnil => ?_)
      rw [hnil]
      rfl
    · rw [hkind] at hfirst
      obtain ⟨c, run, hnew, hstart, hrun⟩ := isName_iff.mp (hfirst _ rfl)
      rw [hkind, hafter, Fragment.mapWord, Fragment.bytes, hnew,
        fragments_run (Bool.or_eq_true_iff.mpr (Or.inl hstart)) hrun hnext,
        ofText_of_startsName hstart]
    · rw [hkind] at hfirst
      rw [hkind, hafter]
      exact fragments_mapWord_number hdigit (inName_of_takeWhile s) hfirst hnext
    · rw [hkind, hafter]
      exact fragments_other hquote hname _

/-- A body under new words is filled in by the arguments of the new words. -/
theorem instantiate_mapWords
    (h : ∀ f ∈ fragments s, ∀ w ∈ f.word?, isName (r w) = true)
    (params args : List Bytes) :
    instantiate (mapWords r s) params args = (fragments s).flatMap fun f =>
      f.lead ++ f.word?.elim [] fun w =>
      (argument? params args (r w)).getD (r w) := by
  rw [instantiate_eq_flatMap, fragments_mapWords h, List.flatMap_map]
  refine List.flatMap_congr fun f hf => ?_
  obtain ⟨hlead, hword⟩ := Fragment.mapWord_spec (h f hf)
  rw [Fragment.fillIn_eq_lead, hlead, hword]
  cases f.word? <;> rfl

variable {params args : List Bytes} {ρ : Name → Name} {body : Bytes}

/-- A parameter gets the same argument under its new name. -/
theorem argument?_map (hρ : IsRenaming params ρ) {p : Name} (hp : p ∈ params) :
    argument? (params.map ρ) args (ρ p) = argument? params args p := by
  have hkeys : ∀ e ∈ (params.zip args).reverse, e.1 ∈ params :=
    fun e he => (List.of_mem_zip (List.mem_reverse.mp he)).1
  rw [argument?, argument?, List.zip_map_left, ← List.map_reverse]
  generalize (params.zip args).reverse = es at hkeys
  induction es with
  | nil => rfl
  | cons e es ih =>
    obtain ⟨q, a⟩ := e
    rw [List.forall_mem_cons] at hkeys
    rw [List.map_cons, Prod.map_apply, List.lookup_cons, List.lookup_cons,
      ih hkeys.2]
    by_cases heq : p = q
    · rw [heq, beq_self_eq_true, beq_self_eq_true]
      rfl
    · rw [beq_false_of_ne heq, beq_false_of_ne fun hnew =>
        heq (hρ.injective p hp q hkeys.1 hnew)]

theorem newName_of_mem (h : w ∈ params) : newName params ρ w = ρ w := if_pos h

theorem newName_of_not_mem (h : w ∉ params) : newName params ρ w = w := if_neg h

theorem isName_newName (hρ : IsRenaming params ρ) :
    ∀ f ∈ fragments body, ∀ w ∈ f.word?,
      isName (newName params ρ w) = true := by
  intro f hf w hw
  by_cases hmem : w ∈ params
  · rw [newName_of_mem hmem]
    exact hρ.isName w hmem
  · rw [newName_of_not_mem hmem]
    exact isName_of_word? hf hw

theorem exists_argument? (hlength : args.length = params.length) {p : Name}
    (hp : p ∈ params) : ∃ a, argument? params args p = some a :=
  Option.ne_none_iff_exists'.mp fun hnone =>
    (argument?_eq_none_iff hlength).mp hnone hp

/-- Under new names a word gives way to what it gave way to, unless it became a
parameter. -/
theorem argument?_newName (hρ : IsRenaming params ρ)
    (hlength : args.length = params.length)
    (hfresh : w ∈ params.map ρ → w ∈ params) :
    (argument? (params.map ρ) args (newName params ρ w)).getD
      (newName params ρ w) = (argument? params args w).getD w := by
  by_cases hmem : w ∈ params
  · obtain ⟨a, ha⟩ := exists_argument? hlength hmem
    rw [newName_of_mem hmem, argument?_map hρ hmem, ha]
    rfl
  · have hlength' : args.length = (params.map ρ).length := by
      rw [List.length_map, hlength]
    rw [newName_of_not_mem hmem, (argument?_eq_none_iff hlength).mpr hmem,
      (argument?_eq_none_iff hlength').mpr fun hnew => hmem (hfresh hnew)]

theorem instantiate_eq_lead (body : Bytes) (params args : List Bytes) :
    instantiate body params args = (fragments body).flatMap fun f =>
      f.lead ++ f.word?.elim [] fun w => (argument? params args w).getD w := by
  rw [instantiate_eq_flatMap]
  exact List.flatMap_congr fun f _ => f.fillIn_eq_lead _

/-- Empty arguments take the place of all parameters. -/
theorem argument?_empty (hlength : args.length = params.length)
    (hempty : ∀ a ∈ args, a = []) (w : Name) :
    (argument? params args w).getD w = if w ∈ params then [] else w := by
  split
  next hmem =>
    obtain ⟨a, ha⟩ := exists_argument? hlength hmem
    have hpair := List.mem_reverse.mp (mem_of_lookup_eq_some ha)
    rw [ha, Option.getD_some, hempty a (List.of_mem_zip hpair).2]
  next hmem => rw [(argument?_eq_none_iff hlength).mpr hmem, Option.getD_none]

/-- With empty arguments no word takes more room under new names. -/
theorem length_newName_le (params : List Name) (ρ : Name → Name) (w : Name) :
    (if newName params ρ w ∈ params.map ρ then []
      else newName params ρ w).length ≤
      (if w ∈ params then [] else w).length := by
  by_cases hmem : w ∈ params
  · rw [newName_of_mem hmem, if_pos (List.mem_map_of_mem hmem)]
    exact Nat.zero_le _
  · rw [newName_of_not_mem hmem, if_neg hmem]
    split
    · exact Nat.zero_le _
    · exact Nat.le_refl _

/-- New names for the parameters change nothing for any arguments exactly if no
other word of the body becomes a parameter. -/
theorem instantiate_renamed_iff (hρ : IsRenaming params ρ) :
    (∀ args : List Bytes, args.length = params.length →
      instantiate (renamed params body ρ).body (params.map ρ) args =
        instantiate body params args) ↔
    ∀ p ∈ params, ρ p ∈ words body → ρ p ∈ params := by
  have hrenamed (args : List Bytes) :
    instantiate (renamed params body ρ).body (params.map ρ) args =
    (fragments body).flatMap fun f => f.lead ++ f.word?.elim [] fun w =>
        (argument? (params.map ρ) args (newName params ρ w)).getD
          (newName params ρ w) :=
    instantiate_mapWords (isName_newName hρ) _ args
  constructor
  · -- With empty arguments a word that became a parameter is lost, and nothing
    -- makes up for its room.
    intro h p hp hword
    by_contra hnot
    obtain ⟨f, hf, hfword⟩ := List.mem_filterMap.mp hword
    obtain ⟨args, hlength, hempty⟩ : ∃ args : List Bytes,
        args.length = params.length ∧ ∀ a ∈ args, a = [] :=
      ⟨List.replicate params.length [], List.length_replicate,
        fun _ ha => List.eq_of_mem_replicate ha⟩
    have hlength' : args.length = (params.map ρ).length := by
      rw [List.length_map, hlength]
    have heq := h args hlength
    rw [hrenamed, instantiate_eq_lead] at heq
    simp only [argument?_empty hlength hempty, argument?_empty hlength' hempty]
      at heq
    refine flatMap_ne (fun g _ => ?_) hf ?_ heq
    · cases g.word? with
      | none => exact Nat.le_refl _
      | some w =>
        rw [Option.elim_some, Option.elim_some, List.length_append,
          List.length_append]
        exact Nat.add_le_add_left (length_newName_le params ρ w) _
    · obtain ⟨c, run, hnew, -, -⟩ := isName_iff.mp (hρ.isName p hp)
      rw [hfword, Option.elim_some, Option.elim_some, newName_of_not_mem hnot,
        if_pos (List.mem_map_of_mem hp), if_neg hnot, hnew]
      simp
  · intro hfresh args hlength
    rw [hrenamed, instantiate_eq_lead]
    refine List.flatMap_congr fun f hf => ?_
    cases hword : f.word? with
    | none => rfl
    | some w =>
      refine congrArg (f.lead ++ ·)
        (argument?_newName hρ hlength fun hnew => ?_)
      obtain ⟨p, hp, rfl⟩ := List.mem_map.mp hnew
      exact hfresh p hp (List.mem_filterMap.mpr ⟨f, hf, hword⟩)

theorem apply_renamed (hρ : IsRenaming params ρ)
    (hfresh : ∀ p ∈ params, ρ p ∈ words body → ρ p ∈ params) (s : Bytes) :
    (renamed params body ρ).apply s =
      apply { params := some params, body } s := by
  have hsame := (instantiate_renamed_iff hρ).mpr hfresh
  rw [apply, apply]
  simp only [renamed] at hsame ⊢
  cases arguments s with
  | none => rfl
  | some e =>
    simp only [List.length_map]
    split
    next hlength => rw [hsame e.1 hlength]
    next => rfl

end Macro

namespace Macros

/-- Tables with the same names, whose macros are replaced alike. -/
def Alike (t t' : Macros) : Prop :=
  List.Forall₂ (fun e e' => e.1 = e'.1 ∧ ∀ s, e.2.apply s = e'.2.apply s) t t'

variable {t t' : Macros}

theorem Alike.refl (t : Macros) : t.Alike t :=
  List.forall₂_same.mpr fun _ _ => ⟨rfl, fun _ => rfl⟩

theorem Alike.apply (h : t.Alike t') (name : Name) (s : Bytes) :
    (t.get? name).bind (·.apply s) = (t'.get? name).bind (·.apply s) := by
  induction h with
  | nil => rfl
  | cons hhead _ ih =>
    rw [get?_cons, get?_cons, ← hhead.1]
    split
    next => exact hhead.2 s
    next => exact ih

theorem Alike.erase (h : t.Alike t') (name : Name) :
    (t.erase name).Alike (t'.erase name) :=
  List.rel_filter (fun _ _ he => by simp only [he.1]) h

theorem expandWith_congr (h : t.Alike t') {inner inner' : Name → Bytes → Bytes}
    (hinner : ∀ name body, inner name body = inner' name body) (fuel : Nat)
    (s : Bytes) : t.expandWith inner fuel s = t'.expandWith inner' fuel s := by
  induction fuel generalizing s with
  | zero => rfl
  | succ fuel ih =>
    cases s with
    | nil => rfl
    | cons b s => simp only [expandWith, h.apply, hinner, ih]

theorem expandTo_congr (h : t.Alike t') (depth : Nat) (s : Bytes) :
    expandTo depth t s = expandTo depth t' s := by
  induction depth generalizing t t' s with
  | zero => rfl
  | succ depth ih =>
    exact expandWith_congr h (fun name body => ih (h.erase name) body)
      s.length s

/-- Tables whose macros are replaced alike expand every text alike. -/
theorem expand_congr (h : t.Alike t') (s : Bytes) :
    t.expand s = t'.expand s := by
  rw [expand, expand, List.Forall₂.length_eq h]
  exact expandTo_congr h _ s

end Macros

namespace Macro

/-- A macro can be given other names for its parameters. They must be different
names, and none that the body has for something else. Then every list of
arguments fills in the body alike, each argument as it is written in place of
its parameter, and every line is expanded alike whatever other macros there
are. -/
theorem parameters_are_bound {params : List Name} {body : Bytes}
    {ρ : Name → Name} (hρ : IsRenaming params ρ)
    (hfresh : ∀ p ∈ params, ρ p ∈ words body → ρ p ∈ params) :
    (∀ args : List Bytes, args.length = params.length →
      instantiate body params args =
        (fragments body).flatMap (Fragment.fillIn (argument? params args)) ∧
      instantiate (renamed params body ρ).body (params.map ρ) args =
        instantiate body params args) ∧
    ∀ (t : Macros) (name : Name) (line : Bytes),
      (t.insert name (renamed params body ρ)).expand line =
      (t.insert name { params := some params, body }).expand line := by
  refine ⟨fun args hlength =>
    ⟨instantiate_eq_flatMap body params args,
      (instantiate_renamed_iff hρ).mpr hfresh args hlength⟩, fun t name line =>
      Macros.expand_congr ?_ line⟩
  exact .cons ⟨rfl, apply_renamed hρ hfresh⟩ (Macros.Alike.refl _)

/-- The first parameter gets the name of the second, which stands behind a digit
of the body too. The arguments have the names of parameters and of a macro. -/
theorem parameters_are_bound_overlapping :
    let params := [text "a", text "b"]
    let body := text "b - a + 1b + \"a\" + c"
    let ρ : Name → Name := fun p => if p = text "a" then text "b" else text "d"
    let t : Macros :=
      [(text "b", { body := text "a" }), (text "d", { body := text "0" })]
    IsRenaming params ρ ∧ (∀ p ∈ params, ρ p ∈ words body → ρ p ∈ params) ∧
      renamed params body ρ =
      { params := some [text "b", text "d"],
        body := text "d - b + 1d + \"a\" + c" } ∧
          (t.insert (text "S") (renamed params body ρ)).expand
          (text "S(b, a + d)") =
          (t.insert (text "S") { params := some params, body }).expand
          (text "S(b, a + d)") ∧
          (t.insert (text "S") { params := some params, body }).expand
          (text "S(b, a + d)") = text "a + 0 - a + 1a + 0 + \"a\" + c" := by
  intro params body ρ t
  have hρ : IsRenaming params ρ := by decide +kernel
  have hfresh : ∀ p ∈ params, ρ p ∈ words body → ρ p ∈ params := by
    decide +kernel
  exact ⟨hρ, hfresh, by decide +kernel,
    (parameters_are_bound hρ hfresh).2 t (text "S") (text "S(b, a + d)"),
    by decide +kernel⟩

end Macro

end StackC
