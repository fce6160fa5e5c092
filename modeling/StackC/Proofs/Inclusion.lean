import Mathlib.Logic.Relation
import StackC.Proofs.LineNumbers

/-!
Includes. The files that a text reaches through include lines are visited depth
first: a file that is being included is on the chain, and one that has been
included is never read again. The rules below visit files with no bound on how
deep they include each other. Every text has exactly one run by these rules, the
one that is computed, because the files on a chain are different files of the
system. If the run succeeds, no file that is reached includes itself through
others; if it stops at a file that is on the chain, that file does.
-/

namespace StackC

/-- The error without the places where it was found. -/
def SourceError.cause : SourceError → SourceError
  | inLine _ e => e.cause
  | inFile _ e => e.cause
  | e => e

/-- The path that a line names, if it is an include in a text that lies in
`dir`. -/
def Directive.target? (dir : Path) (line : Bytes) : Option Path :=
  match ofLine? line with
  | some (.inclusion rest) => includePath? dir rest
  | _ => none

variable {rest : Bytes}

theorem Directive.target?_of_inclusion {line : Bytes} (dir : Path)
    (h : ofLine? line = some (.inclusion rest)) :
    target? dir line = includePath? dir rest := by
  rw [target?, h]

theorem Directive.target?_of_not_inclusion {line : Bytes} (dir : Path)
    (h : includesFile line = false) : target? dir line = none := by
  rw [target?]
  split
  next rest hline =>
    rw [includesFile_eq_true_iff.mpr ⟨rest, hline⟩] at h
    cases h
  next => rfl

theorem includedPaths_eq (dir : Path) (src : Bytes) :
    includedPaths dir src =
      (Bytes.lines src).filterMap (Directive.target? dir) :=
  rfl

namespace FileSystem

def Includes (fs : FileSystem) (x y : Path) : Prop :=
  ∃ data, fs.read x = .ok data ∧ y ∈ includedPaths x.dir data

/-- A text that lies in `dir` names `x` in an include line, or a file that
reaches `x` through include lines. -/
def Reaches (fs : FileSystem) (dir : Path) (src : Bytes) (x : Path) : Prop :=
  ∃ y ∈ includedPaths dir src, Relation.ReflTransGen fs.Includes y x

theorem includes_iff {fs : FileSystem} {x y : Path} {data : Bytes}
    (h : fs.read x = .ok data) :
    fs.Includes x y ↔
      ∃ line ∈ Bytes.lines data, Directive.target? x.dir line = some y := by
  rw [Includes, h]
  simp [includedPaths_eq]

end FileSystem

namespace Session

/-! ### Runs -/

/-- What a line asks for: nothing more, with the session behind it and what the
line leaves, or the text of a file. -/
inductive Need where
  | nothing (s : Session) (r : Except SourceError Bytes)
  | file (path : Path)

/-- What a line of a text that lies in `dir` asks for. -/
def need (s : Session) (dir : Path) (line : Bytes) : Need :=
  match Directive.ofLine? line with
  | some (.inclusion rest) =>
    match s.wanted dir rest with
    | .error e => .nothing s (.error e)
    | .ok none => .nothing s (.ok [])
    | .ok (some path) => .file path
  | _ =>
    .nothing (expandLine refuseFile s line).1 (expandLine refuseFile s line).2

/-- The expansion of lines, the first of which has the number `n`, in a text
that lies in `dir`. The files that it tries to read are listed in the order in
which it does. -/
inductive Runs (fs : FileSystem) :
    (dir : Path) → (n : Nat) → Session → List Bytes → (tried : List Path) →
      Session → Except SourceError (List Bytes) → Prop where
  | nil {dir : Path} {n : Nat} {s : Session} : Runs fs dir n s [] [] s (.ok [])
  | stops {dir : Path} {n : Nat} {s s' : Session} {line : Bytes}
    {ls : List Bytes} {e : SourceError}
    (hneed : s.need dir line = .nothing s' (.error e)) :
    Runs fs dir n s (line :: ls) [] s' (.error (.inLine n e))
  | next {dir : Path} {n : Nat} {s mid s' : Session} {line out : Bytes}
    {ls : List Bytes} {tried : List Path} {r : Except SourceError (List Bytes)}
    (hneed : s.need dir line = .nothing mid (.ok out))
    (hrest : Runs fs dir (n + 1) mid ls tried s' r) :
    Runs fs dir n s (line :: ls) tried s' (r.map (out :: ·))
  | unreadable {dir path : Path} {n : Nat} {s : Session} {line : Bytes}
    {ls : List Bytes} {e : FileError} (hneed : s.need dir line = .file path)
    (hread : fs.read path = .error e) :
    Runs fs dir n s (line :: ls) [path] s (.error (.inLine n (.unreadable e)))
  | fails {dir path : Path} {n : Nat} {s inner : Session} {line data : Bytes}
    {ls : List Bytes} {tried : List Path} {e : SourceError}
    (hneed : s.need dir line = .file path) (hread : fs.read path = .ok data)
    (hfile : Runs fs path.dir 1 (s.enter path) (Bytes.lines data) tried inner
      (.error e)) :
    Runs fs dir n s (line :: ls) (path :: tried) (inner.leave path)
      (.error (.inLine n (.inFile path e)))
  | includes {dir path : Path} {n : Nat} {s inner s' : Session}
    {line data : Bytes} {ls outs : List Bytes} {tried tried' : List Path}
    {r : Except SourceError (List Bytes)} (hneed : s.need dir line = .file path)
    (hread : fs.read path = .ok data)
    (hfile : Runs fs path.dir 1 (s.enter path) (Bytes.lines data) tried inner
      (.ok outs))
    (hrest : Runs fs dir (n + 1) (inner.leave path) ls tried' s' r) :
    Runs fs dir n s (line :: ls) (path :: (tried ++ tried')) s'
      (r.map ([byte '\n'].intercalate outs :: ·))

variable {fs : FileSystem} {dir path : Path} {n : Nat} {s s' : Session}
  {line : Bytes} {ls : List Bytes} {tried : List Path}
  {r : Except SourceError (List Bytes)}

/-- A run is determined by its start. -/
theorem Runs.unique {tried' : List Path} {s'' : Session}
    {r' : Except SourceError (List Bytes)} (h : Runs fs dir n s ls tried s' r)
    (h' : Runs fs dir n s ls tried' s'' r') :
    tried' = tried ∧ s'' = s' ∧ r' = r := by
  induction h generalizing tried' s'' r' with
  | nil =>
    cases h'
    exact ⟨rfl, rfl, rfl⟩
  | stops hneed =>
    cases h' with
    | stops hneed' =>
      cases hneed.symm.trans hneed'
      exact ⟨rfl, rfl, rfl⟩
    | next hneed' | unreadable hneed' | fails hneed' | includes hneed' =>
      cases hneed.symm.trans hneed'
  | next hneed _ ih =>
    cases h' with
    | next hneed' hrest =>
      cases hneed.symm.trans hneed'
      obtain ⟨rfl, rfl, rfl⟩ := ih hrest
      exact ⟨rfl, rfl, rfl⟩
    | stops hneed' | unreadable hneed' | fails hneed' | includes hneed' =>
      cases hneed.symm.trans hneed'
  | unreadable hneed hread =>
    cases h' with
    | unreadable hneed' hread' =>
      cases hneed.symm.trans hneed'
      cases hread.symm.trans hread'
      exact ⟨rfl, rfl, rfl⟩
    | stops hneed' | next hneed' => cases hneed.symm.trans hneed'
    | fails hneed' hread' | includes hneed' hread' =>
      cases hneed.symm.trans hneed'
      cases hread.symm.trans hread'
  | fails hneed hread _ ih =>
    cases h' with
    | fails hneed' hread' hfile =>
      cases hneed.symm.trans hneed'
      cases hread.symm.trans hread'
      obtain ⟨rfl, rfl, heq⟩ := ih hfile
      cases heq
      exact ⟨rfl, rfl, rfl⟩
    | stops hneed' | next hneed' => cases hneed.symm.trans hneed'
    | unreadable hneed' hread' =>
      cases hneed.symm.trans hneed'
      cases hread.symm.trans hread'
    | includes hneed' hread' hfile =>
      cases hneed.symm.trans hneed'
      cases hread.symm.trans hread'
      cases (ih hfile).2.2
  | includes hneed hread _ _ ihFile ihRest =>
    cases h' with
    | includes hneed' hread' hfile hrest =>
      cases hneed.symm.trans hneed'
      cases hread.symm.trans hread'
      obtain ⟨rfl, rfl, heq⟩ := ihFile hfile
      cases heq
      obtain ⟨rfl, rfl, rfl⟩ := ihRest hrest
      exact ⟨rfl, rfl, rfl⟩
    | stops hneed' | next hneed' => cases hneed.symm.trans hneed'
    | unreadable hneed' hread' =>
      cases hneed.symm.trans hneed'
      cases hread.symm.trans hread'
    | fails hneed' hread' hfile =>
      cases hneed.symm.trans hneed'
      cases hread.symm.trans hread'
      cases (ihFile hfile).2.2

/-! ### One line -/

theorem wanted_eq_file (h : s.wanted dir line = .ok (some path)) :
    Directive.includePath? dir line = some path ∧ path ∉ s.chain ∧
      path ∉ s.done := by
  rw [wanted] at h
  split at h
  next => cases h
  next path' hpath =>
    obtain ⟨hchain, h⟩ := ok_of_else h
    split at h
    next => cases h
    next hdone =>
      cases h
      exact ⟨hpath, by simpa using hchain, by simpa using hdone⟩

theorem wanted_eq_none (h : s.wanted dir line = .ok none)
    (hpath : Directive.includePath? dir line = some path) :
    path ∈ s.done ∧ path ∉ s.chain := by
  rw [wanted, hpath] at h
  dsimp only at h
  obtain ⟨hchain, h⟩ := ok_of_else h
  split at h
  next hdone => exact ⟨by simpa using hdone, by simpa using hchain⟩
  next => cases h

variable {e : SourceError} {chain : List Path}

theorem wanted_eq_circular {x : Path} (h : s.wanted dir line = .error e)
    (he : e.cause = .circular x) :
    Directive.includePath? dir line = some x ∧ x ∈ s.chain := by
  rw [wanted] at h
  split at h
  next =>
    cases h
    cases he
  next path' hpath =>
    split at h
    next hchain =>
      cases h
      cases he
      exact ⟨hpath, by simpa using hchain⟩
    next => split at h <;> cases h

theorem cause_of_definition (h : Directive.definition rest = .error e)
    (x : Path) : e.cause ≠ .circular x := by
  rw [Directive.definition] at h
  split at h
  next =>
    split at h
    next => cases h
    next =>
      split at h
      next =>
        split at h
        next => cases h
        next =>
          cases h
          exact SourceError.noConfusion
      next => cases h
  next =>
    cases h
    exact SourceError.noConfusion

theorem cause_of_lineFault (h : Directive.lineFault? line = some e) (x : Path) :
    e.cause ≠ .circular x := by
  obtain ⟨d, -, hfault⟩ := Option.bind_eq_some_iff.mp h
  cases d with
  | define rest =>
    rw [Directive.fault?] at hfault
    split at hfault
    next => cases hfault
    next hdef =>
      cases hfault
      exact cause_of_definition hdef x
  | unknown word =>
    cases hfault
    exact SourceError.noConfusion
  | undefine _ | inclusion _ => cases hfault

/-- A line that is no include has nothing to do with files. -/
theorem expandLine_of_not_inclusion (s : Session)
    (hline : Directive.includesFile line = false)
    (includeFile includeFile' : Session → Bytes →
      Session × Except SourceError Bytes) :
    expandLine includeFile s line = expandLine includeFile' s line ∧
      (expandLine includeFile s line).1.chain = s.chain ∧
      (expandLine includeFile s line).1.done = s.done ∧
      ∀ e x, (expandLine includeFile s line).2 = .error e →
        e.cause ≠ .circular x := by
  cases hfault : Directive.lineFault? line with
  | none =>
    rw [expandLine_of_valid hline hfault, expandLine_of_valid hline hfault]
    refine ⟨rfl, rfl, rfl, ?_⟩
    rintro e x ⟨⟩
  | some e =>
    rw [expandLine_of_fault hfault, expandLine_of_fault hfault]
    refine ⟨rfl, rfl, rfl, ?_⟩
    rintro e x ⟨⟩
    exact cause_of_lineFault hfault x

/-- An include asks for what is wanted; any other line asks for nothing. -/
theorem need_cases (s : Session) (dir : Path) (line : Bytes) :
    (∃ rest e, Directive.ofLine? line = some (.inclusion rest) ∧
      s.wanted dir rest = .error e ∧ s.need dir line = .nothing s (.error e)) ∨
    (∃ rest, Directive.ofLine? line = some (.inclusion rest) ∧
      s.wanted dir rest = .ok none ∧ s.need dir line = .nothing s (.ok [])) ∨
    (∃ rest path, Directive.ofLine? line = some (.inclusion rest) ∧
      s.wanted dir rest = .ok (some path) ∧ s.need dir line = .file path) ∨
    Directive.includesFile line = false ∧
      s.need dir line = .nothing (expandLine refuseFile s line).1
        (expandLine refuseFile s line).2 := by
  cases hincludes : Directive.includesFile line with
  | true =>
    obtain ⟨rest, hline⟩ := Directive.includesFile_eq_true_iff.mp hincludes
    rcases hwanted : s.wanted dir rest with e | _ | path
    · exact Or.inl ⟨rest, e, hline,
        hwanted, by simp only [need, hline, hwanted]⟩
    · exact Or.inr
        (Or.inl ⟨rest, hline, hwanted, by simp only [need, hline, hwanted]⟩)
    · exact Or.inr
        (Or.inr (Or.inl ⟨rest, path, hline,
          hwanted, by simp only [need, hline, hwanted]⟩))
  | false =>
    refine Or.inr (Or.inr (Or.inr ⟨rfl, ?_⟩))
    rw [need]
    split
    next rest hline =>
      rw [Directive.includesFile_eq_true_iff.mpr ⟨rest, hline⟩] at hincludes
      cases hincludes
    next => rfl

/-- A line that asks for a file includes one that has not been included
before. -/
theorem need_eq_file (h : s.need dir line = .file path) :
    Directive.target? dir line = some path ∧ path ∉ s.chain ∧
      path ∉ s.done := by
  rcases need_cases s dir line with ⟨_, _, _, _, hneed⟩ | ⟨_, _, _, hneed⟩
      | ⟨rest, _, hline, hwanted, hneed⟩ | ⟨_, hneed⟩
  all_goals cases hneed.symm.trans h
  rw [Directive.target?_of_inclusion dir hline]
  exact wanted_eq_file hwanted

/-- A line that asks for nothing leaves the files as they are. If it includes a
file, then the file has been included and is not being included, or it stops the
run because it is. -/
theorem need_eq_nothing {out : Except SourceError Bytes}
    (h : s.need dir line = .nothing s' out) :
    (s'.chain = s.chain ∧ s'.done = s.done) ∧
      (out.isOk = true →
        ∀ path ∈ Directive.target? dir line, path ∈ s.done ∧ path ∉ s.chain) ∧
      ∀ e x, out = .error e → e.cause = .circular x →
        x ∈ Directive.target? dir line ∧ x ∈ s.chain := by
  rcases need_cases s dir line with
    ⟨rest, e, hline, hwanted, hneed⟩ | ⟨rest, hline, hwanted, hneed⟩
    | ⟨_, _, _, _, hneed⟩ | ⟨hline, hneed⟩
  · cases hneed.symm.trans h
    rw [Directive.target?_of_inclusion dir hline]
    refine ⟨⟨rfl, rfl⟩, fun hok => (by cases hok), ?_⟩
    rintro e x ⟨⟩ hcause
    exact wanted_eq_circular hwanted hcause
  · cases hneed.symm.trans h
    rw [Directive.target?_of_inclusion dir hline]
    refine ⟨⟨rfl, rfl⟩, fun _ path hpath => wanted_eq_none hwanted hpath, ?_⟩
    rintro e x ⟨⟩
  · cases hneed.symm.trans h
  · obtain ⟨rfl, rfl⟩ := Need.nothing.inj (hneed.symm.trans h)
    obtain ⟨-, hchain, hdone, hcause⟩ :=
      expandLine_of_not_inclusion s hline refuseFile refuseFile
    rw [Directive.target?_of_not_inclusion dir hline]
    refine ⟨⟨hchain, hdone⟩, fun _ path hpath => (by cases hpath),
      fun e x he hcircular => ?_⟩
    exact absurd hcircular (hcause e x he)

theorem chain_leave (h : s.chain = path :: chain) (hpath : path ∉ chain) :
    (s.leave path).chain = chain := by
  have hkept : ∀ p ∈ chain, (p != path) = true := by
    intro p hp
    rw [bne_iff_ne]
    rintro rfl
    exact hpath hp
  simp only [leave, h, List.filter_cons, bne_self_eq_false, Bool.false_eq_true,
    if_false]
  exact List.filter_eq_self.mpr hkept

/-- A run leaves the chain as it was, however it ends. -/
theorem Runs.chain_eq (h : Runs fs dir n s ls tried s' r) :
    s'.chain = s.chain := by
  induction h with
  | nil => rfl
  | stops hneed => exact (need_eq_nothing hneed).1.1
  | next hneed _ ih => exact ih.trans (need_eq_nothing hneed).1.1
  | unreadable => rfl
  | fails hneed _ _ ih => exact chain_leave ih (need_eq_file hneed).2.1
  | includes hneed _ _ _ ihFile ihRest =>
    exact ihRest.trans (chain_leave ihFile (need_eq_file hneed).2.1)

/-! ### Reading -/

/-- A run reads different files, none of which has been included. If it
succeeds, these files have been included afterwards, and no others. -/
theorem Runs.tried_nodup (h : Runs fs dir n s ls tried s' r) :
    tried.Nodup ∧ (∀ p ∈ tried, p ∉ s.done) ∧
      (r.isOk = true → ∀ p, p ∈ s'.done ↔ p ∈ tried ∨ p ∈ s.done) := by
  induction h with
  | nil =>
    exact ⟨List.nodup_nil, fun p hp => absurd hp List.not_mem_nil,
      fun _ p => by simp⟩
  | stops =>
    exact ⟨List.nodup_nil, fun p hp => absurd hp List.not_mem_nil,
      fun hok => by cases hok⟩
  | next hneed _ ih =>
    obtain ⟨hnodup, hnew, hdone⟩ := ih
    rw [(need_eq_nothing hneed).1.2] at hnew hdone
    exact ⟨hnodup, hnew, fun hok => hdone (isOk_map _ _ ▸ hok)⟩
  | unreadable hneed =>
    refine ⟨List.nodup_singleton _, fun p hp => ?_, fun hok => by cases hok⟩
    rw [List.mem_singleton.mp hp]
    exact (need_eq_file hneed).2.2
  | fails hneed _ _ ih =>
    obtain ⟨hnodup, hnew, -⟩ := ih
    have hpath := (need_eq_file hneed).2.2
    simp only [enter, List.mem_cons, not_or] at hnew
    refine ⟨List.nodup_cons.mpr ⟨fun hmem => (hnew _ hmem).1 rfl, hnodup⟩, ?_,
      fun hok => by cases hok⟩
    exact List.forall_mem_cons.mpr ⟨hpath, fun p hp => (hnew p hp).2⟩
  | includes hneed _ _ _ ihFile ihRest =>
    obtain ⟨hnodup, hnew, hdone⟩ := ihFile
    obtain ⟨hnodup', hnew', hdone'⟩ := ihRest
    have hpath := (need_eq_file hneed).2.2
    have hinner := hdone rfl
    simp only [enter, List.mem_cons, not_or] at hnew hinner
    -- what is read behind the file was not read inside it
    have hapart : ∀ p ∈ _, ¬ (p ∈ _ ∨ p = _ ∨ p ∈ _) :=
      fun p hp hmem => hnew' p hp ((hinner p).mpr hmem)
    refine ⟨?_, ?_, fun hok p => ?_⟩
    · refine List.nodup_cons.mpr ⟨fun hmem => ?_,
        List.nodup_append.mpr ⟨hnodup, hnodup', ?_⟩⟩
      · rcases List.mem_append.mp hmem with hmem | hmem
        · exact (hnew _ hmem).1 rfl
        · exact hapart _ hmem (Or.inr (Or.inl rfl))
      · rintro p hp _ hp' rfl
        exact hapart p hp' (Or.inl hp)
    · refine List.forall_mem_cons.mpr ⟨hpath, fun p hp => ?_⟩
      rcases List.mem_append.mp hp with hp | hp
      · exact (hnew p hp).2
      · exact fun hdone => hapart p hp (Or.inr (Or.inr hdone))
    · rw [hdone' (isOk_map _ _ ▸ hok) p, leave, hinner p, List.mem_cons,
        List.mem_append]
      simp only [or_assoc, or_left_comm]

/-- A file reaches what one of its lines reaches. -/
theorem reaches_of_included {data : Bytes} {x : Path}
    (hread : fs.read path = .ok data)
    (h : ∃ line ∈ Bytes.lines data, ∃ y ∈ Directive.target? path.dir line,
      Relation.ReflTransGen fs.Includes y x) :
    Relation.ReflTransGen fs.Includes path x := by
  obtain ⟨line, hline, y, hy, hreach⟩ := h
  exact .head ((FileSystem.includes_iff hread).mpr ⟨line, hline, hy⟩) hreach

theorem exists_mem_cons_of_tail {α : Type} {p : α → Prop} {a : α} {l : List α}
    (h : ∃ b ∈ l, p b) : ∃ b ∈ a :: l, p b := by
  obtain ⟨b, hb, hp⟩ := h
  exact ⟨b, List.mem_cons_of_mem a hb, hp⟩

/-- What a run reads is reached from its lines. -/
theorem Runs.reached (h : Runs fs dir n s ls tried s' r) :
    ∀ x ∈ tried, ∃ line ∈ ls, ∃ y ∈ Directive.target? dir line,
      Relation.ReflTransGen fs.Includes y x := by
  induction h with
  | nil | stops => exact fun x hx => absurd hx List.not_mem_nil
  | next _ _ ih => exact fun x hx => exists_mem_cons_of_tail (ih x hx)
  | @unreadable _ path _ _ line _ _ hneed =>
    intro x hx
    rw [List.mem_singleton.mp hx]
    exact ⟨line, List.mem_cons_self, path, (need_eq_file hneed).1, .refl⟩
  | @fails _ path _ _ _ line _ _ _ _ hneed hread _ ih =>
    refine List.forall_mem_cons.mpr ⟨?_, fun x hx => ?_⟩
    · exact ⟨line, List.mem_cons_self, path, (need_eq_file hneed).1, .refl⟩
    · exact ⟨line, List.mem_cons_self, path, (need_eq_file hneed).1,
        reaches_of_included hread (ih x hx)⟩
  | @includes _ path _ _ _ _ line _ _ _ _ _ _ hneed hread _ _ ihFile ihRest =>
    refine List.forall_mem_cons.mpr ⟨?_, fun x hx => ?_⟩
    · exact ⟨line, List.mem_cons_self, path, (need_eq_file hneed).1, .refl⟩
    · rcases List.mem_append.mp hx with hx | hx
      · exact ⟨line, List.mem_cons_self, path, (need_eq_file hneed).1,
          reaches_of_included hread (ihFile x hx)⟩
      · exact exists_mem_cons_of_tail (ihRest x hx)

/-! ### Cycles -/

/-- A file has been included and is not being included. -/
def Finished (s : Session) (x : Path) : Prop :=
  x ∈ s.done ∧ x ∉ s.chain

/-- Files that are finished with include only such files, and none of them
includes itself through others. -/
structure Settled (s : Session) (fs : FileSystem) : Prop where
  closed : ∀ x y, s.Finished x → fs.Includes x y → s.Finished y
  acyclic : ∀ x, s.Finished x → ¬ Relation.TransGen fs.Includes x x

theorem Settled.reaches {x y : Path} (h : s.Settled fs) (hx : s.Finished x)
    (hxy : Relation.ReflTransGen fs.Includes x y) : s.Finished y := by
  induction hxy with
  | refl => exact hx
  | tail _ hstep ih => exact h.closed _ _ ih hstep

/-- A file that is begun is not finished, and all others are as they were. -/
theorem finished_enter (hpath : path ∉ s.done) (x : Path) :
    (s.enter path).Finished x ↔ s.Finished x := by
  simp only [Finished, enter, List.mem_cons, not_or]
  constructor
  · rintro ⟨hdone, hne, hchain⟩
    exact ⟨hdone.resolve_left hne, hchain⟩
  · rintro ⟨hdone, hchain⟩
    exact ⟨Or.inr hdone, fun heq => hpath (heq ▸ hdone), hchain⟩

/-- A file that ends is finished. -/
theorem finished_leave (hchain : s.chain = path :: chain) (hpath : path ∉ chain)
    (hdone : path ∈ s.done) (x : Path) :
    (s.leave path).Finished x ↔ s.Finished x ∨ x = path := by
  have hleave := chain_leave hchain hpath
  simp only [Finished, hleave, hchain, List.mem_cons, not_or]
  constructor
  · rintro ⟨hx, hnot⟩
    by_cases heq : x = path
    · exact Or.inr heq
    · exact Or.inl ⟨hx, heq, hnot⟩
  · rintro (⟨hx, -, hnot⟩ | rfl)
    · exact ⟨hx, hnot⟩
    · exact ⟨hdone, hpath⟩

/-- The end of a file all of whose includes are finished. -/
theorem Settled.leave (h : s.Settled fs) (hchain : s.chain = path :: chain)
    (hpath : path ∉ chain) (hdone : path ∈ s.done)
    (hincludes : ∀ y, fs.Includes path y → s.Finished y) :
    (s.leave path).Settled fs := by
  have hfinished := finished_leave hchain hpath hdone
  constructor
  · intro x y hx hxy
    rcases (hfinished x).mp hx with hx | rfl
    · exact (hfinished y).mpr (Or.inl (h.closed x y hx hxy))
    · exact (hfinished y).mpr (Or.inl (hincludes y hxy))
  · intro x hx hcycle
    rcases (hfinished x).mp hx with hx | rfl
    · exact h.acyclic x hx hcycle
    · -- what the file includes is finished, and so would be the file
      obtain ⟨y, hxy, hreach⟩ := Relation.TransGen.head'_iff.mp hcycle
      exact (h.reaches (hincludes y hxy) hreach).2 (hchain ▸ List.mem_cons_self)

/-- A run that succeeds leaves all files finished that its lines include. -/
theorem Runs.settled (h : Runs fs dir n s ls tried s' r) (hok : r.isOk = true)
    (hs : s.Settled fs) :
    s'.Settled fs ∧ (∀ x, s.Finished x → s'.Finished x) ∧
      ∀ line ∈ ls, ∀ path ∈ Directive.target? dir line, s'.Finished path := by
  induction h with
  | nil =>
    exact ⟨hs, fun _ => id, fun line hline => absurd hline List.not_mem_nil⟩
  | stops | unreadable | fails => cases hok
  | @next _ _ s mid _ _ _ _ _ _ hneed _ ih =>
    obtain ⟨⟨hchain, hdone⟩, htarget, -⟩ := need_eq_nothing hneed
    have hsame : mid.Finished = s.Finished := by
      funext x
      rw [Finished, Finished, hchain, hdone]
    obtain ⟨hsettled, hkept, hlines⟩ :=
      ih (isOk_map _ _ ▸ hok) ⟨hsame.symm ▸ hs.closed, hsame.symm ▸ hs.acyclic⟩
    rw [hsame] at hkept
    exact ⟨hsettled, hkept,
      List.forall_mem_cons.mpr
      ⟨fun path hpath => hkept path (htarget rfl path hpath), hlines⟩⟩
  | @includes _ path _ s inner _ _ _ _ _ _ _ _ hneed hread hfile hrest ihFile
      ihRest =>
    obtain ⟨htarget, hpathChain, hpathDone⟩ := need_eq_file hneed
    have henter := finished_enter hpathDone
    obtain ⟨hinner, hkept, hlines⟩ :=
      ihFile rfl ⟨fun x y => by simpa only [henter] using hs.closed x y,
        fun x => by simpa only [henter] using hs.acyclic x⟩
    have hchain : inner.chain = path :: s.chain := hfile.chain_eq
    have hdone : path ∈ inner.done :=
      (hfile.tried_nodup.2.2 rfl path).mpr (Or.inr List.mem_cons_self)
    have hincludes : ∀ y, fs.Includes path y → inner.Finished y := by
      intro y hy
      obtain ⟨line, hline, htarget⟩ := (FileSystem.includes_iff hread).mp hy
      exact hlines line hline y htarget
    have hfinished := finished_leave hchain hpathChain hdone
    obtain ⟨hsettled, hkept', hlines'⟩ :=
      ihRest (isOk_map _ _ ▸ hok)
        (hinner.leave hchain hpathChain hdone hincludes)
    refine ⟨hsettled, fun x hx => ?_,
      List.forall_mem_cons.mpr ⟨fun p hp => ?_, hlines'⟩⟩
    · exact hkept' x ((hfinished x).mpr (Or.inl (hkept x ((henter x).mpr hx))))
    · cases htarget.symm.trans hp
      exact hkept' path ((hfinished path).mpr (Or.inr rfl))

/-- A run that stops at a file of the chain has come back to it, if all files of
the chain reach its lines. -/
theorem Runs.circular (h : Runs fs dir n s ls tried s' r)
    (hchain : ∀ z ∈ s.chain, ∀ line ∈ ls, ∀ y ∈ Directive.target? dir line,
      Relation.TransGen fs.Includes z y)
    {x : Path} (he : r = .error e) (hcause : e.cause = .circular x) :
    Relation.TransGen fs.Includes x x := by
  induction h generalizing e with
  | nil => cases he
  | stops hneed =>
    cases he
    obtain ⟨-, -, hcircular⟩ := need_eq_nothing hneed
    obtain ⟨htarget, hx⟩ := hcircular _ x rfl hcause
    exact hchain x hx _ List.mem_cons_self x htarget
  | next hneed _ ih =>
    have hsame := (need_eq_nothing hneed).1.1
    refine ih (fun z hz line hline => ?_) (error_of_map he) hcause
    exact hchain z (hsame ▸ hz) line (List.mem_cons_of_mem _ hline)
  | unreadable =>
    cases he
    cases hcause
  | fails hneed hread _ ih =>
    cases he
    refine ih (fun z hz line hline y hy => ?_) rfl hcause
    have hincludes := (FileSystem.includes_iff hread).mpr ⟨line, hline, hy⟩
    rcases List.mem_cons.mp hz with rfl | hz
    · exact .single hincludes
    · exact .tail (hchain z hz _ List.mem_cons_self _ (need_eq_file hneed).1)
        hincludes
  | includes hneed _ hfile _ _ ih =>
    have hsame := chain_leave hfile.chain_eq (need_eq_file hneed).2.1
    refine ih (fun z hz line hline => ?_) (error_of_map he) hcause
    exact hchain z (hsame ▸ hz) line (List.mem_cons_of_mem _ hline)

/-! ### What is computed -/

theorem expandLine_of_inclusion
    (h : Directive.ofLine? line = some (.inclusion rest))
    (includeFile : Session → Bytes → Session × Except SourceError Bytes) :
    expandLine includeFile s line = includeFile s rest := by
  rw [expandLine, h]

theorem expandLine_of_nothing (fs : FileSystem) (fuel : Nat)
    {out : Except SourceError Bytes} (h : s.need dir line = .nothing s' out) :
    expandLine (includeFile fs fuel dir) s line = (s', out) := by
  rcases need_cases s dir line with
    ⟨rest, e, hline, hwanted, hneed⟩ | ⟨rest, hline, hwanted, hneed⟩
    | ⟨_, _, _, _, hneed⟩ | ⟨hline, hneed⟩
  · cases hneed.symm.trans h
    rw [expandLine_of_inclusion hline, includeFile, hwanted]
  · cases hneed.symm.trans h
    rw [expandLine_of_inclusion hline, includeFile, hwanted]
  · cases hneed.symm.trans h
  · obtain ⟨rfl, rfl⟩ := Need.nothing.inj (hneed.symm.trans h)
    exact (expandLine_of_not_inclusion s hline (includeFile fs fuel dir)
      refuseFile).1

theorem expandLine_of_file (fs : FileSystem) (fuel : Nat)
    (h : s.need dir line = .file path) :
    ∃ rest, s.wanted dir rest = .ok (some path) ∧
      expandLine (includeFile fs fuel dir) s line =
        includeFile fs fuel dir s rest := by
  rcases need_cases s dir line with ⟨_, _, _, _, hneed⟩ | ⟨_, _, _, hneed⟩
      | ⟨rest, _, hline, hwanted, hneed⟩ | ⟨_, hneed⟩
  all_goals cases hneed.symm.trans h
  exact ⟨rest, hwanted, expandLine_of_inclusion hline _⟩

/-- The files of a chain are different files of the system. -/
structure Chained (s : Session) (fs : FileSystem) : Prop where
  nodup : s.chain.Nodup
  files : ∀ p ∈ s.chain, p ∈ fs.names

theorem Chained.enter {data : Bytes} (h : s.Chained fs) (hpath : path ∉ s.chain)
    (hread : fs.read path = .ok data) : (s.enter path).Chained fs :=
  ⟨List.nodup_cons.mpr ⟨hpath, h.nodup⟩,
    List.forall_mem_cons.mpr ⟨fs.mem_names hread, h.files⟩⟩

theorem Chained.length_le (h : s.Chained fs) :
    s.chain.length ≤ fs.names.length :=
  (h.nodup.subperm h.files).length_le

section

variable {includeFile : Session → Bytes → Session × Except SourceError Bytes}
  {mid : Session}

theorem expandLines_cons_error
    (h : expandLine includeFile s line = (s', .error e)) :
    expandLines includeFile n s (line :: ls) = (s', .error (.inLine n e)) := by
  rw [expandLines, h]

theorem expandLines_cons_ok {out : Bytes}
    (h : expandLine includeFile s line = (mid, .ok out)) :
    expandLines includeFile n s (line :: ls) =
      ((expandLines includeFile (n + 1) mid ls).1,
        (expandLines includeFile (n + 1) mid ls).2.map (out :: ·)) := by
  rw [expandLines, h]
  dsimp only
  rcases expandLines includeFile (n + 1) mid ls with ⟨s', e | outs⟩ <;> rfl

end

/-- With as much fuel as there are files outside of the chain, what is computed
is a run. -/
theorem runs_expandLines {fuel : Nat} (hs : s.Chained fs)
    (hfuel : fs.names.length ≤ fuel + s.chain.length) (dir : Path) (n : Nat)
    (ls : List Bytes) :
    ∃ tried,
      Runs fs dir n s ls tried (expandLines (includeFile fs fuel dir) n s ls).1
      (expandLines (includeFile fs fuel dir) n s ls).2 := by
  induction fuel using Nat.strong_induction_on generalizing s dir n ls with
  | h fuel ihFuel =>
    induction ls generalizing n s with
    | nil => exact ⟨[], .nil⟩
    | cons line ls ih =>
      -- a session with the same chain goes on with the lines behind
      have hmore {mid : Session} (hchain : mid.chain = s.chain) := ih (s := mid)
        ⟨hchain ▸ hs.nodup, hchain ▸ hs.files⟩ (hchain ▸ hfuel) (n + 1)
      cases hneed : s.need dir line with
      | nothing mid out =>
        have hline := expandLine_of_nothing fs fuel hneed
        cases out with
        | error e =>
          rw [expandLines_cons_error hline]
          exact ⟨[], .stops hneed⟩
        | ok out =>
          obtain ⟨tried, hrest⟩ := hmore (need_eq_nothing hneed).1.1
          rw [expandLines_cons_ok hline]
          exact ⟨tried, .next hneed hrest⟩
      | file path =>
        obtain ⟨rest, hwanted, hline⟩ := expandLine_of_file fs fuel hneed
        obtain ⟨-, hpath, -⟩ := need_eq_file hneed
        rw [includeFile, hwanted] at hline
        cases hread : fs.read path with
        | error e =>
          simp only [hread] at hline
          rw [expandLines_cons_error hline]
          exact ⟨[path], .unreadable hneed hread⟩
        | ok data =>
          have hinner := hs.enter hpath hread
          have hlength : s.chain.length + 1 ≤ fs.names.length :=
            hinner.length_le
          obtain ⟨fuel, rfl⟩ : ∃ less, fuel = less + 1 := ⟨fuel - 1, by omega⟩
          obtain ⟨tried, hfile⟩ :=
            ihFuel fuel (Nat.lt_succ_self fuel) hinner
              (show fs.names.length ≤ fuel + (s.chain.length + 1) by omega)
              path.dir 1 (Bytes.lines data)
          simp only [hread, expandText] at hline
          rcases hresult :
            expandLines (Session.includeFile fs fuel path.dir) 1 (s.enter path)
            (Bytes.lines data) with ⟨inner, e | outs⟩
          · rw [hresult] at hfile
            simp only [hresult] at hline
            rw [expandLines_cons_error hline]
            exact ⟨_, .fails hneed hread hfile⟩
          · rw [hresult] at hfile
            simp only [hresult] at hline
            obtain ⟨tried', hrest⟩ := hmore (chain_leave hfile.chain_eq hpath)
            rw [expandLines_cons_ok hline]
            exact ⟨_, .includes hneed hread hfile hrest⟩

theorem expandText_eq
    (includeFile : Session → Bytes → Session × Except SourceError Bytes)
    (s : Session) (src : Bytes) :
    expandText includeFile s src =
      ((expandLines includeFile 1 s (Bytes.lines src)).1,
        (expandLines includeFile 1 s (Bytes.lines src)).2.map
        [byte '\n'].intercalate) := by
  rw [expandText]
  rcases expandLines includeFile 1 s (Bytes.lines src) with
      ⟨s', e | outs⟩ <;> rfl

def RunsOn (fs : FileSystem) (dir : Path) (s : Session) (src : Bytes)
    (tried : List Path) (s' : Session) (r : Except SourceError Bytes) : Prop :=
  ∃ outs, Runs fs dir 1 s (Bytes.lines src) tried s' outs ∧
    r = outs.map [byte '\n'].intercalate

/-- In every file system a text has exactly one run, and that is what is
computed from it. The run tries no file twice and leaves the chain empty,
however it ends. If it succeeds, it has read the files that the text reaches,
and none of them includes itself, be it through other files. If it fails because
of a circular include, the file does include itself. -/
theorem includes_are_acyclic (fs : FileSystem) (t : Macros) (dir : Path)
    (src : Bytes) :
    let run := Session.expand { macros := t } (some fs) dir src
    ∃ tried : List Path,
      (∀ tried' s r, RunsOn fs dir { macros := t } src tried' s r ↔
        tried' = tried ∧ s = run.1 ∧ r = run.2) ∧ tried.Nodup ∧
        run.1.chain = [] ∧
        (∀ out, run.2 = .ok out → ∀ x, (x ∈ tried ↔ fs.Reaches dir src x) ∧
          (fs.Reaches dir src x → ¬ Relation.TransGen fs.Includes x x)) ∧ ∀ e x,
          run.2 = .error e → e.cause = .circular x →
          Relation.TransGen fs.Includes x x := by
  intro run
  have hchained : Chained { macros := t } fs :=
    ⟨List.nodup_nil, fun p hp => absurd hp List.not_mem_nil⟩
  have hsettled : Settled { macros := t } fs :=
    ⟨fun x y hx => absurd hx.1 List.not_mem_nil,
      fun x hx => absurd hx.1 List.not_mem_nil⟩
  obtain ⟨tried, hruns⟩ :=
    runs_expandLines hchained (Nat.le_refl fs.names.length) dir 1
      (Bytes.lines src)
  have hrun : run = _ :=
    expandText_eq (includeFile fs fs.names.length dir) { macros := t } src
  rcases hlast :
    expandLines (includeFile fs fs.names.length dir) 1 { macros := t }
    (Bytes.lines src) with ⟨last, outs⟩
  rw [hlast] at hruns hrun
  rw [hrun]
  obtain ⟨hnodup, -, hdone⟩ := hruns.tried_nodup
  refine ⟨tried, fun tried' s r => ⟨?_, ?_⟩, hnodup, hruns.chain_eq,
    fun out hout x => ?_, fun e x he hcause => ?_⟩
  · rintro ⟨outs', hother, rfl⟩
    obtain ⟨rfl, rfl, rfl⟩ := hruns.unique hother
    exact ⟨rfl, rfl, rfl⟩
  · rintro ⟨rfl, rfl, rfl⟩
    exact ⟨outs, hruns, rfl⟩
  · obtain ⟨outs, rfl, -⟩ := ok_of_map hout
    obtain ⟨hsettled, -, hlines⟩ := hruns.settled rfl hsettled
    have hfinished : fs.Reaches dir src x → last.Finished x := by
      rintro ⟨y, hy, hreach⟩
      obtain ⟨line, hline, htarget⟩ := List.mem_filterMap.mp hy
      exact hsettled.reaches (hlines line hline y htarget) hreach
    refine ⟨⟨fun hx => ?_, fun hx => ?_⟩,
      fun hx => hsettled.acyclic x (hfinished hx)⟩
    · obtain ⟨line, hline, y, hy, hreach⟩ := hruns.reached x hx
      exact ⟨y, List.mem_filterMap.mpr ⟨line, hline, hy⟩, hreach⟩
    · exact ((hdone rfl x).mp (hfinished hx).1).resolve_right List.not_mem_nil
  · exact hruns.circular (fun z hz => absurd hz List.not_mem_nil)
      (error_of_map he) hcause

/-- Two files that include a third one, the second of them in a directory of its
own. -/
def diamond : FileSystem :=
  .ofFiles [(text "a", text "#include \"c\"\nA"),
    (text "d/b", text "#include \"../c\""), (text "c", text "C")]

/-- Two files that include each other. -/
def loop : FileSystem :=
  .ofFiles [(text "x", text "#include \"y\""),
    (text "y", text "Y\n#include \"./x\"")]

theorem includes_are_acyclic_diamondAndLoop :
    let src := text "#include \"a\"\n#include \"d/b\""
    (Session.expand {} (some diamond) Path.dot src).2 = .ok (text "C\nA\n") ∧
    (∀ x, diamond.Reaches Path.dot src x →
      ¬ Relation.TransGen diamond.Includes x x) ∧
      (Session.expand {} (some loop) Path.dot (text "#include \"x\"")).2 =
      .error (.inLine 1
        (.inFile (text "x")
          (.inLine 1
            (.inFile (text "y") (.inLine 2 (.circular (text "x"))))))) ∧
            Relation.TransGen loop.Includes (text "x") (text "x") := by
  intro src
  have hdiamond : (Session.expand {} (some diamond) Path.dot src).2 =
      .ok (text "C\nA\n") := by decide +kernel
  have hloop :
      (Session.expand {} (some loop) Path.dot (text "#include \"x\"")).2 =
      .error (.inLine 1
      (.inFile (text "x")
      (.inLine 1
      (.inFile (text "y") (.inLine 2 (.circular (text "x"))))))) := by
    decide +kernel
  obtain ⟨_, -, -, -, hacyclic, -⟩ :=
    includes_are_acyclic diamond [] Path.dot src
  obtain ⟨_, -, -, -, -, hcircular⟩ :=
    includes_are_acyclic loop [] Path.dot (text "#include \"x\"")
  exact ⟨hdiamond, fun x => (hacyclic _ hdiamond x).2, hloop,
    hcircular _ _ hloop rfl⟩

end Session

end StackC
