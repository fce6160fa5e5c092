import StackC.Proofs.Calls
import StackC.Proofs.Formats

/-!
The pool of string constants in use. Strings are asked for in any order, some of
them again and again. Each is laid out once, behind those that were asked for
before it, so addresses stay what they are and the strings follow one another in
the data without a gap. A machine that starts on the data reads them back.
-/

namespace StackC

namespace Pool

/-- Where a string lies if strings are laid out one after the other from `start`
on. -/
def place (start : Nat) : List Bytes → Bytes → Nat
  | [], _ => start
  | d :: ds, s => if d = s then start else place (start + (d.length + 1)) ds s

/-- The cells that a string takes where it is placed, its closing zero
included. -/
def room (place : Bytes → Nat) (s : Bytes) : List Nat :=
  List.range' (place s) (s.length + 1)

variable {start i : Nat} {ds : List Bytes} {s t d : Bytes}

theorem length_cells (s : Bytes) : (cells s).length = s.length + 1 := by
  simp [cells]

theorem place_self (start : Nat) (ds : List Bytes) (s : Bytes) :
    place start (s :: ds) s = start :=
  if_pos rfl

theorem place_cons (h : d ≠ s) :
    place start (d :: ds) s = place (start + (d.length + 1)) ds s :=
  if_neg h

theorem le_place (start : Nat) (ds : List Bytes) (s : Bytes) :
    start ≤ place start ds s := by
  induction ds generalizing start with
  | nil => exact Nat.le_refl start
  | cons d ds ih =>
    rw [place]
    split
    · exact Nat.le_refl start
    · have := ih (start + (d.length + 1))
      omega

/-- Strings that are added behind do not move those before them. -/
theorem place_append (hs : s ∈ ds) (more : List Bytes) :
    place start (ds ++ more) s = place start ds s := by
  induction ds generalizing start with
  | nil => cases hs
  | cons d ds ih =>
    rw [List.cons_append, place, place]
    split
    next => rfl
    next hne => exact ih ((List.mem_cons.mp hs).resolve_left (Ne.symm hne))

/-- A new string is placed behind all others. -/
theorem place_new (hs : s ∉ ds) :
    place start (ds ++ [s]) s = start + (ds.flatMap cells).length := by
  induction ds generalizing start with
  | nil => exact place_self start [] s
  | cons d ds ih =>
    obtain ⟨hne, hs⟩ := List.ne_and_not_mem_of_not_mem_cons hs
    rw [List.cons_append, place_cons (Ne.symm hne), ih hs, List.flatMap_cons,
      List.length_append, length_cells]
    omega

/-- What lies at the place of a string are its cells. -/
theorem cells_at_place (hs : s ∈ ds) {before : List Cell}
    (hbefore : before.length = start) :
    cells s <+: (before ++ ds.flatMap cells).drop (place start ds s) := by
  induction ds generalizing start before with
  | nil => cases hs
  | cons d ds ih =>
    rw [List.flatMap_cons]
    by_cases hne : d = s
    · subst hne
      rw [place_self, List.drop_left' hbefore]
      exact List.prefix_append _ _
    · rw [place_cons hne, ← List.append_assoc]
      refine ih ((List.mem_cons.mp hs).resolve_left (Ne.symm hne)) ?_
      rw [List.length_append, length_cells, hbefore]

/-- Of two strings one ends before the other begins. -/
theorem place_apart (start : Nat) (hs : s ∈ ds) (ht : t ∈ ds) (hne : s ≠ t) :
    place start ds s + (s.length + 1) ≤ place start ds t ∨
      place start ds t + (t.length + 1) ≤ place start ds s := by
  induction ds generalizing start with
  | nil => cases hs
  | cons d ds ih =>
    by_cases hds : d = s
    · subst hds
      rw [place_self, place_cons hne]
      exact Or.inl (le_place _ ds t)
    · by_cases hdt : d = t
      · subst hdt
        rw [place_self, place_cons hds]
        exact Or.inr (le_place _ ds s)
      · rw [place_cons hds, place_cons hdt]
        exact ih _ ((List.mem_cons.mp hs).resolve_left (Ne.symm hds))
          ((List.mem_cons.mp ht).resolve_left (Ne.symm hdt))

/-- Each cell belongs to a string. -/
theorem exists_mem_room (hnodup : ds.Nodup) (hlow : start ≤ i)
    (hhigh : i < start + (ds.flatMap cells).length) :
    ∃ s ∈ ds, i ∈ room (place start ds) s := by
  induction ds generalizing start with
  | nil => exact absurd hhigh (Nat.not_lt.mpr hlow)
  | cons d ds ih =>
    rw [List.flatMap_cons, List.length_append, length_cells] at hhigh
    obtain ⟨hd, hnodup⟩ := List.nodup_cons.mp hnodup
    by_cases hi : i < start + (d.length + 1)
    · refine ⟨d, List.mem_cons_self, ?_⟩
      rw [room, place_self, List.mem_range'_1]
      exact ⟨hlow, hi⟩
    · obtain ⟨s, hs, hroom⟩ := ih hnodup (Nat.le_of_not_lt hi) (by omega)
      refine ⟨s, List.mem_cons_of_mem d hs, ?_⟩
      have hne : d ≠ s := by
        rintro rfl
        exact hd hs
      rw [room, place_cons hne]
      exact hroom

/-- A pool holds exactly these strings, in this order. -/
structure Stores (p : Pool) (ds : List Bytes) : Prop where
  nodup : ds.Nodup
  data : p.data.toList = 0 :: ds.flatMap cells
  address : ∀ s, p.address? s = if s ∈ ds then some (Int64.ofNat (place 1 ds s))
    else none

theorem stores_empty : Stores {} [] :=
  ⟨List.nodup_nil, rfl, fun _ => rfl⟩

variable {p : Pool}

theorem Stores.size_eq (h : p.Stores ds) :
    p.data.size = 1 + (ds.flatMap cells).length := by
  rw [← Array.length_toList, h.data, List.length_cons, Nat.add_comm]

theorem Stores.holds (h : p.Stores ds) (hs : s ∈ ds) :
    HoldsString p.data (place 1 ds s) s := by
  rw [HoldsString, h.data]
  exact cells_at_place hs (show [(0 : Cell)].length = 1 from rfl)

/-- All cells but the null cell belong to a string. -/
theorem Stores.lt_size_iff (h : p.Stores ds) (i : Nat) :
    i < p.data.size ↔ i = 0 ∨ ∃ s ∈ ds, i ∈ room (place 1 ds) s := by
  constructor
  · intro hi
    rw [h.size_eq] at hi
    rcases Nat.eq_zero_or_pos i with hzero | hpos
    · exact Or.inl hzero
    · exact Or.inr (exists_mem_room h.nodup hpos hi)
  · rintro (rfl | ⟨s, hs, hroom⟩)
    · rw [h.size_eq]
      omega
    · have hinside := (h.holds hs).lt_size
      rw [room, List.mem_range'_1] at hroom
      omega

theorem Stores.toInt_place (h : p.Stores ds) (hsize : p.data.size < 2 ^ 63)
    (hs : s ∈ ds) : (Int64.ofNat (place 1 ds s)).toInt = place 1 ds s := by
  have hinside := (h.holds hs).lt_size
  exact Int64.toInt_ofNat_of_lt (by omega)

/-- A machine that starts on the data finds the string at its place. -/
theorem Stores.readString (h : p.Stores ds) (hsize : p.data.size < 2 ^ 63)
    (hs : s ∈ ds) {prog : Program} (hprog : prog.data = p.data) :
    (Machine.start prog).readString (Int64.ofNat (place 1 ds s)) =
      (Machine.start prog, .ok (s.takeWhile (· != 0))) := by
  have hpositive := le_place 1 ds s
  have hread : stringAt p.data (Int64.ofNat (place 1 ds s)) =
      .ok (s.takeWhile (· != 0)) := by
    refine stringAt_of_holds ?_ ?_
    · rw [h.toInt_place hsize hs]
      omega
    · rw [h.toInt_place hsize hs]
      exact h.holds hs
  rw [Machine.readString,
    Machine.memory_start (by rw [hprog, h.size_eq]; omega), hprog, hread]

/-- A string that is known is not added again, any other one is added behind
those that are there. -/
theorem Stores.intern (h : p.Stores ds) (s : Bytes) :
    ∃ more, (p.intern s).2.Stores (ds ++ more) ∧
      ∀ t, t ∈ ds ++ more ↔ t ∈ ds ∨ t = s := by
  have hknown := h.address s
  rw [address?] at hknown
  by_cases hs : s ∈ ds
  · rw [if_pos hs] at hknown
    obtain ⟨e, he, -⟩ := Option.map_eq_some_iff.mp hknown
    refine ⟨[], ?_, fun t => ?_⟩
    · rw [Pool.intern, he, List.append_nil]
      exact h
    · rw [List.append_nil]
      refine ⟨Or.inl, ?_⟩
      rintro (ht | rfl)
      · exact ht
      · exact hs
  · rw [if_neg hs, Option.map_eq_none_iff] at hknown
    have hdisjoint : ∀ t ∈ ds, t ≠ s := fun t ht heq => hs (heq ▸ ht)
    refine ⟨[s], ⟨?_, ?_, fun t => ?_⟩, fun t => by simp⟩
    · exact List.nodup_append.mpr
        ⟨h.nodup, List.nodup_singleton s, by simpa using hdisjoint⟩
    · simp [Pool.intern, hknown, h.data]
    · by_cases ht : s = t
      · subst ht
        simp [Pool.intern, hknown, address?, place_new hs, h.size_eq]
      · have hkept : (p.intern s).2.address? t = p.address? t := by
          simp [Pool.intern, hknown, address?, ht]
        rw [hkept, h.address]
        by_cases hmem : t ∈ ds
        · rw [if_pos hmem, if_pos (List.mem_append_left [s] hmem),
            place_append hmem]
        · rw [if_neg hmem, if_neg (by simpa [Ne.symm ht] using hmem)]

def addresses : Pool → List Bytes → List Cell
  | _, [] => []
  | p, s :: ss => (p.intern s).1 :: addresses (p.intern s).2 ss

/-- Whatever is asked for, the pool goes on from what it holds, and an address
is the place of the string among all that the pool holds in the end. -/
theorem Stores.addAll (h : p.Stores ds) (ss : List Bytes) :
    ∃ more, (p.addAll ss).Stores (ds ++ more) ∧
      (∀ t, t ∈ ds ++ more ↔ t ∈ ds ∨ t ∈ ss) ∧
      p.addresses ss = ss.map fun s =>
        Int64.ofNat (place 1 (ds ++ more) s) := by
  induction ss generalizing p ds with
  | nil => exact ⟨[], by rwa [List.append_nil], fun t => by simp, rfl⟩
  | cons s ss ih =>
    obtain ⟨first, hfirst, hmem⟩ := h.intern s
    obtain ⟨more, hmore, hmems, haddrs⟩ := ih hfirst
    rw [List.append_assoc] at hmore hmems haddrs
    refine ⟨first ++ more, hmore, fun t => ?_, ?_⟩
    · rw [hmems, hmem, List.mem_cons, or_assoc]
    · have hs : s ∈ ds ++ first := (hmem s).mpr (Or.inr rfl)
      have haddr : (p.intern s).1 = Int64.ofNat (place 1 (ds ++ first) s) := by
        have hnew := hfirst.address s
        rw [address?_intern, if_pos hs] at hnew
        exact Option.some.inj hnew
      rw [addresses, haddrs, haddr, ← place_append hs more, List.append_assoc]
      rfl

theorem stores_addAll (ss : List Bytes) :
    ∃ ds, (addAll {} ss).Stores ds ∧ (∀ t, t ∈ ds ↔ t ∈ ss) ∧
      addresses {} ss = ss.map fun s => Int64.ofNat (place 1 ds s) := by
  obtain ⟨ds, hstores, hmem, haddrs⟩ := stores_empty.addAll ss
  exact ⟨ds, hstores, fun t => by simpa using hmem t, haddrs⟩

/-- The data only grow at the end. -/
theorem data_prefix_addAll (ss ss' : List Bytes) :
    (addAll {} ss).data.toList <+: (addAll {} (ss ++ ss')).data.toList := by
  obtain ⟨ds, hstores, -⟩ := stores_addAll ss
  obtain ⟨more, hmore, -⟩ := hstores.addAll ss'
  rw [addAll_append, hmore.data, hstores.data, List.flatMap_append,
    ← List.cons_append]
  exact List.prefix_append _ _

/-- However strings are asked for, the data only grow at the end and begin with
the null cell. Each string has one place, whose address it is given every time,
with its bytes and a closing zero from there on. The places of different strings
have no cell in common, and all cells but the null cell belong to a string. A
machine that starts on the data reads at the address of a string what the string
holds before its first zero byte. -/
theorem strings_are_stored_once (ss : List Bytes)
    (hsize : (addAll {} ss).data.size < 2 ^ 63) :
    (∀ m n, m ≤ n →
      (addAll {} (ss.take m)).data.toList <+:
        (addAll {} (ss.take n)).data.toList) ∧
    (∀ n, (addAll {} (ss.take n)).data[0]? = some 0) ∧
    ∃ place : Bytes → Nat,
      addresses {} ss = ss.map (fun s => Int64.ofNat (place s)) ∧
    (∀ s ∈ ss, 1 ≤ place s ∧ (Int64.ofNat (place s)).toInt = place s ∧
      HoldsString (addAll {} ss).data (place s) s) ∧
    (∀ s ∈ ss, ∀ t ∈ ss, s ≠ t → (room place s).Disjoint (room place t)) ∧
    (∀ i, i < (addAll {} ss).data.size ↔ i = 0 ∨ ∃ s ∈ ss, i ∈ room place s) ∧
    ∀ p : Program, p.data = (addAll {} ss).data →
      ∀ s ∈ ss, (Machine.start p).readString (Int64.ofNat (place s)) =
        (Machine.start p, .ok (s.takeWhile (· != 0))) := by
  obtain ⟨ds, hstores, hmem, haddrs⟩ := stores_addAll ss
  refine ⟨?_, ?_, place 1 ds, haddrs, fun s hs => ⟨le_place 1 ds s, ?_, ?_⟩, ?_,
    fun i => ?_, ?_⟩
  · intro m n hle
    have hsplit : ss.take n = ss.take m ++ (ss.take n).drop m := by
      conv_lhs => rw [← List.take_append_drop m (ss.take n), List.take_take,
        Nat.min_eq_left hle]
    rw [hsplit]
    exact data_prefix_addAll _ _
  · intro n
    obtain ⟨_, hstores, -⟩ := stores_addAll (ss.take n)
    rw [← Array.getElem?_toList, hstores.data]
    rfl
  · exact hstores.toInt_place hsize ((hmem s).mpr hs)
  · exact hstores.holds ((hmem s).mpr hs)
  · intro s hs t ht hne i his hit
    rw [room, List.mem_range'_1] at his hit
    have := place_apart 1 ((hmem s).mpr hs) ((hmem t).mpr ht) hne
    omega
  · simp only [hstores.lt_size_iff, hmem]
  · intro p hp s hs
    exact hstores.readString hsize ((hmem s).mpr hs) hp

/-- A string, the empty string, one with a zero byte inside, the first two
again, and a beginning of the first. -/
def repeated : List Bytes :=
  [[104, 105], [], [7, 0, 255], [], [104, 105], [104]]

theorem strings_are_stored_once_repeated :
    let p : Program :=
      { code := #[], data := (addAll {} repeated).data, entry := 0,
        funcs := {} }
    (addAll {} repeated).data.size < 2 ^ 63 ∧
    addresses {} repeated = [1, 4, 5, 4, 1, 9] ∧
    (addAll {} repeated).data = #[0, 104, 105, 0, 0, 7, 0, 255, 0, 104, 0] ∧
    (Machine.start p).readString 1 = (Machine.start p, .ok [104, 105]) ∧
    (Machine.start p).readString 5 = (Machine.start p, .ok [7]) := by
  intro p
  have hsize : (addAll {} repeated).data.size < 2 ^ 63 := by decide +kernel
  have haddrs : addresses {} repeated = [1, 4, 5, 4, 1, 9] := by decide +kernel
  obtain ⟨-, -, place, hplaces, -, -, -, hread⟩ :=
    strings_are_stored_once repeated hsize
  rw [haddrs] at hplaces
  have hone : Int64.ofNat (place [104, 105]) = 1 :=
    (List.cons.inj hplaces).1.symm
  have hfive : Int64.ofNat (place [7, 0, 255]) = 5 :=
    (List.cons.inj (congrArg (List.drop 2) hplaces)).1.symm
  refine ⟨hsize, haddrs, by decide +kernel, ?_, ?_⟩
  · rw [← hone]
    exact hread p rfl [104, 105] (by decide)
  · rw [← hfive]
    exact hread p rfl [7, 0, 255] (by decide)

end Pool

end StackC
