import StackC.Proofs.Revisions

/-!
Labels in use. As long as the operand of a jump is left to its label, every
address waits for one label at most and every jump that waits is open, so
binding a label is never refused. A jump then carries the address of its label
whichever of the two came first, and it is open for as long as the label has no
address.
-/

namespace StackC

namespace Draft

/-- Whether an operation gives an address to a label: it binds the label or
makes it bound. -/
def binds (d : Draft) (l : LabelId) : DraftOp → Bool
  | .bind k => k == l
  | .here => l == d.labels.size
  | _ => false

/-- The size of the draft when the first of some operations gives an address to
a label. -/
def boundBy (l : LabelId) : Draft → List DraftOp → Option Nat
  | _, [] => none
  | d, op :: ops =>
    if d.binds l op then some d.size else (d.perform op).1.boundBy l ops

/-- The addresses at which an operation adds a jump to a label. -/
def jumps (d : Draft) : DraftOp → List Nat
  | .jump _ _ => [d.size]
  | _ => []

/-- The addresses at which operations in turn add jumps to labels. -/
def jumpedBy : Draft → List DraftOp → List Nat
  | _, [] => []
  | d, op :: ops => d.jumps op ++ (d.perform op).1.jumpedBy ops

/-- Whether an operation uses only labels that have been made, and leaves the
operands at given addresses alone, unless it binds a label. -/
def allows (d : Draft) (jumped : List Nat) : DraftOp → Bool
  | .jump _ l | .bind l => l < d.labels.size
  | .fill addr _ => jumped.all fun (place : Nat) => addr != place
  | _ => true

/-- Whether operations in turn use only labels that have been made, and leave
the operands of the jumps before them to the labels. The jumps so far are at
given addresses. -/
def allowsAll : Draft → List Nat → List DraftOp → Bool
  | _, _, [] => true
  | d, jumped, op :: ops =>
    d.allows jumped op &&
      (d.perform op).1.allowsAll (jumped ++ d.jumps op) ops

variable {d d' : Draft} {jumped : List Nat} {op : DraftOp} {ops : List DraftOp}

theorem allowsAll_append {ops' : List DraftOp} :
    d.allowsAll jumped (ops ++ ops') = true ↔
      d.allowsAll jumped ops = true ∧
        (d.after ops).allowsAll (jumped ++ d.jumpedBy ops) ops' = true := by
  induction ops generalizing d jumped with
  | nil => simp [allowsAll, jumpedBy]
  | cons op ops ih => simp [allowsAll, jumpedBy, ih, and_assoc]

/-- The jumps that wait are open, each for one label, and all are at given
addresses. -/
structure Linked (d : Draft) (jumped : List Nat) : Prop where
  waits : d.Waits fun _ => true
  mem : ∀ l, ∀ addr ∈ d.pending l, addr ∈ jumped

/-- What is filled is nothing that waits for a label, and no label changes. -/
theorem Linked.of_evolves {opened filled : List Nat} (h : d.Linked jumped)
    (hevolves : d.Evolves d' opened filled)
    (hpending : ∀ l, d'.pending l = d.pending l)
    (hfilled : ∀ addr ∈ filled, addr ∉ jumped) : d'.Linked jumped := by
  refine ⟨h.waits.of_opens hpending fun l addr haddr op _ hopen => ?_,
    fun l addr haddr => ?_⟩
  · exact hevolves.openAt hopen fun hmem =>
      hfilled addr hmem (h.mem l addr haddr)
  · rw [hpending] at haddr
    exact h.mem l addr haddr

theorem Linked.jump (h : d.Linked jumped) (op : Opcode) (l : LabelId) :
    (d.jump op l).Linked (jumped ++ [d.size]) := by
  refine ⟨h.waits.jump rfl l, fun k addr haddr => ?_⟩
  cases hbound : (d.label l).addr with
  | some target =>
    simp only [Draft.jump, hbound] at haddr
    exact List.mem_append_left _ (h.mem k addr haddr)
  | none =>
    rw [pending_jump_of_free op hbound] at haddr
    split at haddr
    next =>
      rcases List.mem_cons.mp haddr with rfl | hold
      · simp
      · exact List.mem_append_left _ (h.mem k addr hold)
    next => exact List.mem_append_left _ (h.mem k addr haddr)

/-- A label that has an address keeps it; any other can be bound. -/
theorem Linked.bind_cases (h : d.Linked jumped) (hsize : d.size < 2 ^ 63)
    (l : LabelId) :
    (∃ target, (d.label l).addr = some target ∧ (d.bind l).1 = d) ∨
      (d.label l).addr = none ∧
        ∃ d', d.bind l = (d', none) ∧ d'.Linked jumped := by
  cases hbound : (d.label l).addr with
  | some target => exact Or.inl ⟨target, rfl, by simp only [bind, hbound]⟩
  | none =>
    obtain ⟨d', hbind, hlines⟩ := exists_bind h.waits hbound hsize
    refine Or.inr ⟨rfl, d', hbind, h.waits.bind hbind hlines,
      fun k addr haddr => ?_⟩
    obtain ⟨-, hlabel, hempty⟩ := labels_bind hbind
    by_cases hk : k = l
    · rw [hk, hempty] at haddr
      cases haddr
    · rw [pending, hlabel k hk] at haddr
      exact h.mem k addr haddr

theorem Linked.perform (h : d.Linked jumped) (hop : d.allows jumped op = true)
    (hsize : d.size < 2 ^ 63) :
    (d.perform op).1.Linked (jumped ++ d.jumps op) := by
  have hevolves := evolves_perform d op
  cases op with
  | jump op l => exact h.jump op l
  | emit | emitOpen =>
    simp only [jumps, List.append_nil]
    exact h.of_evolves hevolves (fun _ => rfl) (by simp [fills])
  | newLabel =>
    simp only [jumps, List.append_nil]
    exact h.of_evolves hevolves d.pending_newLabel (by simp [fills])
  | here =>
    simp only [jumps, List.append_nil]
    exact h.of_evolves hevolves d.pending_here (by simp [fills])
  | fill addr operand =>
    simp only [jumps, List.append_nil]
    simp only [Draft.perform, fills] at hevolves ⊢
    cases hfill : d.fill addr operand with
    | error e => exact h
    | ok d' =>
      rw [hfill] at hevolves
      obtain ⟨hrefusal, rfl⟩ := fill_eq_ok_iff.mp hfill
      have hnonneg : 0 ≤ addr := (refusal?_eq_none_iff.mp hrefusal).1
      refine h.of_evolves hevolves (fun _ => rfl) fun place hplace hjumped => ?_
      have hne : addr ≠ place := by
        simpa using List.all_eq_true.mp hop place hjumped
      have heq : place = addr.toNat := List.mem_singleton.mp hplace
      omega
  | bind l =>
    simp only [jumps, List.append_nil]
    rcases h.bind_cases hsize l with ⟨-, -, hsame⟩ | ⟨-, d', hbind, hlinked⟩
    · simpa only [Draft.perform, hsame] using h
    · simpa only [Draft.perform, hbind] using hlinked

theorem Linked.grows (h : d.Linked jumped) (hop : d.allows jumped op = true)
    (hsize : d.size < 2 ^ 63) : d.Grows (d.perform op).1 := by
  cases op with
  | emit op operand => exact grows_emit d op operand
  | emitOpen op => exact grows_emitOpen d op
  | newLabel => exact grows_newLabel d
  | here => exact grows_here d
  | jump op l => exact grows_jump d op l
  | fill addr operand =>
    simp only [Draft.perform]
    cases hfill : d.fill addr operand with
    | error e => exact .refl d
    | ok d' =>
      obtain ⟨place, rfl⟩ :=
        Int.eq_ofNat_of_zero_le
          (refusal?_eq_none_iff.mp (fill_eq_ok_iff.mp hfill).1).1
      exact (fill_spec hfill).1
  | bind l =>
    have hmade : l < d.labels.size := of_decide_eq_true hop
    rcases h.bind_cases hsize l with ⟨-, -, hsame⟩ | ⟨-, d', hbind, -⟩
    · simpa only [Draft.perform, hsame] using Grows.refl d
    · simpa only [Draft.perform, hbind] using (bind_spec hbind hmade).1

/-- A label gets its address from the first operation that gives it one. -/
theorem Linked.addr_perform (h : d.Linked jumped)
    (hop : d.allows jumped op = true) (hsize : d.size < 2 ^ 63) (l : LabelId) :
    ((d.perform op).1.label l).addr =
      (d.label l).addr.or (if d.binds l op then some d.size else none) := by
  cases op with
  | emit | emitOpen => exact (Option.or_none).symm
  | newLabel =>
    simpa [Draft.perform, binds] using congrArg Label.addr (label_newLabel d l)
  | jump op k => simpa [Draft.perform, binds] using addr_jump d op k l
  | here =>
    simp only [Draft.perform, binds, label_here]
    by_cases hl : l = d.labels.size
    · simp [hl, label_of_size_le]
    · simp [hl]
  | fill addr operand =>
    simp only [Draft.perform, binds, Bool.false_eq_true, if_false,
      Option.or_none]
    cases hfill : d.fill addr operand with
    | error e => rfl
    | ok d' =>
      obtain ⟨-, rfl⟩ := fill_eq_ok_iff.mp hfill
      rfl
  | bind k =>
    simp only [Draft.perform, binds, beq_iff_eq]
    rcases h.bind_cases hsize k with
        ⟨target, hbound, hsame⟩ | ⟨hfree, d', hbind, -⟩
    · rw [hsame]
      by_cases hk : k = l
      · rw [← hk, hbound, Option.some_or]
      · rw [if_neg hk, Option.or_none]
    · rw [hbind]
      by_cases hk : k = l
      · have hmade : k < d.labels.size := of_decide_eq_true hop
        rw [← hk, hfree, if_pos rfl, Option.none_or,
          (bind_spec hbind hmade).2.2]
      · rw [if_neg hk, Option.or_none, (labels_bind hbind).2.1 l (Ne.symm hk)]

/-- A jump waits for its label in every later draft in which the label has no
address. -/
theorem mem_pending_of_jump {D : Draft} {op : Opcode} {l : LabelId}
    (hgrow : (d.jump op l).Grows D) (hl : l < d.labels.size)
    (hfree : (D.label l).addr = none) : d.size ∈ D.pending l := by
  have hbefore : ((d.jump op l).label l).addr = none := by
    refine Option.eq_none_iff_forall_ne_some.mpr fun target hbound => ?_
    rw [hgrow.bound l target hbound] at hfree
    cases hfree
  have hmem : d.size ∈ (d.jump op l).pending l := by
    rw [addr_jump] at hbefore
    rw [pending_jump_of_free op hbefore, if_pos ⟨rfl, hl⟩]
    exact List.mem_cons_self
  simp only [pending, hbefore, hfree] at hmem ⊢
  rcases hgrow.waits l d.size hbefore hmem with
      ⟨-, hwaits⟩ | ⟨target, hbound, -⟩
  · exact hwaits
  · rw [hfree] at hbound
    cases hbound

theorem linked_start : ({} : Draft).Linked [] := by
  have hpending : ∀ l, ({} : Draft).pending l = [] := fun _ => rfl
  refine ⟨⟨?_, ?_, ?_⟩, ?_⟩ <;> simp [hpending]

/-- Whatever is done with the labels, the draft grows, what waits stays open,
and each label has the address that the history gives it. -/
theorem Linked.after (h : d.Linked jumped)
    (hops : d.allowsAll jumped ops = true)
    (hsize : (d.after ops).size < 2 ^ 63) :
    d.Grows (d.after ops) ∧ (d.after ops).Linked (jumped ++ d.jumpedBy ops) ∧
      ∀ l, ((d.after ops).label l).addr =
        (d.label l).addr.or (d.boundBy l ops) := by
  induction ops generalizing d jumped with
  | nil =>
    rw [jumpedBy, List.append_nil]
    exact ⟨.refl d, h, fun l => (Option.or_none).symm⟩
  | cons op ops ih =>
    obtain ⟨hop, hrest⟩ := Bool.and_eq_true_iff.mp hops
    have hfits : d.size < 2 ^ 63 :=
      Nat.lt_of_le_of_lt (evolves_after d (op :: ops)).size_le hsize
    obtain ⟨hgrows, hlinked, haddr⟩ := ih (h.perform hop hfits) hrest hsize
    refine ⟨(h.grows hop hfits).trans hgrows, ?_, fun l => ?_⟩
    · rwa [List.append_assoc] at hlinked
    · rw [after_cons, haddr, h.addr_perform hop hfits, boundBy, Option.or_assoc]
      split <;> rfl

/-- A history of labels. The operations may use any labels that have been made
and fill operands anywhere but at the address of an earlier jump. Binding a
label that has no address succeeds. A label has the address that the draft had
reached when the label was first bound or made bound. A jump carries the address
of its label, before or after which it was added, and its operand is open
exactly as long as the label has no address. -/
theorem jumps_reach_their_labels {ops : List DraftOp}
    (hops : ({} : Draft).allowsAll [] ops = true)
    (hsize : (({} : Draft).after ops).size < 2 ^ 63) :
    let start : Draft := {}
    let d := start.after ops
    (∀ earlier l later, ops = earlier ++ .bind l :: later →
      ((start.after earlier).label l).addr = none →
      ((start.after earlier).perform (.bind l)).2 = none) ∧
    (∀ l, (d.label l).addr = start.boundBy l ops) ∧
    ∀ earlier op l later, ops = earlier ++ .jump op l :: later →
      let addr := (start.after earlier).size
      (∀ target, start.boundBy l ops = some target →
        d.instrs[addr]? = some { op, operand := Int64.ofNat target }) ∧
      (addr ∈ d.openAddrs ↔ start.boundBy l ops = none) := by
  intro start d
  have haddr : ∀ l, (d.label l).addr = start.boundBy l ops :=
    (linked_start.after hops hsize).2.2
  -- what the draft is like just before an operation, and that it grows from
  -- there on
  have hsplit : ∀ earlier op later, ops = earlier ++ op :: later →
      (start.after earlier).Linked (start.jumpedBy earlier) ∧
      (start.after earlier).size < 2 ^ 63 ∧
      (start.after earlier).allows (start.jumpedBy earlier) op = true ∧
      ((start.after earlier).perform op).1.Grows d := by
    rintro earlier op later rfl
    obtain ⟨hearlier, hlater⟩ := allowsAll_append.mp hops
    rw [allowsAll, Bool.and_eq_true_iff, List.nil_append] at hlater
    have hd : d = ((start.after earlier).perform op).1.after later :=
      after_append start earlier (op :: later)
    have hfits : (start.after earlier).size < 2 ^ 63 := by
      have hle := (evolves_after (start.after earlier) (op :: later)).size_le
      rw [← after_append] at hle
      exact Nat.lt_of_le_of_lt hle hsize
    have hlinked := (linked_start.after hearlier hfits).2.1
    refine ⟨hlinked, hfits, hlater.1, ?_⟩
    rw [hd]
    exact ((hlinked.perform hlater.1 hfits).after hlater.2 (hd ▸ hsize)).1
  refine ⟨fun earlier l later heq hfree => ?_, haddr,
    fun earlier op l later heq => ?_⟩
  · obtain ⟨hlinked, hfits, -⟩ := hsplit earlier _ later heq
    rcases hlinked.bind_cases hfits l with
        ⟨target, hbound, -⟩ | ⟨-, d', hbind, -⟩
    · rw [hfree] at hbound
      cases hbound
    · simp only [Draft.perform, hbind]
  · obtain ⟨hlinked, hfits, hallows, hgrows⟩ := hsplit earlier _ later heq
    have hmade : l < (start.after earlier).labels.size :=
      of_decide_eq_true hallows
    have hclosed : ∀ target, start.boundBy l ops = some target →
        d.Closed (start.after earlier).size
        { op, operand := Int64.ofNat target } := by
      intro target htarget
      exact closed_jump hgrows hmade ((haddr l).trans htarget)
    refine ⟨fun target htarget => (hclosed target htarget).getElem?_instrs,
      fun hopen => ?_, fun hfree => ?_⟩
    · refine Option.eq_none_iff_forall_ne_some.mpr fun target htarget => ?_
      exact (hclosed target htarget).not_isOpen (mem_openAddrs.mp hopen)
    · have hpending := mem_pending_of_jump hgrows hmade ((haddr l).trans hfree)
      obtain ⟨op, -, hopen⟩ :=
        (linked_start.after hops hsize).2.1.waits.opens l _ hpending
      exact hopen.mem_openAddrs

/-- Two jumps to a label from both sides of its place, a jump back to a label
that is made bound, a call to a label that is never bound, and an operand that
is filled on its own. -/
def forwardAndBack : List DraftOp :=
  [.newLabel, .emitOpen .push, .jump .jumpZero 0, .here, .jump .jump 1,
    .newLabel, .jump .call 2, .fill 0 7, .bind 0, .jump .jump 0]

theorem jumps_reach_their_labels_forwardAndBack :
    let d := ({} : Draft).after forwardAndBack
    ({} : Draft).allowsAll [] forwardAndBack = true ∧ d.size < 2 ^ 63 ∧
    ((({} : Draft).after (forwardAndBack.take 8)).perform (.bind 0)).2 = none ∧
    (d.label 0).addr = some 4 ∧
    d.instrs[1]? = some { op := .jumpZero, operand := 4 } ∧
    d.instrs[4]? = some { op := .jump, operand := 4 } ∧
    d.instrs[2]? = some { op := .jump, operand := 2 } ∧ 3 ∈ d.openAddrs := by
  intro d
  have hops : ({} : Draft).allowsAll [] forwardAndBack = true := by decide
  have hsize : d.size < 2 ^ 63 := by decide
  obtain ⟨hbind, haddr, hjump⟩ := jumps_reach_their_labels hops hsize
  refine ⟨hops, hsize, hbind (forwardAndBack.take 8) 0 [.jump .jump 0] rfl rfl,
    haddr 0, ?_, ?_, ?_, ?_⟩
  · exact (hjump (forwardAndBack.take 2) .jumpZero 0 (forwardAndBack.drop 3)
      rfl).1 4 rfl
  · exact (hjump (forwardAndBack.take 9) .jump 0 [] rfl).1 4 rfl
  · exact (hjump (forwardAndBack.take 4) .jump 1 (forwardAndBack.drop 5) rfl).1
      2 rfl
  · exact (hjump (forwardAndBack.take 6) .call 2 (forwardAndBack.drop 7)
      rfl).2.mpr rfl

end Draft

end StackC
