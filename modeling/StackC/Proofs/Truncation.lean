import StackC.Proofs.Images

/-!
Damaged images. A reader that finds what it reads finds the same with anything
behind it, and one that fails asks for more bytes. So an image that is cut short
anywhere is refused, whatever it holds, and so is a whole one with another mark
or version; an image that is whole gives its program back.
-/

namespace StackC

namespace Image

variable {α β : Type}

/-- A reader that ends by itself: it takes the same from bytes whatever follows
them, and fails only for want of bytes. -/
structure Delimited (get : Reader α) : Prop where
  append : ∀ {bs rest : Bytes} {x : α}, get bs = .ok (x, rest) →
    ∀ more, get (bs ++ more) = .ok (x, rest ++ more)
  short : ∀ {bs : Bytes} {e : Error}, get bs = .error e → e = .cutShort

namespace Delimited

theorem pure (x : α) : Delimited fun bs => .ok (x, bs) where
  append h more := by
    cases h
    rfl
  short h := by cases h

/-- What is read in two steps ends by itself if both steps do. -/
theorem andThen {get : Reader α} {next : α → Reader β} (h : Delimited get)
    (hnext : ∀ x, Delimited (next x)) :
    Delimited fun bs => (get bs).bind fun e => next e.1 e.2 where
  append {bs rest y} hread more := by
    cases hget : get bs with
    | error e =>
      rw [hget] at hread
      cases hread
    | ok e =>
      rw [hget] at hread
      rw [h.append hget more]
      exact (hnext e.1).append hread more
  short {bs e} hread := by
    cases hget : get bs with
    | error e' =>
      rw [hget] at hread
      cases hread
      exact h.short hget
    | ok e' =>
      rw [hget] at hread
      exact (hnext e'.1).short hread

/-- A reader that ends by itself asks for more when it gets less than it
takes. -/
theorem of_cut {get : Reader α} (h : Delimited get) {bs cut rest : Bytes}
    {x : α} (hget : get bs = .ok (x, rest)) (hcut : cut <+: bs)
    (hlength : cut.length + rest.length < bs.length) :
    get cut = .error .cutShort := by
  cases hread : get cut with
  | error e => rw [h.short hread]
  | ok e =>
    -- With the bytes that were cut off it would read the same again, and leave
    -- too much.
    obtain ⟨more, rfl⟩ := hcut
    have hsame := hget.symm.trans (h.append hread more)
    cases hsame
    simp only [List.length_append] at hlength
    omega

end Delimited

theorem delimited_getByte : Delimited getByte where
  append {bs rest x} h more := by
    cases bs with
    | nil => cases h
    | cons b bs =>
      cases h
      rfl
  short {bs e} h := by
    cases bs with
    | nil =>
      cases h
      rfl
    | cons b bs => cases h

theorem delimited_getCell : Delimited getCell where
  append {bs rest x} h more := by
    unfold getCell at h
    split at h
    · cases h
      rfl
    · cases h
  short {bs e} h := by
    unfold getCell at h
    split at h
    · cases h
    · cases h
      rfl

/-- The items of a list are found alike under any bound that the bytes fit
in. -/
theorem getItems_append {get : Reader α} (hget : Delimited get)
    {limit limit' : Nat} {bs rest : Bytes} {xs : List α}
    (hlimit : limit ≤ limit') (h : getItems get limit bs = .ok (xs, rest))
    (more : Bytes) :
    getItems get limit' (bs ++ more) = .ok (xs, rest ++ more) := by
  induction limit generalizing limit' bs xs with
  | zero => cases h
  | succ limit ih =>
    obtain ⟨limit', rfl⟩ :=
      Nat.exists_eq_add_of_le' (Nat.le_trans (Nat.le_add_left 1 limit) hlimit)
    cases bs with
    | nil => cases h
    | cons b bs =>
      rw [getItems] at h
      rw [List.cons_append, getItems]
      split at h
      next hb =>
        cases h
        rw [if_pos hb]
      next hb =>
        rw [if_neg hb]
        rcases hitem : get bs with e | ⟨x, bs'⟩ <;> simp only [hitem] at h
        · cases h
        rcases hitems : getItems get limit bs' with e | ⟨ys, bs''⟩
          <;> simp only [hitems] at h
        · cases h
        cases h
        simp only [hget.append hitem more,
          ih (Nat.le_of_succ_le_succ hlimit) hitems]

theorem getItems_short {get : Reader α} (hget : Delimited get) {limit : Nat}
    {bs : Bytes} {e : Error} (h : getItems get limit bs = .error e) :
    e = .cutShort := by
  induction limit generalizing bs with
  | zero =>
    cases h
    rfl
  | succ limit ih =>
    cases bs with
    | nil =>
      cases h
      rfl
    | cons b bs =>
      rw [getItems] at h
      split at h
      next => cases h
      next =>
        rcases hitem : get bs with e' | ⟨x, bs'⟩ <;> simp only [hitem] at h
        · cases h
          exact hget.short hitem
        rcases hitems : getItems get limit bs' with e' | ⟨ys, bs''⟩
          <;> simp only [hitems] at h
        · cases h
          exact ih hitems
        · cases h

theorem delimited_getList {get : Reader α} (h : Delimited get) :
    Delimited (getList get) where
  append {bs rest xs} hread more := getItems_append h (by simp) hread more
  short hread := getItems_short h hread

theorem getInstr_eq :
    getInstr = fun bs => (getByte bs).bind fun e => (getCell e.2).bind fun e' =>
      .ok ({ op := Opcode.ofCode e.1, operand := e'.1 }, e'.2) := by
  funext bs
  rw [getInstr]
  rcases getByte bs with e | ⟨code, bs⟩
  · rfl
  · dsimp only [Except.bind]
    rcases getCell bs with e | ⟨operand, bs⟩ <;> rfl

theorem delimited_getInstr : Delimited getInstr := by
  rw [getInstr_eq]
  exact delimited_getByte.andThen fun code =>
    delimited_getCell.andThen fun operand =>
    @Delimited.pure Instr { op := Opcode.ofCode code, operand }

theorem getSymbol_eq :
    getSymbol = fun bs => (getBytes bs).bind fun e =>
      (getCell e.2).bind fun e' => .ok ((e.1, e'.1), e'.2) := by
  funext bs
  rw [getSymbol]
  rcases getBytes bs with e | ⟨name, bs⟩
  · rfl
  · dsimp only [Except.bind]
    rcases getCell bs with e | ⟨addr, bs⟩ <;> rfl

theorem delimited_getSymbol : Delimited getSymbol := by
  rw [getSymbol_eq]
  exact (delimited_getList delimited_getByte).andThen fun name =>
    delimited_getCell.andThen fun addr =>
    .pure (name, addr)

theorem delimited_get : Delimited get :=
  (delimited_getList delimited_getByte).andThen fun mark =>
    delimited_getCell.andThen fun version =>
    (delimited_getList delimited_getInstr).andThen fun code =>
      (delimited_getList delimited_getCell).andThen fun data =>
      delimited_getCell.andThen fun entry =>
        (delimited_getList delimited_getSymbol).andThen fun funcs =>
        @Delimited.pure Contents {
          mark, version
          program :=
            { code := code.toArray, data := data.toArray, entry,
              funcs := Symbols.ofList funcs } }

theorem put_ne_nil (c : Contents) : put c ≠ [] := by
  simp [put, putBytes, putList]

/-- Contents that were cut short are refused. -/
theorem decode_of_cut {c : Contents} {bs : Bytes} (hcut : bs <+: put c)
    (hne : bs ≠ put c) :
    decode bs = .error (if bs = [] then .empty else .cutShort) := by
  have hget : get (put c) = .ok (c, []) := by
    have hwhole := get_put c []
    rwa [List.append_nil] at hwhole
  have hlength : bs.length + ([] : Bytes).length < (put c).length := by
    have hle := hcut.length_le
    have hsame : bs.length ≠ (put c).length :=
      fun heq => hne (hcut.eq_of_length heq)
    simp only [List.length_nil]
    omega
  rw [decode]
  cases bs with
  | nil => rfl
  | cons b bs =>
    rw [delimited_get.of_cut hget hcut hlength]
    rfl

/-- A whole image is refused for its mark first, then for its version, whatever
follows it. -/
theorem decode_put_append (c : Contents) (rest : Bytes) :
    decode (put c ++ rest) =
      if c.mark ≠ mark then .error (.wrongMark c.mark)
      else if c.version ≠ version then .error (.wrongVersion c.version)
      else .ok c.program := by
  have hne : (put c ++ rest).isEmpty = false := by simp [put_ne_nil c]
  simp only [decode, hne, get_put c rest, Bool.false_eq_true, if_false]

/-- The image of a program gives the program back, whatever the program is. An
image that is cut short gives none, and neither does one with another mark or
version, whole, cut short or with more behind it. The errors are of one kind. -/
theorem damaged_images_are_refused (p : Program) :
    decode (encode p) = .ok p ∧
      (∀ bs, bs <+: encode p → bs ≠ encode p →
        decode bs = .error (if bs = [] then .empty else .cutShort)) ∧
      (∀ c : Contents, c.program = p → c.mark ≠ mark ∨ c.version ≠ version →
        (∀ rest,
          decode (put c ++ rest) = .error
            (if c.mark ≠ mark then .wrongMark c.mark
             else .wrongVersion c.version)) ∧
        ∀ bs, bs <+: put c → bs ≠ put c →
          decode bs = .error (if bs = [] then .empty else .cutShort)) ∧
      ∀ e : Error, text "bad object file: " <+: e.message := by
  refine ⟨decode_encode p, fun bs => decode_of_cut, fun c _ hother =>
    ⟨fun rest => ?_, fun bs => decode_of_cut⟩, fun e => List.prefix_append _ _⟩
  rw [decode_put_append]
  by_cases hmark : c.mark = mark
  · have hversion : c.version ≠ version :=
      hother.resolve_left (not_not.mpr hmark)
    simp only [hmark, ne_eq, not_true_eq_false, if_false, hversion,
      not_false_eq_true, if_true]
  · simp only [hmark, ne_eq, not_false_eq_true, if_true]

/-- A program that no machine runs to an end: an opcode that is not defined,
operands and addresses at their limits. -/
def brokenProgram : Program where
  code := #[{ op := Opcode.ofCode 200, operand := Int64.minValue },
    { op := .jump, operand := Int64.maxValue }]
  data := #[Int64.minValue, -1]
  entry := -7
  funcs := .ofList [(text "", Int64.maxValue), (text "\x00é", -1)]

theorem damaged_images_are_refused_broken :
    let image := encode brokenProgram
    let newer := put { mark, version := 2, program := brokenProgram }
    decode image = .ok brokenProgram ∧
      (image.take 20 <+: image ∧ image.take 20 ≠ image) ∧
      decode (image.take 20) = .error .cutShort ∧
      decode newer = .error (.wrongVersion 2) := by
  intro image newer
  obtain ⟨hwhole, hshort, hother, -⟩ := damaged_images_are_refused brokenProgram
  have hcut : image.take 20 <+: image := List.take_prefix 20 image
  have hne : image.take 20 ≠ image := by decide +kernel
  have hversion :=
    (hother { mark, version := 2, program := brokenProgram } rfl
      (Or.inr (by decide))).1 []
  rw [List.append_nil] at hversion
  refine ⟨hwhole, ⟨hcut, hne⟩, ?_, hversion⟩
  rw [hshort _ hcut hne, if_neg (by decide +kernel)]

end Image

end StackC
