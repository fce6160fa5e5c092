import StackC.Program.Image
import StackC.Proofs.Listing

/-!
Images read back. Every part of an image ends by itself, so reading what was
written gives it back whatever follows, and decoding the image of a program
gives the program.
-/

namespace StackC

/-- The number of an opcode tells the opcode. -/
theorem Opcode.ofCode_code (op : Opcode) : ofCode op.code = op := by
  cases op with
  | illegal n undefined => exact dif_pos undefined
  | arith f => cases f <;> decide
  | _ => decide

theorem Symbols.get?_foldl_insert {es : List (Name × Cell)}
    (hnodup : (es.map (·.1)).Nodup) {t : Symbols}
    (hnew : ∀ e ∈ es, t.get? e.1 = none) (name : Name) (addr : Cell) :
    (es.foldl (fun t e => t.insert e.1 e.2) t).get? name = some addr ↔
      t.get? name = some addr ∨ (name, addr) ∈ es := by
  induction es generalizing t with
  | nil => simp
  | cons e es ih =>
    obtain ⟨hname, hrest⟩ := List.nodup_cons.mp hnodup
    have hother : ∀ d ∈ es, (t.insert e.1 e.2).get? d.1 = none := by
      intro d hd
      have hne : d.1 ≠ e.1 := fun heq => hname (List.mem_map.mpr ⟨d, hd, heq⟩)
      rw [get?_insert, if_neg hne]
      exact hnew d (List.mem_cons_of_mem e hd)
    rw [List.foldl_cons, ih hrest hother, get?_insert]
    by_cases heq : name = e.1
    · have hnone := hnew e List.mem_cons_self
      have hnot : (name, addr) ∉ es :=
        fun hmem => hname (List.mem_map.mpr ⟨_, hmem, heq⟩)
      subst heq
      simp [hnone, hnot, Prod.ext_iff, eq_comm]
    · simp [heq, Prod.ext_iff]

/-- A table is made again from its entries. -/
theorem Symbols.ofList_entries (t : Symbols) : ofList t.entries = t := by
  apply ext_get?
  intro name addr
  have hempty : ∀ e ∈ t.entries, ({} : Symbols).get? e.1 = none :=
    fun _ _ => rfl
  rw [ofList, get?_foldl_insert t.nodup_names hempty, get?_eq_some_iff (t := t)]
  simp [get?]

namespace Image

/-- A reader gives back what a writer wrote, with what follows it. -/
def Inverts (get : Reader α) (put : α → Bytes) : Prop :=
  ∀ x rest, get (put x ++ rest) = .ok (x, rest)

/-- A number of 64 bits is put together from its bytes. -/
theorem foldl_bytes {n : Nat} (h : n < 18446744073709551616) :
    [7, 6, 5, 4, 3, 2, 1, 0].foldl
      (fun acc k => acc * 256 + (n >>> (8 * k)).toUInt8.toNat) 0 = n := by
  have hbyte (k : Nat) : (n >>> k).toUInt8.toNat = n / 2 ^ k % 256 := by
    rw [Nat.shiftRight_eq_div_pow]
    rfl
  simp only [List.foldl_cons, List.foldl_nil, hbyte]
  omega

theorem getCell_putCell : Inverts getCell putCell := by
  intro v rest
  have hfold := foldl_bytes v.toUInt64.toNat_lt
  have hget : getCell (putCell v ++ rest) = .ok (Int64.ofUInt64 (Nat.toUInt64
    ([7, 6, 5, 4, 3, 2, 1, 0].foldl (fun acc k =>
      acc * 256 + (v.toUInt64.toNat >>> (8 * k)).toUInt8.toNat) 0)), rest) :=
        rfl
  rw [hget, hfold]
  simp

/-- Lists of items that can be read back can be read back. -/
theorem getList_putList {get : Reader α} {put : α → Bytes}
    (h : Inverts get put) : Inverts (getList get) (putList put) := by
  have hitems (xs : List α) (rest : Bytes) (limit : Nat)
      (hlimit : xs.length < limit) :
      getItems get limit (putList put xs ++ rest) = .ok (xs, rest) := by
    induction xs generalizing limit with
    | nil =>
      cases limit with
      | zero => exact absurd hlimit (Nat.not_lt_zero _)
      | succ limit => rfl
    | cons x xs ih =>
      cases limit with
      | zero => exact absurd hlimit (Nat.not_lt_zero _)
      | succ limit =>
        have hput :
            putList put (x :: xs) ++ rest =
            1 :: (put x ++ (putList put xs ++ rest)) := by
          simp [putList]
        rw [hput, getItems]
        simp only [h x, ih limit (Nat.lt_of_succ_lt_succ hlimit)]
        rfl
  intro xs rest
  have hlength : xs.length < (putList put xs ++ rest).length := by
    induction xs with
    | nil => simp [putList]
    | cons x xs ih =>
      simp only [putList, List.flatMap_cons, List.length_append,
        List.length_cons, List.length_nil] at ih ⊢
      omega
  exact hitems xs rest _ hlength

theorem getBytes_putBytes : Inverts getBytes putBytes :=
  getList_putList fun _ _ => rfl

theorem getInstr_putInstr : Inverts getInstr putInstr := by
  intro i rest
  rw [putInstr, List.cons_append, getInstr, getByte]
  simp only [getCell_putCell i.operand rest, Opcode.ofCode_code]

theorem getSymbol_putSymbol : Inverts getSymbol putSymbol := by
  intro e rest
  rw [putSymbol, List.append_assoc, getSymbol, getBytes_putBytes]
  simp only [getCell_putCell e.2 rest]

/-- What was put into an image is read from it. -/
theorem get_put : Inverts get put := by
  intro c rest
  simp only [put, List.append_assoc]
  rw [get, getBytes_putBytes]
  simp only [getCell_putCell _ _, getList_putList getInstr_putInstr _ _,
    getList_putList getCell_putCell _ _,
    getList_putList getSymbol_putSymbol _ _, bind, Except.bind, pure,
    Except.pure, Symbols.ofList_entries]

/-- Decoding the image of a program gives the program back. -/
theorem decode_encode (p : Program) : decode (encode p) = .ok p := by
  have hget := get_put { mark, version, program := p } []
  rw [List.append_nil] at hget
  simp only [decode, encode, hget]
  rfl

end Image

end StackC
