import StackC.Program.Instr
import StackC.Text.Order

/-!
Symbols: function names with their addresses. The entries are kept in the order
of the names with no name twice, so two tables with the same contents are equal.
-/

namespace StackC

theorem Symbols.ordered_nil :
    ([] : List (Name × Cell)).Pairwise
      (fun a b => Bytes.before a.1 b.1 = true) :=
  .nil

/-- Names with addresses, ordered by name. -/
structure Symbols where
  entries : List (Name × Cell) := []
  ordered : entries.Pairwise (fun a b => Bytes.before a.1 b.1 = true) := by
    exact Symbols.ordered_nil
  deriving DecidableEq, Repr

namespace Symbols

/-- Puts a name into an ordered list of entries, in place of an entry of the
same name. -/
def insertEntry (name : Name) (addr : Cell) :
    List (Name × Cell) → List (Name × Cell)
  | [] => [(name, addr)]
  | e :: es =>
    if Bytes.before name e.1 then (name, addr) :: e :: es
    else if name = e.1 then (name, addr) :: es
    else e :: insertEntry name addr es

theorem mem_insertEntry {name : Name} {addr : Cell} {e : Name × Cell}
    {es : List (Name × Cell)} (h : e ∈ insertEntry name addr es) :
    e = (name, addr) ∨ e ∈ es := by
  induction es with
  | nil => simpa [insertEntry] using h
  | cons d es ih =>
    simp only [insertEntry] at h
    split at h
    · simpa using h
    · split at h
      · rcases List.mem_cons.mp h with h | h
        · exact .inl h
        · exact .inr (List.mem_cons_of_mem _ h)
      · rcases List.mem_cons.mp h with h | h
        · exact .inr (h ▸ List.mem_cons_self)
        · exact (ih h).imp_right (List.mem_cons_of_mem _)

theorem pairwise_insertEntry (name : Name) (addr : Cell)
    (es : List (Name × Cell))
    (h : es.Pairwise (fun a b => Bytes.before a.1 b.1 = true)) :
    (insertEntry name addr es).Pairwise
      (fun a b => Bytes.before a.1 b.1 = true) := by
  induction es with
  | nil => simp [insertEntry]
  | cons d es ih =>
    obtain ⟨hd, hes⟩ := List.pairwise_cons.mp h
    simp only [insertEntry]
    split
    next hlt =>
      refine List.pairwise_cons.mpr ⟨fun e he => ?_, h⟩
      rcases List.mem_cons.mp he with rfl | he
      · exact hlt
      · exact Bytes.before_trans hlt (hd e he)
    next hlt =>
      split
      next heq => exact List.pairwise_cons.mpr ⟨fun e he => heq ▸ hd e he, hes⟩
      next hne =>
        refine List.pairwise_cons.mpr ⟨fun e he => ?_, ih hes⟩
        rcases mem_insertEntry he with rfl | he
        · exact Bytes.before_of_not_before (by simpa using hlt) hne
        · exact hd e he

/-- The table with `name` at `addr`, whatever it was before. -/
def insert (t : Symbols) (name : Name) (addr : Cell) : Symbols where
  entries := insertEntry name addr t.entries
  ordered := pairwise_insertEntry name addr t.entries t.ordered

/-- The table of a list of entries; the last entry of a name counts. -/
def ofList (es : List (Name × Cell)) : Symbols :=
  es.foldl (fun t e => t.insert e.1 e.2) {}

def get? (t : Symbols) (name : Name) : Option Cell :=
  (t.entries.find? (·.1 == name)).map (·.2)

def namesAt (t : Symbols) (addr : Cell) : List Name :=
  (t.entries.filter (·.2 == addr)).map (·.1)

end Symbols

end StackC
