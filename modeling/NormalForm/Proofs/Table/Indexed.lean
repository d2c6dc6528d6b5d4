import NormalForm.Proofs.Outcome
import NormalForm.Proofs.Table.Inclusion
import NormalForm.Table.Indexed

/-! # Every index is in range

The rows that are there while a table is filled have the cells of all shorter spans. Both parts of a
span are shorter, so their cells are there: filling by index has no fault, and makes the same table.
The table is a triangle, and has cells for exactly the spans that lie in the word.
-/

namespace NormalForm

namespace Table

theorem minus_of_le {a b : Nat} (h : b ≤ a) : minus a b = .ok (a - b) := if_pos h

theorem lookUp_of_cell {t : Table} {start row : Nat} {cell : Cell}
    (h : t.cell start (row + 1) = some cell) : lookUp t.rows row start = .ok cell := by
  obtain ⟨cells, hrow, hcell⟩ := Option.bind_eq_some_iff.mp h
  simp only [lookUp, hrow, hcell]

theorem halves_of_cells {t : Table} {start k : Nat} {left right : Cell} (shorter : k < t.length)
    (hleft : t.cell start (k + 1) = some left)
    (hright : t.cell (start + (k + 1)) (t.length - k) = some right) :
    halves t.rows start (t.length + 1) (k + 1) = .ok (left, right) := by
  have rest : t.length + 1 - (k + 1) = t.length - k := by omega
  have last : t.length - k - 1 + 1 = t.length - k := by omega
  rw [halves, minus_of_le (by omega), minus_of_le (by omega : k + 1 ≤ t.length + 1), rest]
  simp only [bind, Except.bind, Nat.add_sub_cancel, lookUp_of_cell hleft,
    minus_of_le (by omega : 1 ≤ t.length - k), lookUp_of_cell (last.symm ▸ hright)]
  rfl

/-- No row number wraps around. -/
theorem cellAt_eq (t : Table) (start length : UInt64) :
    t.cellAt start length = t.cell start.toNat length.toNat := by
  have one : (1 : UInt64).toNat = 1 := rfl
  unfold cellAt
  split
  · rename_i positive
    have below := UInt64.le_iff_toNat_le.mp positive
    have row : length.toNat = (length - 1).toNat + 1 := by
      rw [UInt64.toNat_sub_of_le _ _ positive]
      omega
    rw [row, cell]
  · rename_i zero
    have below := mt UInt64.le_iff_toNat_le.mpr zero
    have length_zero : length.toNat = 0 := by omega
    rw [length_zero, cell]

end Table

theorem Cell.contains_extend {cell : Cell} {letters : List Char} {A : Char} :
    (cell.extend letters).contains A = true ↔ cell.contains A = true ∨ A ∈ letters := by
  simp only [extend, contains, decide_eq_true_eq, mem_ofList, List.mem_append]

namespace Heads

variable {heads : Heads} {splits : List (Cell × Cell)}

theorem contains_gathered {cell : Cell} {A : Char} :
    (splits.foldl heads.gather cell).contains A = true ↔
      cell.contains A = true ∨ ∃ parts ∈ splits, A ∈ heads.found parts := by
  induction splits generalizing cell with
  | nil => simp
  | cons parts rest ih =>
    rw [List.foldl_cons, ih, gather, Cell.contains_extend, or_assoc]
    simp

/-- A cell that is gathered split by split is the one that is made at once. -/
theorem gathered_eq (heads : Heads) (splits : List (Cell × Cell)) :
    splits.foldl heads.gather (.ofList []) = heads.cell splits := by
  have members (A : Char) : (splits.foldl heads.gather (.ofList [])).contains A = true ↔
      (heads.cell splits).contains A = true := by
    rw [contains_gathered, cell, Cell.contains, Cell.contains]
    simp [Cell.mem_ofList, found]
  exact Cell.Within.antisymm (fun A => (members A).mp) (fun A => (members A).mpr)

end Heads

section

variable {α β γ ε : Type} {f : α → Except ε β} {as : List α}

/-- A loop whose calls all succeed folds their results. -/
theorem foldlM_eq_ok {step : γ → β → γ} {bs : List β} (h : as.map f = bs.map .ok) (c : γ) :
    as.foldlM (fun c a => do
      let b ← f a
      return step c b) c = .ok (bs.foldl step c) := by
  induction as generalizing bs c with
  | nil => cases List.map_eq_nil_iff.mp h.symm; rfl
  | cons a as ih =>
    cases bs with
    | nil => cases h
    | cons b bs =>
      obtain ⟨first, rest⟩ := List.cons.inj h
      rw [List.foldlM_cons, first]
      exact ih rest (step c b)

theorem map_eq_filterMap_ok {g : α → Option β}
    (same : ∀ a ∈ as, ∃ b, g a = some b ∧ f a = .ok b) :
    as.map f = (as.filterMap g).map .ok := by
  induction as with
  | nil => rfl
  | cons a as ih =>
    obtain ⟨⟨b, found, stepped⟩, same⟩ := List.forall_mem_cons.mp same
    rw [List.map_cons, stepped, ih same, List.filterMap_cons_some found, List.map_cons]

end

namespace Table

variable {n start : Nat} {t : Table}

/-- The rows have the cells of both parts of a span that is one longer than they go. -/
theorem Triangular.map_halves (h : t.Triangular n) (inside : start + (t.length + 1) ≤ n) :
    (between 1 (t.length + 1)).map (halves t.rows start (t.length + 1)) =
      (t.splits start).map .ok := by
  rw [between, List.range'_eq_map_range, List.map_map, splits]
  apply map_eq_filterMap_ok
  intro k hk
  have shorter : k < t.length := List.mem_range.mp hk
  -- Neither part is empty, so both are shorter than the span.
  obtain ⟨left, hleft⟩ : ∃ cell, t.cell start (k + 1) = some cell :=
    h.exists_cell (by omega) (by omega) (by omega)
  obtain ⟨right, hright⟩ : ∃ cell, t.cell (start + (k + 1)) (t.length - k) = some cell :=
    h.exists_cell (by omega) (by omega) (by omega)
  refine ⟨(left, right), by simp [hleft, hright], ?_⟩
  rw [Function.comp_apply, Nat.add_comm 1 k]
  exact halves_of_cells shorter hleft hright

theorem Triangular.cellByIndex_eq (h : t.Triangular n) (heads : Heads)
    (inside : start + (t.length + 1) ≤ n) :
    heads.cellByIndex t.rows (t.length + 1) start = .ok (heads.cell (t.splits start)) := by
  rw [Heads.cellByIndex, foldlM_eq_ok (h.map_halves inside), Heads.gathered_eq]

theorem Triangular.rowByIndex_eq (h : t.Triangular n) (heads : Heads) (inside : t.length + 1 ≤ n) :
    heads.rowByIndex n t.rows (t.length + 1) =
      .ok ((List.range (n - t.length)).map fun start => heads.cell (t.splits start)) := by
  have starts : between 0 (n - (t.length + 1) + 1) = List.range (n - t.length) := by
    rw [between, List.range_eq_range']
    congr 1
    omega
  have cells : (List.range (n - t.length)).mapM (heads.cellByIndex t.rows (t.length + 1)) =
      .ok ((List.range (n - t.length)).map fun start => heads.cell (t.splits start)) := by
    rw [mapM_eq_ok_iff, List.map_map]
    apply List.map_congr_left
    intro start hs
    have room := List.mem_range.mp hs
    exact h.cellByIndex_eq heads (by omega)
  rw [← starts] at cells ⊢
  rw [Heads.rowByIndex, minus_of_le inside]
  exact cells

end Table

namespace Grammar

open Table

variable {g : Grammar} {word : List Char}

/-- A further row finds all that it needs in the rows before it. -/
theorem addRow_fill (heads : Heads) {longer : Nat} (inside : longer + 2 ≤ word.length) :
    heads.addRow word.length (g.fill heads word longer).rows (longer + 2) =
      .ok (g.fill heads word (longer + 1)).rows := by
  have triangular : (g.fill heads word longer).Triangular word.length :=
    fill_triangular heads longer
  have height := fill_length g heads word longer
  have row := triangular.rowByIndex_eq heads (by omega)
  rw [height] at row
  rw [Heads.addRow, row]
  rfl

theorem rows_by_index (heads : Heads) {longer : Nat} (inside : longer + 1 ≤ word.length) :
    (List.range' 2 longer).foldlM (heads.addRow word.length) [word.map g.letterCell] =
      .ok (g.fill heads word longer).rows := by
  induction longer with
  | zero => rfl
  | succ longer ih =>
    rw [List.range'_1_concat, List.foldlM_append, ih (by omega)]
    change (heads.addRow word.length _ (2 + longer) >>= pure) = _
    rw [Nat.add_comm, addRow_fill heads inside]
    rfl

theorem fillByIndex_eq (letters : word ≠ []) :
    g.fillByIndex word = .ok (g.fill g.heads word (word.length - 1)) := by
  have positive := List.length_pos_iff.mpr letters
  have lengths : between 2 (word.length + 1) = List.range' 2 (word.length - 1) := rfl
  rw [fillByIndex, lengths, rows_by_index g.heads (by omega)]
  rfl

/-- **Every index is in range, and the table is a triangle.** Filling by index ends without a fault
for every word that may be looked at, and with the table of the word. The table has a row for each
letter, one cell shorter than the row before it, and so cells for exactly the spans that lie in the
word, whatever is asked for; the last row is the cell that decides. -/
theorem fillByIndex_in_range {S : Char} (looked : g.startFor word = .ok S) :
    ∃ t, g.fillByIndex word = .ok t ∧ g.table word = .ok t ∧ t.rows.length = word.length ∧
      (∀ r row, t.rows[r]? = some row → row.length = word.length - r) ∧
      (∀ start length, (t.cell start length).isSome = true ↔
        1 ≤ length ∧ start + length ≤ word.length) ∧
      (∀ start length : UInt64, (t.cellAt start length).isSome = true ↔
        1 ≤ length.toNat ∧ start.toNat + length.toNat ≤ word.length) ∧
      ∃ cell, t.rows.getLast? = some [cell] ∧ ∀ A, t.accepts A = cell.contains A := by
  obtain ⟨letters, _, _⟩ := startFor_eq_ok_iff.mp looked
  have positive := List.length_pos_iff.mpr letters
  have triangular : (g.fill g.heads word (word.length - 1)).Triangular word.length :=
    fill_triangular g.heads _
  have height : (g.fill g.heads word (word.length - 1)).length = word.length := by
    rw [fill_length]
    omega
  have cells (start length : Nat) :
      ((g.fill g.heads word (word.length - 1)).cell start length).isSome = true ↔
        1 ≤ length ∧ start + length ≤ word.length := by
    rw [triangular.cell_isSome, height]
    omega
  refine ⟨_, fillByIndex_eq letters, table_eq_ok_iff.mpr ⟨⟨S, looked⟩, rfl⟩, height, triangular,
    cells, ?_, ?_⟩
  · intro start length
    rw [cellAt_eq, cells]
  · obtain ⟨cell, last, whole⟩ := fill_last_row g.heads letters
    exact ⟨cell, last, fun A => by rw [Table.accepts, whole]⟩

/-- Spans whose end would wrap around to one inside the word. -/
theorem fillByIndex_in_range_textbook :
    let g := (empty true).afterAll textbook
    g.startFor ['b', 'a', 'a'] = .ok 'S' ∧
      ∃ t, g.fillByIndex ['b', 'a', 'a'] = .ok t ∧ g.table ['b', 'a', 'a'] = .ok t ∧
        t.rows.length = 3 ∧ (t.cell 1 2).isSome = true ∧ t.cellAt 0xFFFFFFFFFFFFFFFF 2 = none ∧
        t.cellAt 2 0xFFFFFFFFFFFFFFFF = none ∧ t.cellAt 3 0 = none := by
  intro g
  have looked : g.startFor ['b', 'a', 'a'] = .ok 'S' := by decide +kernel
  obtain ⟨t, filled, table, height, _, cells, machine, _⟩ := fillByIndex_in_range looked
  have outside (start length : UInt64)
      (out : ¬(1 ≤ length.toNat ∧ start.toNat + length.toNat ≤ 3)) : t.cellAt start length = none :=
    Option.isNone_iff_eq_none.mp (by simpa using mt (machine start length).mp out)
  exact ⟨looked, t, filled, table, height, (cells 1 2).mpr (by decide), outside _ _ (by decide),
    outside _ _ (by decide), outside _ _ (by decide)⟩

end Grammar

end NormalForm
