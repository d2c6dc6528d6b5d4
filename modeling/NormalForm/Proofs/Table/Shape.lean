import NormalForm.Proofs.Table.Fill

namespace NormalForm

namespace Table

/-- Row `r` has a cell for each start that leaves room for `r + 1` letters out of `n`. -/
def Triangular (n : Nat) (t : Table) : Prop :=
  ∀ r row, t.rows[r]? = some row → row.length = n - r

variable {n start : Nat} {t : Table} {row : List Cell}

theorem triangular_single (h : row.length = n) : Triangular n ⟨[row]⟩ := by
  intro r other found
  cases r with
  | zero => cases found; exact h
  | succ r => cases found

theorem Triangular.concat (h : t.Triangular n) (width : row.length = n - t.length) :
    Triangular n ⟨t.rows ++ [row]⟩ := by
  intro r other found
  by_cases earlier : r < t.rows.length
  · rw [List.getElem?_append_left earlier] at found
    exact h r other found
  · have last : r = t.rows.length := by
      have inside := (List.getElem?_eq_some_iff.mp found).1
      rw [List.length_append, List.length_singleton] at inside
      omega
    rw [last, List.getElem?_concat_length] at found
    cases found
    rw [last]
    exact width

theorem cell_of_longer {length : Nat} (h : t.length < length) : t.cell start length = none := by
  obtain ⟨r, rfl⟩ := Nat.exists_eq_add_of_lt h
  have beyond : t.rows[t.length + r]? = none := List.getElem?_eq_none (Nat.le_add_right _ _)
  rw [cell, beyond, Option.bind_none]

/-- The cells that are there are those of the spans that lie in the word and are not too long. -/
theorem Triangular.cell_isSome (h : t.Triangular n) (start length : Nat) :
    (t.cell start length).isSome = true ↔
      1 ≤ length ∧ length ≤ t.length ∧ start + length ≤ n := by
  cases length with
  | zero => simp [cell]
  | succ r =>
    by_cases inside : r < t.length
    · have found := List.getElem?_eq_getElem inside
      have width := h r _ found
      rw [cell, found, Option.bind_some]
      simp only [isSome_getElem?, width]
      omega
    · rw [cell_of_longer (by omega)]
      simp only [Option.isSome_none, Bool.false_eq_true, false_iff]
      omega

theorem Triangular.exists_cell (h : t.Triangular n) {length : Nat} (positive : 1 ≤ length)
    (short : length ≤ t.length) (inside : start + length ≤ n) :
    ∃ cell, t.cell start length = some cell :=
  Option.isSome_iff_exists.mp ((h.cell_isSome start length).mpr ⟨positive, short, inside⟩)

end Table

namespace Grammar

variable {g : Grammar} {word : List Char}

theorem fill_triangular (heads : Heads) (longer : Nat) :
    (g.fill heads word longer).Triangular word.length := by
  induction longer with
  | zero => exact Table.triangular_single (List.length_map ..)
  | succ longer ih =>
    apply ih.concat
    rw [fill_length, List.length_map, List.length_range]

/-- The last row is the cell of the whole word. -/
theorem fill_last_row (heads : Heads) (letters : word ≠ []) :
    ∃ cell, (g.fill heads word (word.length - 1)).rows.getLast? = some [cell] ∧
      (g.fill heads word (word.length - 1)).cell 0
        (g.fill heads word (word.length - 1)).length = some cell := by
  have positive := List.length_pos_iff.mpr letters
  have height : (g.fill heads word (word.length - 1)).rows.length = word.length - 1 + 1 :=
    fill_length ..
  have inside : word.length - 1 < (g.fill heads word (word.length - 1)).rows.length := by omega
  have found := List.getElem?_eq_getElem inside
  have single := fill_triangular heads (word.length - 1) (word.length - 1) _ found
  obtain ⟨cell, row⟩ := List.length_eq_one_iff.mp (show _ = 1 by rw [single]; omega)
  rw [row] at found
  refine ⟨cell, ?_, ?_⟩
  · rw [List.getLast?_eq_getElem?, height]
    exact found
  · rw [fill_length, Table.cell, found]
    rfl

end Grammar

end NormalForm
