import NormalForm.Proofs.Unicode.Apart
import NormalForm.Table.Basic

namespace NormalForm

open Unicode

/-- A mark ends the part before it, which does not have it. -/
theorem append_mark_inj {mark : Char} {s t u v : List Char} (hs : mark ∉ s) (ht : mark ∉ t)
    (same : s ++ mark :: u = t ++ mark :: v) : s = t ∧ u = v := by
  induction s generalizing t with
  | nil =>
    cases t with
    | nil => simpa using same
    | cons b t =>
      obtain ⟨rfl, _⟩ := List.cons.inj same
      exact absurd List.mem_cons_self ht
  | cons a s ih =>
    cases t with
    | nil =>
      obtain ⟨rfl, _⟩ := List.cons.inj same
      exact absurd List.mem_cons_self hs
    | cons b t =>
      obtain ⟨rfl, tails⟩ := List.cons.inj same
      obtain ⟨rfl, rest⟩ := ih (fun h => hs (List.mem_cons_of_mem _ h))
        (fun h => ht (List.mem_cons_of_mem _ h)) tails
      exact ⟨rfl, rest⟩

namespace Cell

/-- What stands between the brackets of a cell. -/
def marks (cell : Cell) : List Char := if cell.symbols = [] then ['-'] else cell.symbols

theorem text_eq (cell : Cell) : cell.text = '[' :: cell.marks ++ [']'] := by
  unfold text marks
  split <;> simp_all

/-- A cell of symbols that no mark of the text can be taken for. -/
def Upper (cell : Cell) : Prop := ∀ A ∈ cell.symbols, isUppercase A = true

variable {c d : Cell}

theorem Upper.not_mem (h : c.Upper) {mark : Char} (uncased : isCased mark = false) :
    mark ∉ c.symbols :=
  fun mem => ne_of_cased (isCased_of_uppercase (h mark mem)) uncased rfl

theorem Upper.not_mem_marks (h : c.Upper) {mark : Char} (uncased : isCased mark = false)
    (notDash : mark ≠ '-') : mark ∉ c.marks := by
  unfold marks
  split
  · simpa using notDash
  · exact h.not_mem uncased

theorem mem_text_iff {A : Char} (upper : isUppercase A = true) :
    A ∈ c.text ↔ A ∈ c.symbols := by
  have cased := isCased_of_uppercase upper
  have notOpen : A ≠ '[' := ne_of_cased cased (by decide)
  have notDash : A ≠ '-' := ne_of_cased cased (by decide)
  have notClosed : A ≠ ']' := ne_of_cased cased (by decide)
  rw [text_eq, marks]
  split <;> simp_all

theorem Upper.marks_inj (hc : c.Upper) (hd : d.Upper) (same : c.marks = d.marks) : c = d := by
  have dash {cell : Cell} (h : cell.Upper) : '-' ∉ cell.symbols := h.not_mem (by decide)
  apply eq_of_symbols
  unfold marks at same
  split at same
  · split at same
    · simp_all
    · exact absurd (same ▸ List.mem_singleton_self '-') (dash hd)
  · split at same
    · exact absurd (same ▸ List.mem_singleton_self '-') (dash hc)
    · exact same

/-- A cell and what follows it are both determined. -/
theorem Upper.text_append_inj (hc : c.Upper) (hd : d.Upper) {u v : List Char}
    (same : c.text ++ u = d.text ++ v) : c = d ∧ u = v := by
  simp only [text_eq, List.cons_append, List.append_assoc, List.nil_append, List.cons.injEq,
    true_and] at same
  have closed {cell : Cell} (h : cell.Upper) : ']' ∉ cell.marks :=
    h.not_mem_marks (by decide) (by decide)
  obtain ⟨marks, rest⟩ := append_mark_inj (closed hc) (closed hd) same
  exact ⟨hc.marks_inj hd marks, rest⟩

end Cell

namespace Table

/-- Every cell has uppercase symbols only. -/
def Upper (t : Table) : Prop := ∀ row ∈ t.rows, ∀ cell ∈ row, cell.Upper

theorem row_append_inj {row other : List Cell} (hrow : ∀ cell ∈ row, cell.Upper)
    (hother : ∀ cell ∈ other, cell.Upper) {u v : List Char}
    (same : row.flatMap Cell.text ++ '\n' :: u = other.flatMap Cell.text ++ '\n' :: v) :
    row = other ∧ u = v := by
  induction row generalizing other with
  | nil =>
    cases other with
    | nil => simpa using same
    | cons d other => simp [Cell.text_eq] at same
  | cons c row ih =>
    cases other with
    | nil => simp [Cell.text_eq] at same
    | cons d other =>
      simp only [List.flatMap_cons, List.append_assoc] at same
      obtain ⟨hc, cells⟩ := List.forall_mem_cons.mp hrow
      obtain ⟨hd, others⟩ := List.forall_mem_cons.mp hother
      obtain ⟨rfl, tails⟩ := hc.text_append_inj hd same
      obtain ⟨rfl, rest⟩ := ih cells others tails
      exact ⟨rfl, rest⟩

/-- The text determines the table. -/
theorem Upper.text_inj {t u : Table} (ht : t.Upper) (hu : u.Upper) (same : t.text = u.text) :
    t = u := by
  obtain ⟨rows⟩ := t
  obtain ⟨others⟩ := u
  congr 1
  simp only [Upper, text] at ht hu same
  induction rows generalizing others with
  | nil =>
    cases others with
    | nil => rfl
    | cons other others => simp at same
  | cons row rows ih =>
    cases others with
    | nil => simp at same
    | cons other others =>
      simp only [List.flatMap_cons, List.append_assoc, List.cons_append, List.nil_append] at same
      obtain ⟨hrow, hrows⟩ := List.forall_mem_cons.mp ht
      obtain ⟨hother, hothers⟩ := List.forall_mem_cons.mp hu
      obtain ⟨rfl, tails⟩ := row_append_inj hrow hother same
      rw [ih hrows others hothers tails]

/-- The lines show a triangular table: line `r` is the cells of the spans of length `r + 1`, one for
each of `n - r` starts, and a cell is its symbols in increasing order in brackets, with a dash for
none. -/
structure Shows (t : Table) (n : Nat) (lines : List (List Char)) : Prop where
  length_eq : lines.length = n
  unbroken : ∀ line ∈ lines, '\n' ∉ line
  cells : ∀ r line, lines[r]? = some line → ∃ shown : List (List Char),
    line = shown.flatten ∧ shown.length = n - r ∧
      ∀ start text, shown[start]? = some text → ∃ cell, t.cell start (r + 1) = some cell ∧
        cell.symbols.Pairwise (· < ·) ∧
        text = '[' :: (if cell.symbols = [] then ['-'] else cell.symbols) ++ [']']

/-- The lines of the text, without their ends. -/
def lines (t : Table) : List (List Char) := t.rows.map (·.flatMap Cell.text)

theorem text_eq_lines (t : Table) : t.text = t.lines.flatMap (· ++ ['\n']) := by
  rw [lines, List.flatMap_map, text]

theorem Upper.shows {t : Table} {n : Nat} (h : t.Upper) (length_eq : t.length = n)
    (triangular : ∀ r row, t.rows[r]? = some row → row.length = n - r) : t.Shows n t.lines where
  length_eq := by rw [lines, List.length_map]; exact length_eq
  unbroken := by
    intro line mem broken
    obtain ⟨row, hrow, rfl⟩ := List.mem_map.mp mem
    obtain ⟨cell, hcell, broken⟩ := List.mem_flatMap.mp broken
    have plain : '\n' ∉ cell.marks :=
      (h row hrow cell hcell).not_mem_marks (by decide) (by decide)
    simp [Cell.text_eq, plain] at broken
  cells := by
    intro r line hline
    rw [lines, List.getElem?_map, Option.map_eq_some_iff] at hline
    obtain ⟨row, hrow, rfl⟩ := hline
    refine ⟨row.map Cell.text, List.flatMap_def, ?_, ?_⟩
    · rw [List.length_map, triangular r row hrow]
    · intro start text htext
      rw [List.getElem?_map, Option.map_eq_some_iff] at htext
      obtain ⟨cell, hcell, rfl⟩ := htext
      exact ⟨cell, by simp [Table.cell, hrow, hcell], cell.increasing, cell.text_eq⟩

end Table

end NormalForm
