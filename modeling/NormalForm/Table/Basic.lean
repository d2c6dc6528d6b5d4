import NormalForm.Table.Cell

namespace NormalForm

/-- The triangular table of a word: row `r` holds the cells of the spans of length `r + 1`, one for
each start. -/
structure Table where
  rows : List (List Cell)
  deriving DecidableEq

namespace Table

/-- The length of the longest spans in the table. -/
def length (t : Table) : Nat := t.rows.length

def isEmpty (t : Table) : Bool := t.rows.isEmpty

/-- The cell of the span of the given length from `start`. -/
def cell (t : Table) (start : Nat) : Nat → Option Cell
  | 0 => none
  | length + 1 => (t.rows[length]?).bind (·[start]?)

/-- Whether the nonterminal derives the whole word. -/
def accepts (t : Table) (A : Char) : Bool :=
  match t.cell 0 t.length with
  | some cell => cell.contains A
  | none => false

/-- The pairs of cells into which a span from `start` splits that is one longer than the longest
spans in the table, the shortest left half first. -/
def splits (t : Table) (start : Nat) : List (Cell × Cell) :=
  (List.range t.length).filterMap fun k => do
    let left ← t.cell start (k + 1)
    let right ← t.cell (start + (k + 1)) (t.length - k)
    return (left, right)

/-- One line for each row, its cells side by side. -/
def text (t : Table) : List Char :=
  t.rows.flatMap fun row => row.flatMap Cell.text ++ ['\n']

end Table

end NormalForm
