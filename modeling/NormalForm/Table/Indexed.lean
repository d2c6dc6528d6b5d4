import NormalForm.Recognition

/-! # Filling by index

The table filled once more, by loops over the lengths, the starts and the splits of spans. Every
index is calculated and every cell is looked up when it is needed, in the rows that are there by
then. A difference below zero, a missing row and a missing cell each end the filling with a fault.
-/

namespace NormalForm

/-- What is wrong with an index. -/
inductive IndexFault where
  | belowZero
  | noRow
  | noCell
  deriving DecidableEq

namespace Table

def minus (a b : Nat) : Except IndexFault Nat :=
  if b ≤ a then .ok (a - b) else .error .belowZero

/-- The numbers from `low` on that are less than `high`. -/
def between (low high : Nat) : List Nat := List.range' low (high - low)

def lookUp (rows : List (List Cell)) (row start : Nat) : Except IndexFault Cell :=
  match rows[row]? with
  | none => .error .noRow
  | some cells =>
    match cells[start]? with
    | none => .error .noCell
    | some cell => .ok cell

/-- The cells of the two parts into which a span splits, of which the left is `split` long. -/
def halves (rows : List (List Cell)) (start length split : Nat) :
    Except IndexFault (Cell × Cell) := do
  let left ← lookUp rows (← minus split 1) start
  let right ← lookUp rows (← minus (← minus length split) 1) (start + split)
  return (left, right)

/-- The cell of a span of a machine's numbers. -/
def cellAt (t : Table) (start length : UInt64) : Option Cell :=
  if 1 ≤ length then (t.rows[(length - 1).toNat]?).bind (·[start.toNat]?) else none

end Table

/-- The cell with more symbols in it. -/
def Cell.extend (cell : Cell) (letters : List Char) : Cell := .ofList (cell.symbols ++ letters)

namespace Heads

open Table

/-- The nonterminals with a pair whose halves are in the two cells. -/
def found (heads : Heads) (parts : Cell × Cell) : List Char :=
  parts.1.symbols.flatMap fun B => parts.2.symbols.flatMap fun C => heads.of (B, C)

/-- The cell of a span with what one more split gives. -/
def gather (heads : Heads) (cell : Cell) (parts : Cell × Cell) : Cell :=
  cell.extend (heads.found parts)

def cellByIndex (heads : Heads) (rows : List (List Cell)) (length start : Nat) :
    Except IndexFault Cell :=
  (between 1 length).foldlM (fun cell split => do
    let parts ← halves rows start length split
    return heads.gather cell parts) (.ofList [])

/-- The cells of all spans of a length in a word of the given size. -/
def rowByIndex (heads : Heads) (size : Nat) (rows : List (List Cell)) (length : Nat) :
    Except IndexFault (List Cell) := do
  let last ← minus size length
  (between 0 (last + 1)).mapM (heads.cellByIndex rows length)

def addRow (heads : Heads) (size : Nat) (rows : List (List Cell)) (length : Nat) :
    Except IndexFault (List (List Cell)) := do
  let row ← heads.rowByIndex size rows length
  return rows ++ [row]

end Heads

/-- The table of a word, from the row of its letters on. -/
def Grammar.fillByIndex (g : Grammar) (word : List Char) : Except IndexFault Table := do
  let lengths := Table.between 2 (word.length + 1)
  let rows ← lengths.foldlM (g.heads.addRow word.length) [word.map g.letterCell]
  return ⟨rows⟩

end NormalForm
