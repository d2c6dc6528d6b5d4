/-! # Spans of code points

A property of characters is a list of evenly spaced spans of code points. Membership is arithmetic
on the code point, so a statement about a whole table is a finite check on its spans. -/

namespace NormalForm.Unicode

/-- The code points `first`, `first + stride`, and so on up to `last`. -/
structure Span where
  first : Nat
  last : Nat
  stride : Nat

namespace Span

def contains (s : Span) (code : Nat) : Bool :=
  s.first ≤ code && code ≤ s.last && (code - s.first) % s.stride == 0

/-- How many code points the span holds; spans of a table are never empty. -/
def size (s : Span) : Nat := (s.last - s.first) / s.stride + 1

theorem contains_iff (s : Span) (code : Nat) :
    s.contains code = true ↔
      s.first ≤ code ∧ code ≤ s.last ∧ (code - s.first) % s.stride = 0 := by
  simp [contains, and_assoc]

end Span

/-- Whether some span of the table holds the character. -/
def holds (table : List Span) (c : Char) : Bool :=
  table.any (·.contains c.toNat)

end NormalForm.Unicode
