namespace NormalForm

/-- The nonterminals that derive one span, as a strictly increasing list: equal sets are equal
cells, and are written in one way only. -/
structure Cell where
  symbols : List Char
  increasing : symbols.Pairwise (· < ·)
  deriving DecidableEq

namespace Cell

/-- Puts a character in its place in an increasing list, unless it is there already. -/
def place (c : Char) : List Char → List Char
  | [] => [c]
  | d :: rest => if c < d then c :: d :: rest else if c = d then d :: rest else d :: place c rest

theorem mem_place {c x : Char} {symbols : List Char} :
    x ∈ place c symbols ↔ x = c ∨ x ∈ symbols := by
  induction symbols with
  | nil => simp [place]
  | cons d rest ih =>
    simp only [place]
    split
    · simp
    · split
      · rename_i same
        simp [same]
      · simp only [List.mem_cons, ih]
        exact or_left_comm

theorem place_increasing (c : Char) {symbols : List Char} (h : symbols.Pairwise (· < ·)) :
    (place c symbols).Pairwise (· < ·) := by
  induction symbols with
  | nil => simp [place]
  | cons d rest ih =>
    obtain ⟨low, tail⟩ := List.pairwise_cons.mp h
    simp only [place]
    split
    · rename_i lt
      exact List.pairwise_cons.mpr ⟨fun x hx => by
        rcases List.mem_cons.mp hx with rfl | hx
        · exact lt
        · exact Char.lt_trans lt (low x hx), h⟩
    · rename_i notLt
      split
      · exact h
      · rename_i ne
        refine List.pairwise_cons.mpr ⟨fun x hx => ?_, ih tail⟩
        rcases mem_place.mp hx with rfl | hx
        · exact Std.lt_of_le_of_ne (Char.not_lt.mp notLt) (Ne.symm ne)
        · exact low x hx

/-- The set of the characters of a list. -/
def ofList : List Char → Cell
  | [] => ⟨[], List.Pairwise.nil⟩
  | c :: rest => ⟨place c (ofList rest).symbols, place_increasing c (ofList rest).increasing⟩

def contains (cell : Cell) (c : Char) : Bool := c ∈ cell.symbols

def isEmpty (cell : Cell) : Bool := cell.symbols.isEmpty

/-- The characters in brackets; a dash stands for none. -/
def text (cell : Cell) : List Char :=
  match cell.symbols with
  | [] => ['[', '-', ']']
  | symbols => '[' :: symbols ++ [']']

theorem mem_ofList {x : Char} {letters : List Char} :
    x ∈ (ofList letters).symbols ↔ x ∈ letters := by
  induction letters with
  | nil => simp [ofList]
  | cons c rest ih => simp [ofList, mem_place, ih]

theorem eq_of_symbols {c d : Cell} (h : c.symbols = d.symbols) : c = d := by
  cases c
  cases d
  simpa using h

end Cell

end NormalForm
