import NormalForm.Grammar.Basic
import NormalForm.Table.Basic

/-! # Recognition

The table of a word is filled from the shortest spans to the longest: a nonterminal is in the cell
of one letter if it has that letter as a body, and in the cell of a longer span if it has a pair
whose halves are in the cells of some split of the span. The nonterminals with a pair are looked up
in an index that is made once. The start symbol derives the word if it is in the cell of the whole
word. -/

namespace NormalForm

/-- Why a word has no table. -/
inductive WordError where
  | empty
  | noStart
  | unknownLetter (letter : Char)
  deriving DecidableEq

namespace WordError

def message : WordError → String
  | empty => "Cannot recognize the empty word"
  | noStart => "The grammar has no start symbol"
  | unknownLetter a => s!"`{a}` is not a defined terminal"

end WordError

/-- For each pair that is a body, the nonterminals that have it. -/
abbrev Heads := List ((Char × Char) × List Char)

namespace Heads

/-- The nonterminals with a pair as a body. -/
def of (heads : Heads) (pair : Char × Char) : List Char := (heads.lookup pair).getD []

/-- Files a nonterminal under a pair, after those that are there. -/
def file (pair : Char × Char) (A : Char) : Heads → Heads
  | [] => [(pair, [A])]
  | (key, found) :: rest =>
    if key = pair then (key, found ++ [A]) :: rest else (key, found) :: file pair A rest

/-- Files a nonterminal under one of its bodies, if that is a pair. -/
def fileBody (heads : Heads) (A : Char) : Body → Heads
  | .terminal _ => heads
  | .pair B C => heads.file (B, C) A

/-- The nonterminals with a pair whose halves are in the cells of some split. -/
def cell (heads : Heads) (splits : List (Cell × Cell)) : Cell :=
  Cell.ofList (splits.flatMap fun (left, right) =>
    left.symbols.flatMap fun B => right.symbols.flatMap fun C => heads.of (B, C))

end Heads

namespace Grammar

/-- The start symbol, if the word may be looked at: the word has letters, there is a start symbol,
and every letter is a terminal. The first letter that is none is reported. -/
def startFor (g : Grammar) (word : List Char) : Except WordError Char :=
  if word.isEmpty then .error .empty
  else match g.start with
    | none => .error .noStart
    | some S =>
      match word.find? (· ∉ g.terminals) with
      | some a => .error (.unknownLetter a)
      | none => .ok S

/-- The nonterminals with the letter as a body. -/
def letterCell (g : Grammar) (a : Char) : Cell :=
  Cell.ofList (g.nonterminals.filter fun A => .terminal a ∈ g.bodies A)

/-- The index of a grammar. -/
def heads (g : Grammar) : Heads :=
  g.nonterminals.foldl (fun heads A => (g.bodies A).foldl (·.fileBody A) heads) []

/-- The table of the spans of a word that are at most `longer + 1` long. -/
def fill (g : Grammar) (heads : Heads) (word : List Char) : (longer : Nat) → Table
  | 0 => ⟨[word.map g.letterCell]⟩
  | longer + 1 =>
    let shorter := fill g heads word longer
    let starts := List.range (word.length - (longer + 1))
    ⟨shorter.rows ++ [starts.map fun start => heads.cell (shorter.splits start)]⟩

/-- The table of a word, if the word may be looked at. -/
def table (g : Grammar) (word : List Char) : Except WordError Table :=
  (g.startFor word).map fun _ => g.fill g.heads word (word.length - 1)

/-- The table of a word, and the start symbol, which is looked up again once there is a table. -/
def examine (g : Grammar) (word : List Char) : Except WordError (Table × Char) :=
  (g.table word).bind fun table =>
    match g.start with
    | none => .error .noStart
    | some S => .ok (table, S)

/-- Whether the start symbol derives the word. -/
def recognizes (g : Grammar) (word : List Char) : Except WordError Bool :=
  (g.examine word).map fun (table, S) => table.accepts S

/-- The table of a word as text, shortest spans first. -/
def tableText (g : Grammar) (word : List Char) : Except WordError (List Char) :=
  (g.table word).map Table.text

end Grammar

end NormalForm
