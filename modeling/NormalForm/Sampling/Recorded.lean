import NormalForm.Sampling

/-! # Sampling on record

Words sampled once more, letter by letter: an expansion adds to one word that is kept, and takes one
from its depth for the halves of a pair, which halts it if the depth is zero. It also keeps count of
the numbers that are refused, and a list of the bodies that are chosen. However an expansion ends,
its record is there.
-/

namespace NormalForm

/-- Why an expansion halts before its word is whole. -/
inductive Halt where
  | failed (e : SamplingError)
  /-- The source did not come to a usable number in time. -/
  | impatient
  /-- One was to be taken from a depth of zero. -/
  | belowZero
  deriving DecidableEq

structure Record where
  /-- The place in the source of the next number. -/
  place : Nat
  word : List Char
  /-- How many of the numbers drawn were refused. -/
  refused : Nat
  /-- The bodies chosen, in order. -/
  chosen : List Body
  deriving DecidableEq

/-- A computation that draws and writes on a record. -/
abbrev Recording (α : Type) := ExceptT Halt (StateM Record) α

namespace Recording

def draw (source : Source) : Recording UInt32 :=
  modifyGet fun r => (source r.place, { r with place := r.place + 1 })

/-- Draws until a number is usable, and gives the index below `n` that it names. -/
def pick (source : Source) (n : Nat) : (patience : Nat) → Recording Nat
  | 0 => throw .impatient
  | patience + 1 => do
    let v ← draw source
    if Source.usable n v.toNat then return Source.index n v.toNat
    modify fun r => { r with refused := r.refused + 1 }
    pick source n patience

/-- One element of a list, which is drawn for unless the list is empty. -/
def choose (source : Source) (patience : Nat) (choices : List α) : Recording (Option α) := do
  if choices.isEmpty then return none
  return choices[← pick source choices.length patience]?

def write (letter : Char) : Recording Unit :=
  modify fun r => { r with word := r.word ++ [letter] }

end Recording

/-- What an ending comes to for an expansion that keeps no record. -/
def Record.answer (r : Record) :
    Except Halt Unit → Option (Except SamplingError (List Char) × Nat)
  | .ok () => some (.ok r.word, r.place)
  | .error (.failed e) => some (.error e, r.place)
  | .error .impatient => none
  | .error .belowZero => none

namespace Grammar

/-- One of the eligible bodies of a nonterminal. -/
def recordBody (g : Grammar) (source : Source) (patience depth : Nat) (A : Char) :
    Recording Body := do
  if (g.bodies A).isEmpty then throw (.failed (.noBodies A))
  match ← Recording.choose source patience (g.eligible A depth) with
  | some body =>
    modify fun r => { r with chosen := r.chosen ++ [body] }
    return body
  | none => throw (.failed (.nothingEligible A depth))

/-- Adds to the word what a symbol expands to. -/
def spell (g : Grammar) (source : Source) (patience : Nat) :
    (depth : Nat) → Symbol → Recording Unit
  | _, .terminal a => Recording.write a
  | depth, .nonterminal A => do
    match ← g.recordBody source patience depth A with
    | .terminal a => Recording.write a
    | .pair B C =>
      match depth with
      | 0 => throw .belowZero
      | shallower + 1 =>
        spell g source patience shallower (.nonterminal B)
        spell g source patience shallower (.nonterminal C)

/-- How the expansion of a nonterminal ends that draws from `place` on, and its record. -/
def recorded (g : Grammar) (source : Source) (patience depth : Nat) (A : Char) (place : Nat) :
    Except Halt Unit × Record :=
  (g.spell source patience depth (.nonterminal A)).run.run ⟨place, [], 0, []⟩

end Grammar

end NormalForm
