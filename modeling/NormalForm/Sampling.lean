import NormalForm.Grammar.Basic
import NormalForm.Source

/-! # Sampling words

A word is sampled by expanding a nonterminal: while depth is left one of its bodies is chosen, and
at depth zero one of those that are letters. A pair spends one level of depth on both of its
halves, the left half first, so a word of depth `d` has at most `2 ^ d` letters. Each choice draws
from a source, and a choice that runs out of patience leaves the whole run without a result. -/

namespace NormalForm

inductive SamplingError where
  | noStart
  | noBodies (head : Char)
  /-- No depth is left for a nonterminal whose bodies are all pairs. -/
  | outOfDepth (head : Char)
  deriving DecidableEq

namespace SamplingError

def message : SamplingError → String
  | noStart => "The grammar has no start symbol"
  | noBodies A => s!"No productions for nonterminal `{A}`"
  | outOfDepth A => s!"Ran out of depth while expanding `{A}`"

/-- The error where no body may be chosen. -/
def nothingEligible (A : Char) : (depth : Nat) → SamplingError
  | 0 => .outOfDepth A
  | _ + 1 => .noBodies A

end SamplingError

/-- A computation that draws: from a place in the source it comes to a result and a later place. -/
abbrev Sampling (α : Type) := ExceptT SamplingError (StateT Nat Option) α

/-- One element of a list, which is drawn for unless the list is empty. -/
def choose (source : Source) (patience : Nat) (choices : List α) : Sampling (Option α) :=
  ExceptT.mk fun place =>
    if choices.isEmpty then some (.ok none, place)
    else (source.pick choices.length place patience).map fun (i, next) => (.ok choices[i]?, next)

namespace Grammar

/-- The bodies that may be chosen: all of them, or only the letters when no depth is left. -/
def eligible (g : Grammar) (A : Char) : (depth : Nat) → List Body
  | 0 => (g.bodies A).filter fun body => body.letter?.isSome
  | _ + 1 => g.bodies A

/-- One of the eligible bodies of a nonterminal. -/
def chooseBody (g : Grammar) (source : Source) (patience depth : Nat) (A : Char) :
    Sampling Body := do
  if (g.bodies A).isEmpty then throw (.noBodies A)
  match ← choose source patience (g.eligible A depth) with
  | some body => return body
  | none => throw (.nothingEligible A depth)

/-- The word that a nonterminal expands to. -/
def expand (g : Grammar) (source : Source) (patience : Nat) :
    (depth : Nat) → Char → Sampling (List Char)
  | 0, A => do
    match ← g.chooseBody source patience 0 A with
    | .terminal a => return [a]
    | .pair _ _ => throw (.outOfDepth A)
  | depth + 1, A => do
    match ← g.chooseBody source patience (depth + 1) A with
    | .terminal a => return [a]
    | .pair B C =>
      let left ← expand g source patience depth B
      let right ← expand g source patience depth C
      return left ++ right

/-- A word of a nonterminal, drawn for from `place` on, and the place after the last draw. -/
def sampleFrom (g : Grammar) (source : Source) (patience depth : Nat) (A : Char) (place : Nat) :
    Option (Except SamplingError (List Char) × Nat) :=
  (g.expand source patience depth A).run.run place

/-- A word of the start symbol, drawn for from `place` on, and the place after the last draw. -/
def sample (g : Grammar) (source : Source) (patience depth place : Nat) :
    Option (Except SamplingError (List Char) × Nat) :=
  match g.start with
  | none => some (.error .noStart, place)
  | some S => g.sampleFrom source patience depth S place

end Grammar

end NormalForm
