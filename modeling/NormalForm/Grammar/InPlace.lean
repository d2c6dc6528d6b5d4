import NormalForm.Grammar.Edit

/-! # Edits in place

The edits as writes to one grammar that is kept: a refusal takes no earlier write back. Bodies are
stored by nonterminal. Storing replaces the bodies that are there, and a nonterminal that is about
to get a body gets an entry first, before the body is compared with those in it. -/

namespace NormalForm

open Unicode

/-- Writes to a grammar, which end in a value or in a refusal. -/
abbrev Writing (α : Type) := ExceptT EditError (StateM Grammar) α

namespace Grammar

/-- The entries with the bodies of a nonterminal replaced, or with a new entry at the end. -/
def store (A : Char) (bodies : List Body) : List (Char × List Body) → List (Char × List Body)
  | [] => [(A, bodies)]
  | entry :: rest => if entry.1 = A then (A, bodies) :: rest else entry :: store A bodies rest

def withBodies (g : Grammar) (A : Char) (bodies : List Body) : Grammar :=
  { g with productions := store A bodies g.productions }

/-- The grammar with an entry for a nonterminal, an empty one unless there is one already. -/
def withEntry (g : Grammar) (A : Char) : Grammar :=
  if (g.productions.lookup A).isSome then g else g.withBodies A []

/-- Refuses the edit if the grammar, as it is now, has a flaw. -/
def refuseIf (flaw : Grammar → Prop) [DecidablePred flaw] (e : EditError) : Writing Unit := do
  if flaw (← get) then throw e

def writeNonterminal (A : Char) : Writing Unit := do
  refuseIf (fun _ => isUppercase A = false) (.wrongCase (.nonterminal A))
  refuseIf (A ∈ ·.nonterminals) (.alreadyDefined (.nonterminal A))
  modify fun g => { g with nonterminals := g.nonterminals ++ [A] }
  modify (·.withBodies A [])

def writeTerminal (a : Char) : Writing Unit := do
  refuseIf (fun _ => isLowercase a = false) (.wrongCase (.terminal a))
  refuseIf (a ∈ ·.terminals) (.alreadyDefined (.terminal a))
  modify fun g => { g with terminals := g.terminals ++ [a] }

def writeStart (A : Char) : Writing Unit := do
  refuseIf (A ∉ ·.nonterminals) (.undefinedNonterminal A)
  modify fun g => { g with start := some A }

/-- The body that a right-hand side spells in the grammar as it is now. -/
def readNow (head : Char) (text : List Char) : Writing Body := do
  match (← get).readBody head text with
  | .ok body => return body
  | .error e => throw e

def writeProduction (head : Char) (text : List Char) : Writing Unit := do
  refuseIf (head ∉ ·.nonterminals) (.undefinedNonterminal head)
  let body ← readNow head text
  modify (·.withEntry head)
  refuseIf (body ∈ ·.bodies head) (.repeatedProduction head body)
  modify fun g => g.withBodies head (g.bodies head ++ [body])

def writeClear : Writing Unit := do
  modify fun g => { g with terminals := [] }
  modify fun g => { g with nonterminals := [] }
  modify fun g => { g with productions := [] }
  modify fun g => { g with start := none }

def write : Edit → Writing Unit
  | .nonterminal A => writeNonterminal A
  | .terminal a => writeTerminal a
  | .start A => writeStart A
  | .production head text => writeProduction head text
  | .clear => writeClear

/-- How the writes of an edit end, and the grammar that they leave. -/
def written (g : Grammar) (edit : Edit) : Except EditError Unit × Grammar :=
  (write edit).run.run g

end Grammar

end NormalForm
