import NormalForm.Grammar.Error
import NormalForm.Unicode.Lowercase
import NormalForm.Unicode.Uppercase

/-! # Grammars

A grammar in Chomsky normal form and the changes it allows. Symbols and bodies keep the order in
which they were added. Every change checks what it is given and either returns the changed grammar
or says why it is refused; the checks come in a fixed order, and the first that fails is named. -/

namespace NormalForm

open Unicode

structure Grammar where
  nonterminals : List Char
  terminals : List Char
  /-- The bodies of each nonterminal, one entry for each in order of registration. -/
  productions : List (Char × List Body)
  start : Option Char
  /-- Whether the start symbol may stand in pairs of its own productions only. -/
  guardsStart : Bool
  deriving DecidableEq

namespace Grammar

/-- A grammar without symbols. -/
def empty (guardsStart : Bool) : Grammar := ⟨[], [], [], none, guardsStart⟩

/-- The bodies of a nonterminal; a character that is none has no bodies. -/
def bodies (g : Grammar) (A : Char) : List Body :=
  (g.productions.lookup A).getD []

/-- The role in which a character is registered; terminals are looked at first. -/
def role? (g : Grammar) (c : Char) : Option Symbol :=
  if c ∈ g.terminals then some (.terminal c)
  else if c ∈ g.nonterminals then some (.nonterminal c)
  else none

def withNonterminal (g : Grammar) (A : Char) : Except EditError Grammar :=
  if !isUppercase A then .error (.wrongCase (.nonterminal A))
  else if A ∈ g.nonterminals then .error (.alreadyDefined (.nonterminal A))
  else .ok { g with
    nonterminals := g.nonterminals ++ [A]
    productions := g.productions ++ [(A, [])] }

def withTerminal (g : Grammar) (a : Char) : Except EditError Grammar :=
  if !isLowercase a then .error (.wrongCase (.terminal a))
  else if a ∈ g.terminals then .error (.alreadyDefined (.terminal a))
  else .ok { g with terminals := g.terminals ++ [a] }

def withStart (g : Grammar) (A : Char) : Except EditError Grammar :=
  if A ∈ g.nonterminals then .ok { g with start := some A }
  else .error (.undefinedNonterminal A)

/-- The start symbol, if it is guarded and a pair would misplace it under another head. -/
def misplaced? (g : Grammar) (head left right : Char) : Option Char :=
  g.start.filter fun S => g.guardsStart && head != S && (left == S || right == S)

/-- The body that a right-hand side spells in a production of `head`. -/
def readBody (g : Grammar) (head : Char) : List Char → Except EditError Body
  | [left, right] =>
    if left ∉ g.nonterminals then .error (.undefinedNonterminal left)
    else if right ∉ g.nonterminals then .error (.undefinedNonterminal right)
    else match g.misplaced? head left right with
      | some S => .error (.misplacedStart S)
      | none => .ok (.pair left right)
  | [letter] =>
    if letter ∈ g.terminals then .ok (.terminal letter) else .error (.undefinedTerminal letter)
  | text => .error (.notNormalForm text)

/-- The grammar with one more body at the end of a nonterminal's list. -/
def append (g : Grammar) (head : Char) (body : Body) : Grammar :=
  { g with productions := g.productions.map fun entry =>
      if entry.1 = head then (entry.1, entry.2 ++ [body]) else entry }

def withProduction (g : Grammar) (head : Char) (text : List Char) : Except EditError Grammar :=
  if head ∉ g.nonterminals then .error (.undefinedNonterminal head)
  else match g.readBody head text with
    | .error e => .error e
    | .ok body =>
      if body ∈ g.bodies head then .error (.repeatedProduction head body)
      else .ok (g.append head body)

end Grammar

end NormalForm
