import NormalForm.Grammar.Basic

namespace NormalForm

namespace Grammar

/-- Any number of replacements of one nonterminal by one of its bodies. -/
inductive DerivesForm (g : Grammar) (form : List Symbol) : List Symbol → Prop where
  | refl : DerivesForm g form form
  | step {before after : List Symbol} {A : Char} {body : Body} :
      DerivesForm g form (before ++ .nonterminal A :: after) → body ∈ g.bodies A →
      DerivesForm g form (before ++ body.symbols ++ after)

/-- The nonterminal derives the word. -/
def Derives (g : Grammar) (A : Char) (word : List Char) : Prop :=
  g.DerivesForm [.nonterminal A] (word.map .terminal)

end Grammar

/-- A derivation tree of a grammar in Chomsky normal form. -/
inductive Tree where
  | leaf (head letter : Char)
  | node (head : Char) (left right : Tree)
  deriving DecidableEq

namespace Tree

def head : Tree → Char
  | leaf A _ => A
  | node A _ _ => A

/-- The word at the leaves, from left to right. -/
def word : Tree → List Char
  | leaf _ a => [a]
  | node _ left right => left.word ++ right.word

/-- The greatest number of pairs on a path from the root. -/
def nesting : Tree → Nat
  | leaf _ _ => 0
  | node _ left right => max left.nesting right.nesting + 1

/-- Every node follows a production of the grammar. -/
inductive Follows (g : Grammar) : Tree → Prop where
  | leaf {A a : Char} : Body.terminal a ∈ g.bodies A → Follows g (.leaf A a)
  | node {A : Char} {left right : Tree} : Body.pair left.head right.head ∈ g.bodies A →
      Follows g left → Follows g right → Follows g (.node A left right)

end Tree

end NormalForm
