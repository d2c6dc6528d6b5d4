namespace NormalForm

/-- A character in the role of a terminal or of a nonterminal. -/
inductive Symbol where
  | terminal (letter : Char)
  | nonterminal (letter : Char)
  deriving DecidableEq

/-- The right-hand side of a production. -/
inductive Body where
  | terminal (letter : Char)
  | pair (left right : Char)
  deriving DecidableEq

namespace Body

/-- The body as it is written in a rule. -/
def text : Body → List Char
  | terminal a => [a]
  | pair B C => [B, C]

/-- The body as a sentential form. -/
def symbols : Body → List Symbol
  | terminal a => [.terminal a]
  | pair B C => [.nonterminal B, .nonterminal C]

/-- The letter of a terminal body. -/
def letter? : Body → Option Char
  | terminal a => some a
  | pair _ _ => none

end Body

end NormalForm
