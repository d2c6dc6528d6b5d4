import NormalForm.Grammar.Symbol

namespace NormalForm

inductive EditError where
  /-- The character lacks the case that its role asks for. -/
  | wrongCase (symbol : Symbol)
  /-- The character is registered in this role already. -/
  | alreadyDefined (symbol : Symbol)
  | undefinedNonterminal (letter : Char)
  | undefinedTerminal (letter : Char)
  /-- The right-hand side has neither one symbol nor two. -/
  | notNormalForm (text : List Char)
  | repeatedProduction (head : Char) (body : Body)
  /-- A pair of another nonterminal holds the start symbol. -/
  | misplacedStart (start : Char)
  deriving DecidableEq

namespace EditError

def message : EditError → String
  | wrongCase (.terminal a) => s!"`{a}` is not a lowercase letter and cannot be a terminal"
  | wrongCase (.nonterminal A) => s!"`{A}` is not an uppercase letter and cannot be a nonterminal"
  | alreadyDefined (.terminal a) => s!"Terminal `{a}` is already defined"
  | alreadyDefined (.nonterminal A) => s!"Nonterminal `{A}` is already defined"
  | undefinedNonterminal A => s!"`{A}` is not a defined nonterminal"
  | undefinedTerminal a => s!"`{a}` is not a defined terminal"
  | notNormalForm text =>
    let shown := String.ofList text
    s!"`{shown}` is not in Chomsky normal form (expected `a` or `BC`)"
  | repeatedProduction head body =>
    let shown := String.ofList body.text
    s!"Production `{head}::={shown}` already exists"
  | misplacedStart S => s!"Start symbol `{S}` may only appear in its own productions"

end EditError

end NormalForm
