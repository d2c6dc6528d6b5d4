import NormalForm.Grammar.Basic

namespace NormalForm.Grammar

/-- Several texts with a bar between neighbours. -/
def barred : List (List Char) → List Char
  | [] => []
  | [text] => text
  | text :: more => text ++ '|' :: barred more

/-- The rule of a nonterminal, empty if it has no bodies. -/
def ruleText (g : Grammar) (A : Char) : List Char :=
  match g.bodies A with
  | [] => []
  | bodies => A :: ':' :: ':' :: '=' :: barred (bodies.map Body.text)

def lines (g : Grammar) : List (List Char) :=
  (g.nonterminals.map g.ruleText).filter (!·.isEmpty)

/-- The whole grammar, each line ended by a newline. -/
def text (g : Grammar) : List Char :=
  g.lines.flatMap (· ++ ['\n'])

end NormalForm.Grammar
