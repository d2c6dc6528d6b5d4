namespace NormalForm

inductive RuleError where
  /-- A colon does not open `::=`. -/
  | strayColon
  /-- The line starts with something other than a symbol. -/
  | noHead
  /-- The first symbol is not followed by `::=`. -/
  | noDefines
  /-- Nothing stands between two bars, or after `::=`, or after the last bar. -/
  | emptyAlternative
  /-- A second `::=` stands in the rule. -/
  | secondDefines
  deriving DecidableEq

namespace RuleError

def message : RuleError → String
  | strayColon => "Expected `::=`"
  | noHead => "Tried to define something other than a nonterminal"
  | noDefines => "Expected `::=` after nonterminal"
  | emptyAlternative => "Empty alternative (productions are `a` or `BC`)"
  | secondDefines => "Unexpected `::=` encountered"

end RuleError

end NormalForm
