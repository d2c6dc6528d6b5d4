import NormalForm.Rule.Error
import NormalForm.Unicode.Blank

namespace NormalForm

open Unicode

/-- What a line is cut into. A symbol is any other character that is not blank. -/
inductive Token where
  | defines
  | bar
  | symbol (letter : Char)
  deriving DecidableEq

namespace Token

/-- The tokens of a line; a colon that does not open `::=` is the only error. -/
def scan : List Char → Except RuleError (List Token)
  | [] => .ok []
  | ':' :: ':' :: '=' :: rest => (scan rest).map (defines :: ·)
  | ':' :: _ => .error .strayColon
  | '|' :: rest => (scan rest).map (bar :: ·)
  | c :: rest => if isBlank c then scan rest else (scan rest).map (symbol c :: ·)

end Token

end NormalForm
