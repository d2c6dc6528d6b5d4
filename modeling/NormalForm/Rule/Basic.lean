import NormalForm.Token

namespace NormalForm

open Unicode

/-- A rule with the number of its line. -/
structure Rule where
  line : Nat
  head : Char
  alternatives : List (List Char)
  deriving DecidableEq

namespace Rule

/-- Whether a line holds a rule, rather than nothing or a comment. -/
def isWritten (line : List Char) : Bool :=
  match line.dropWhile isBlank with
  | [] => false
  | c :: _ => c != ';'

/-- The alternatives that tokens spell, where `current` holds the symbols of the alternative that is
being read, the latest first. The leftmost malformed alternative is reported. -/
def readAlternatives (current : List Char) : List Token → Except RuleError (List (List Char))
  | [] => if current.isEmpty then .error .emptyAlternative else .ok [current.reverse]
  | .bar :: rest =>
    if current.isEmpty then .error .emptyAlternative
    else (readAlternatives [] rest).map (current.reverse :: ·)
  | .symbol c :: rest => readAlternatives (c :: current) rest
  | .defines :: _ => .error .secondDefines

/-- The rule that tokens spell: a symbol, `::=`, and alternatives with bars between them. -/
def ofTokens (line : Nat) : List Token → Except RuleError Rule
  | .symbol head :: .defines :: rest => (readAlternatives [] rest).map (⟨line, head, ·⟩)
  | .symbol _ :: _ => .error .noDefines
  | _ => .error .noHead

/-- The rule on a line. -/
def ofText (line : Nat) (text : List Char) : Except RuleError Rule :=
  (Token.scan text).bind (ofTokens line)

end Rule

end NormalForm
