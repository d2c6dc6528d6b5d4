import NormalForm.Rule.Basic

/-! # Reading rules with checks

The steps of reading a rule apart, each with a check of what the step before it is to ensure: that a
line has tokens, and that an alternative has no bar. Only a mistake of the reader could lead to the
two errors of these checks. -/

namespace NormalForm

/-- Why tokens are not read as a rule. -/
inductive ReadingError where
  | malformed (error : RuleError)
  /-- A line without tokens is read. -/
  | blankLine
  /-- A bar is left in an alternative. -/
  | unsplitAlternatives
  deriving DecidableEq

def ReadingError.message : ReadingError → String
  | malformed e => e.message
  | blankLine =>
    "Blank line encountered in rule parser (this is a problem with cyk, not the grammar)"
  | unsplitAlternatives =>
    "Alternatives were not fully split (this is a problem with cyk, not the grammar)"

namespace Rule

def readLetter : Token → Except ReadingError Char
  | .defines => .error (.malformed .secondDefines)
  | .bar => .error .unsplitAlternatives
  | .symbol c => .ok c

/-- The symbols of one alternative. -/
def readAlternative (tokens : List Token) : Except ReadingError (List Char) :=
  if tokens.isEmpty then .error (.malformed .emptyAlternative) else tokens.mapM readLetter

/-- The alternatives that stand between bars. -/
def readBetweenBars (tokens : List Token) : Except ReadingError (List (List Char)) :=
  (tokens.splitOn .bar).mapM readAlternative

def readHead (tokens : List Token) : Except ReadingError Char :=
  match tokens.head? with
  | some (.symbol c) => .ok c
  | some _ => .error (.malformed .noHead)
  | none => .error .blankLine

/-- The rule that tokens spell. -/
def readTokens (line : Nat) (tokens : List Token) : Except ReadingError Rule := do
  let head ← readHead tokens
  if tokens[1]? ≠ some .defines then throw (.malformed .noDefines)
  let alternatives ← readBetweenBars (tokens.drop 2)
  return ⟨line, head, alternatives⟩

/-- The rule on a line. -/
def readText (line : Nat) (text : List Char) : Except ReadingError Rule := do
  readTokens line (← (Token.scan text).mapError .malformed)

end Rule

end NormalForm
