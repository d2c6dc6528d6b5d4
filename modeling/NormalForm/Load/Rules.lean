import NormalForm.Lines
import NormalForm.Load.Error
import NormalForm.Rule.Basic

namespace NormalForm.Load

/-- All results, or all errors if there are any. -/
def gather : List (Except ε α) → Except (List ε) (List α)
  | [] => .ok []
  | .ok a :: rest => (gather rest).map (a :: ·)
  | .error e :: rest =>
    match gather rest with
    | .ok _ => .error [e]
    | .error es => .error (e :: es)

/-- The rule on a numbered line. -/
def scanLine (number : Nat) (text : List Char) : Except Fault Rule :=
  (Rule.ofText number text).mapError fun e => ⟨some number, .malformed e⟩

/-- What each line with a rule holds, from the line of the given number on. -/
def scanLines (number : Nat) : List (Option (List Char)) → List (Except Fault Rule)
  | [] => []
  | none :: _ => [.error ⟨none, .unreadable .notText⟩]
  | some text :: rest =>
    if Rule.isWritten text then scanLine number text :: scanLines (number + 1) rest
    else scanLines (number + 1) rest

/-- The rules of a file, or the faults of its lines. -/
def readRules (lines : List (Option (List Char))) : Except (List Fault) (List Rule) :=
  gather (scanLines 1 lines)

/-- The symbols of an alternative that name nonterminals, which only those of a pair do. -/
def pairSymbols : List Char → List Char
  | [left, right] => [left, right]
  | _ => []

/-- One fault for each symbol in a pair that no rule defines. -/
def undefinedSymbols (rules : List Rule) : List Fault :=
  rules.flatMap fun rule =>
    ((rule.alternatives.flatMap pairSymbols).filter (· ∉ rules.map Rule.head)).map fun c =>
      ⟨some rule.line, .undefinedSymbol c⟩

end NormalForm.Load
