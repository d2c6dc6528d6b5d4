import NormalForm.Load.Request
import NormalForm.Load.Rules

/-! # Loading

A grammar file is loaded in stages: its lines are read as rules, the symbols of its pairs are
looked up among the rules, the symbols are registered, the start symbol is set, and the productions
are added. A stage shows all its faults in the order of the file, and the next stage runs only if
there are none. Registering all symbols first lets a rule use one that a later rule defines. -/

namespace NormalForm

open Unicode

/-- How a file is to be loaded. -/
structure LoadMode where
  /-- The start symbol; the symbol of the first rule, if none is given. -/
  start : Option Char := none
  guardsStart : Bool := true
  deriving DecidableEq

namespace Load

/-- The first of the elements that share a key, for each key. -/
def firstBy [BEq β] (key : α → β) : List α → List α
  | [] => []
  | a :: rest => a :: (firstBy key rest).filter (key · != key a)

/-- The terminal that an alternative registers: a single lowercase character. -/
def newTerminal? : List Char → Option Char
  | [c] => if isLowercase c then some c else none
  | _ => none

/-- The terminals that a rule registers, each with the line of the rule. -/
def newTerminals (rule : Rule) : List (Nat × Char) :=
  (rule.alternatives.filterMap newTerminal?).map fun c => (rule.line, c)

/-- Registers every symbol once: the symbols that rules define, then the terminals. -/
def symbolRequests (rules : List Rule) : List Request :=
  (firstBy Rule.head rules).map (fun rule => ⟨some rule.line, .nonterminal rule.head⟩) ++
    (firstBy Prod.snd (rules.flatMap newTerminals)).map fun (line, c) => ⟨some line, .terminal c⟩

/-- Sets the start symbol, if one is asked for or there is a first rule. -/
def startRequests (mode : LoadMode) (rules : List Rule) : List Request :=
  match mode.start, rules with
  | some S, _ => [⟨none, .start S⟩]
  | none, rule :: _ => [⟨some rule.line, .start rule.head⟩]
  | none, [] => []

/-- Adds every alternative of every rule. -/
def productionRequests (rules : List Rule) : List Request :=
  rules.flatMap fun rule =>
    rule.alternatives.map fun text => ⟨some rule.line, .production rule.head text⟩

/-- The grammar that rules define. -/
def assemble (mode : LoadMode) (rules : List Rule) : Except (List Fault) Grammar :=
  match undefinedSymbols rules with
  | [] => do
    let registered ← grant (.empty mode.guardsStart) (symbolRequests rules)
    let started ← grant registered (startRequests mode rules)
    grant started (productionRequests rules)
  | faults => .error faults

/-- The grammar that lines define. -/
def ofLines (mode : LoadMode) (lines : List (Option (List Char))) :
    Except (List Fault) Grammar :=
  (readRules lines).bind (assemble mode)

/-- Puts the name of the file to each fault. -/
def inFile (file : Path) : Except (List Fault) Grammar → Except (List FileFault) Grammar :=
  Except.mapError (·.map (⟨·, file⟩))

/-- Loads a text as if it were the text of a file. -/
def ofText (file : Path) (mode : LoadMode) (text : List Char) :
    Except (List FileFault) Grammar :=
  inFile file (ofLines mode (Lines.ofText text))

/-- Loads what reading a file gave. -/
def ofContents (file : Path) (mode : LoadMode) (contents : Except FileError (List UInt8)) :
    Except (List FileFault) Grammar :=
  match contents with
  | .error e => .error [⟨⟨none, .unreadable e⟩, file⟩]
  | .ok bytes => inFile file (ofLines mode (Lines.ofBytes bytes))

/-- Whether two loads come to the same: equal grammars, or the same faults in the same order. -/
def same : Except (List FileFault) Grammar → Except (List FileFault) Grammar → Bool
  | .ok g, .ok h => g == h
  | .error es, .error fs => es.length == fs.length && (es.zip fs).all fun (e, f) => e.same f
  | _, _ => false

end Load

end NormalForm
