import NormalForm.CommandLine.Arguments
import NormalForm.Grammar.Text
import NormalForm.Load.Basic
import NormalForm.Recognition
import NormalForm.Sampling

/-! # The command

A whole run of the command as a function of its arguments, the files it can read and a source of
random numbers. Without words and without an amount it prints the grammar; otherwise it answers the
words one by one and then samples new ones. An error of one word does not keep the next from being
answered, but it is remembered in the exit code. -/

namespace NormalForm

structure Response where
  exit : Nat
  output : String
  /-- What is written to the error stream, but for the records of filling tables. -/
  errors : String
  deriving DecidableEq

namespace Command

def nameAndVersion : String := "cyk 0.1.0\n"

def usage : String :=
  "Membership testing for context-free grammars in Chomsky normal form\n\n" ++
  "Usage: cyk [OPTIONS] <FILE> [WORDS]...\n\n" ++
  "Arguments:\n" ++
  "  <FILE>      File containing the grammar\n" ++
  "  [WORDS]...  Words to test against the grammar\n\n" ++
  "Options:\n" ++
  "  -s, --start <SYMBOL>      Start symbol (default: first in the file)\n" ++
  "  -t, --table               Print the CYK table for every word\n" ++
  "  -n, --generate <AMOUNT>   Amount of random words to generate\n" ++
  "      --max-depth <DEPTH>   Deepest derivation used when generating (at most 16) " ++
    "[default: 8]\n" ++
  "      --allow-start-on-rhs  Let the start symbol appear in the productions of other " ++
    "nonterminals\n" ++
  "  -v, --verbose...          Log more (repeat for more)\n" ++
  "  -h, --help                Print help\n" ++
  "  -V, --version             Print version\n"

def misuse : Misuse → String
  | .noFile => "error: the file of the grammar is missing\n"
  | .noValue => "error: an option lacks its value\n"
  | .badValue => "error: the value of an option is invalid\n"
  | .unknownOption => "error: there is no such option\n"
  | .repeatedOption => "error: an option is given more than once\n"
  | .unwantedValue => "error: a flag takes no value\n"

/-- What the command has written so far, and whether something went wrong. -/
structure Report where
  output : String := ""
  errors : String := ""
  failed : Bool := false

def Report.andThen (a b : Report) : Report :=
  ⟨a.output ++ b.output, a.errors ++ b.errors, a.failed || b.failed⟩

/-- Whether the word is accepted, with its table if asked for. -/
def verdict (g : Grammar) (showsTable : Bool) (word : List Char) :
    Except WordError (List Char) :=
  (g.examine word).map fun (table, S) =>
    word ++ (if table.accepts S then ": accepted\n" else ": rejected\n").toList ++
      if showsTable then table.text else []

/-- The answer for a word. -/
def answer (g : Grammar) (showsTable : Bool) (word : List Char) : Report :=
  match verdict g showsTable word with
  | .ok text => ⟨String.ofList text, "", false⟩
  | .error e => ⟨"", String.ofList word ++ ": " ++ e.message ++ "\n", true⟩

/-- What is written about a sampled word. -/
def sampled : Except SamplingError (List Char) → Report
  | .ok word => ⟨String.ofList word ++ "\n", "", false⟩
  | .error e => ⟨"", e.message ++ "\n", true⟩

/-- Adds as many sampled words as are asked for, each drawn for from where the draws for the one
before it ended. -/
def addSamples (g : Grammar) (source : Source) (depth : Nat) :
    (amount place : Nat) → Report → Report
  | 0, _, report => report
  | amount + 1, place, report =>
    match g.sample source Source.patience depth place with
    | none => report.andThen ⟨"", "Random numbers ran out\n", true⟩
    | some (result, next) =>
      addSamples g source depth amount next (report.andThen (sampled result))

/-- What the command does with a grammar. -/
def work (settings : Settings) (g : Grammar) (source : Source) : Report :=
  if settings.words.isEmpty && settings.amount.isNone then ⟨String.ofList g.text, "", false⟩
  else
    let answers := settings.words.map (answer g settings.showsTable)
    addSamples g source settings.depth (settings.amount.getD 0) 0 (answers.foldr .andThen {})

/-- A record of the log, if its level is asked for. From `debug` on it also names the thread and the
part of the program that it is from. -/
def record (settings : Settings) (level : LogLevel) (part text : String) : String :=
  if level.rank ≤ settings.level.rank then
    " [" ++ level.name ++ "] " ++
      (if LogLevel.debug.rank ≤ level.rank then "(1) " ++ part ++ ": " else "") ++ text ++ "\n"
  else ""

/-- The record of reading the rules. If the name of the file has several lines, so has the record,
and only the first of them begins with the level. -/
def rulesRecord (settings : Settings) (contents : Except FileError (List UInt8)) : String :=
  match contents with
  | .error _ => ""
  | .ok bytes =>
    match Load.readRules (Lines.ofBytes bytes) with
    | .error _ => ""
    | .ok rules =>
      record settings .debug "cyk::parser"
        s!"Parsed {rules.length} rules from {settings.file.text}"

/-- The record of loading a grammar. -/
def loadRecord (settings : Settings) (g : Grammar) : String :=
  let nonterminals := g.nonterminals.length
  let terminals := g.terminals.length
  record settings .info "cyk"
    s!"Loaded {nonterminals} nonterminals and {terminals} terminals from {settings.file.text}"

/-- A run with given settings, on what reading the file gave. -/
def run (settings : Settings) (contents : Except FileError (List UInt8)) (source : Source) :
    Response :=
  let parsed := rulesRecord settings contents
  match Load.ofContents settings.file settings.loadMode contents with
  | .error es => ⟨1, "", parsed ++ String.join (es.map (·.display ++ "\n"))⟩
  | .ok g =>
    let report := work settings g source
    ⟨if report.failed then 1 else 0, report.output,
      parsed ++ loadRecord settings g ++ report.errors⟩

/-- A run with given arguments. -/
def respond (arguments : List String) (read : Path → Except FileError (List UInt8))
    (source : Source) : Response :=
  match Arguments.read arguments with
  | .error .help => ⟨0, usage, ""⟩
  | .error .version => ⟨0, nameAndVersion, ""⟩
  | .error (.misuse e) => ⟨2, "", misuse e⟩
  | .ok settings => run settings (read settings.file) source

end Command

end NormalForm
