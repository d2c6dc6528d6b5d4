namespace NormalForm

inductive Flag where
  | table
  | allowStart
  | verbose
  | help
  | version
  deriving DecidableEq

inductive Valued where
  | start
  | amount
  | depth
  deriving DecidableEq

/-- A flag stands alone; a valued option takes a value, attached to it or as the next argument. -/
inductive Switch where
  | flag (flag : Flag)
  | valued (option : Valued)
  deriving DecidableEq

namespace Switch

/-- The switches by the name after two dashes. -/
def names : List (String × Switch) :=
  [ ("start", .valued .start), ("table", .flag .table), ("generate", .valued .amount),
    ("max-depth", .valued .depth), ("allow-start-on-rhs", .flag .allowStart),
    ("verbose", .flag .verbose), ("help", .flag .help), ("version", .flag .version) ]

/-- The switches by the letter after one dash. -/
def letters : List (Char × Switch) :=
  [ ('s', .valued .start), ('t', .flag .table), ('n', .valued .amount), ('v', .flag .verbose),
    ('h', .flag .help), ('V', .flag .version) ]

def ofName? (name : List Char) : Option Switch := names.lookup (String.ofList name)

def ofLetter? (letter : Char) : Option Switch := letters.lookup letter

end Switch

end NormalForm
