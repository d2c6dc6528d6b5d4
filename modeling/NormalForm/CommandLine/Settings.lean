import NormalForm.Load.Basic
import NormalForm.Path

namespace NormalForm

/-- How much is logged; each level includes those before it. -/
inductive LogLevel where
  | warn
  | info
  | debug
  | trace
  deriving DecidableEq

namespace LogLevel

def name : LogLevel → String
  | warn => "WARN"
  | info => "INFO"
  | debug => "DEBUG"
  | trace => "TRACE"

def rank : LogLevel → Nat
  | warn => 0
  | info => 1
  | debug => 2
  | trace => 3

/-- The level for a count of verbose flags. -/
def ofCount : Nat → LogLevel
  | 0 => warn
  | 1 => info
  | 2 => debug
  | _ => trace

end LogLevel

structure Settings where
  file : Path
  words : List (List Char)
  start : Option Char
  /-- Whether the table of each word is shown. -/
  showsTable : Bool
  /-- How many words are generated. -/
  amount : Option Nat
  /-- How deep the derivations of generated words may be. -/
  depth : Nat
  guardsStart : Bool
  /-- How often more logging was asked for. -/
  verbosity : Nat
  deriving DecidableEq

namespace Settings

def loadMode (s : Settings) : LoadMode := ⟨s.start, s.guardsStart⟩

def level (s : Settings) : LogLevel := .ofCount s.verbosity

end Settings

end NormalForm
