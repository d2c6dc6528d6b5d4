import NormalForm.Directory.Error
import NormalForm.Grammar.Error
import NormalForm.Path
import NormalForm.Rule.Error

namespace NormalForm

inductive Cause where
  | malformed (error : RuleError)
  /-- A pair holds a symbol without a rule. -/
  | undefinedSymbol (letter : Char)
  /-- The rule is well formed, but the grammar refuses it. -/
  | refused (error : EditError)
  | unreadable (error : FileError)
  deriving DecidableEq

structure Fault where
  line : Option Nat
  cause : Cause
  deriving DecidableEq

structure FileFault extends Fault where
  file : Path
  deriving DecidableEq

namespace Cause

def message : Cause → String
  | malformed e => e.message
  | undefinedSymbol A => s!"Could not find definition for `{A}`"
  | refused e => e.message
  | unreadable e => "File error: " ++ e.description

end Cause

namespace FileFault

/-- The file, with the line if there is one. -/
def location (f : FileFault) : String :=
  match f.line with
  | none => f.file.text
  | some line => f.file.text ++ ":" ++ toString line

/-- The fault as a console shows it: the location in red, the message in bold. -/
def display (f : FileFault) : String :=
  "\x1b[31;49;1m[" ++ f.location ++ "]\x1b[39;49;1m  " ++ f.cause.message ++ "\x1b[0m"

/-- Whether two faults have the same cause at the same place, however the file is spelled. -/
def same (e f : FileFault) : Bool :=
  e.file.same f.file && e.toFault == f.toFault

end FileFault

end NormalForm
