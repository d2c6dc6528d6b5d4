import NormalForm.CommandLine.Numeral
import NormalForm.CommandLine.Settings
import NormalForm.CommandLine.Switch

/-! # Arguments

The arguments of a command are read from left to right. What an argument gives is held back until
the next one shows that it is complete, and only then checked: so an error that is seen while an
argument is read, such as an unknown option, comes before a fault of the argument held back. The
first argument that belongs to no option is the file, and the others are words; after two dashes
every argument is one of these. -/

namespace NormalForm

inductive Misuse where
  | noFile
  /-- An option lacks its value, or the name of the file is empty. -/
  | noValue
  /-- A value does not have the form or the size that its option asks for. -/
  | badValue
  | unknownOption
  | repeatedOption
  /-- A value is attached to a flag. -/
  | unwantedValue
  deriving DecidableEq

/-- Why reading ends without settings. -/
inductive Stop where
  | help
  | version
  | misuse (error : Misuse)
  deriving DecidableEq

namespace Arguments

/-- The largest amount of words. -/
def largestAmount : Nat := 0xFFFFFFFF

/-- The largest depth; a word of it has at most `2 ^ 16` letters. -/
def largestDepth : Nat := 16

/-- The depth when none is given. -/
def usualDepth : Nat := 8

/-- The settings as far as they are known. -/
structure Draft where
  file : Option String := none
  words : List (List Char) := []
  start : Option Char := none
  showsTable : Bool := false
  amount : Option Nat := none
  depth : Option Nat := none
  allowsStart : Bool := false
  verbosity : Nat := 0

/-- What is held back: an option that waits for its value, an option with its value, the file, or
words in a row. -/
inductive Pending where
  | nothing
  | waiting (option : Valued)
  | valued (option : Valued) (value : List Char)
  | file (name : List Char)
  | words (words : List (List Char))

structure Reading where
  draft : Draft := {}
  pending : Pending := .nothing
  /-- Whether the file was read, held back or not. -/
  hasFile : Bool := false
  /-- Whether two dashes were read. -/
  isLiteral : Bool := false

/-- Stores a value that is given for the first time. -/
def once (stored : Option α) (value : Option α) : Except Stop α :=
  match stored, value with
  | some _, _ => .error (.misuse .repeatedOption)
  | none, none => .error (.misuse .badValue)
  | none, some a => .ok a

def character? : List Char → Option Char
  | [c] => some c
  | _ => none

def amount? (text : List Char) : Option Nat :=
  (Numeral.integer? text).bind fun n =>
    if 0 ≤ n ∧ n ≤ (largestAmount : Int) then some n.toNat else none

def depth? (text : List Char) : Option Nat :=
  (Numeral.natural? text).filter (· ≤ largestDepth)

/-- Gives an option its value. -/
def Draft.assign (d : Draft) (option : Valued) (value : List Char) : Except Stop Draft :=
  match option with
  | .start => (once d.start (character? value)).map ({ d with start := some · })
  | .amount => (once d.amount (amount? value)).map ({ d with amount := some · })
  | .depth => (once d.depth (depth? value)).map ({ d with depth := some · })

/-- Sets a flag that is given for the first time. -/
def onceFlag (isSet : Bool) (d : Draft) : Except Stop Draft :=
  if isSet then .error (.misuse .repeatedOption) else .ok d

/-- Raises a flag; only the verbose flag may be repeated, and counts up to a byte. -/
def Draft.raise (d : Draft) : Flag → Except Stop Draft
  | .table => onceFlag d.showsTable { d with showsTable := true }
  | .allowStart => onceFlag d.allowsStart { d with allowsStart := true }
  | .verbose => .ok { d with verbosity := min (d.verbosity + 1) 255 }
  | .help => .error .help
  | .version => .error .version

/-- Checks and stores what is held back. -/
def Reading.settle (r : Reading) : Except Stop Reading :=
  match r.pending with
  | .nothing => .ok r
  | .waiting _ => .error (.misuse .noValue)
  | .valued option value =>
    (r.draft.assign option value).map fun draft => { r with draft, pending := .nothing }
  | .file name =>
    if name.isEmpty then .error (.misuse .noValue)
    else .ok { r with
      draft := { r.draft with file := some (String.ofList name) }
      pending := .nothing }
  | .words words =>
    .ok { r with
      draft := { r.draft with words := r.draft.words ++ words }
      pending := .nothing }

def Reading.raise (r : Reading) (flag : Flag) : Except Stop Reading := do
  let r ← r.settle
  let draft ← r.draft.raise flag
  return { r with draft }

/-- An option with its value attached. -/
def Reading.attach (r : Reading) (option : Valued) (value : List Char) : Except Stop Reading := do
  let r ← r.settle
  let draft ← r.draft.assign option value
  return { r with draft }

/-- An option whose value is the next argument. -/
def Reading.await (r : Reading) (option : Valued) : Except Stop Reading := do
  let r ← r.settle
  return { r with pending := .waiting option }

/-- An argument that belongs to no option. -/
def Reading.place (r : Reading) (argument : List Char) : Except Stop Reading :=
  if !r.hasFile then do
    let r ← r.settle
    return { r with pending := .file argument, hasFile := true }
  else match r.pending with
    | .words words => .ok { r with pending := .words (words ++ [argument]) }
    | _ => do
      let r ← r.settle
      return { r with pending := .words [argument] }

/-- An argument after two dashes: a name, or a name and a value with an equals sign between them. -/
def Reading.long (r : Reading) (text : List Char) : Except Stop Reading :=
  let name := text.takeWhile (· != '=')
  let value? := match text.dropWhile (· != '=') with
    | [] => none
    | _ :: value => some value
  match Switch.ofName? name, value? with
  | none, _ => .error (.misuse .unknownOption)
  | some (.flag _), some _ => .error (.misuse .unwantedValue)
  | some (.flag flag), none => r.raise flag
  | some (.valued option), some value => r.attach option value
  | some (.valued option), none => r.await option

/-- The letters after one dash: flags, and at the end an option that may have its value attached,
with or without an equals sign. -/
def Reading.short (r : Reading) : List Char → Except Stop Reading
  | [] => .ok r
  | letter :: rest =>
    match Switch.ofLetter? letter with
    | none => .error (.misuse .unknownOption)
    | some (.flag flag) => (r.raise flag).bind (short · rest)
    | some (.valued option) =>
      match rest with
      | [] => r.await option
      | '=' :: value => r.attach option value
      | value => r.attach option value

/-- Reads one more argument. -/
def Reading.next (r : Reading) (argument : List Char) : Except Stop Reading :=
  if r.isLiteral then r.place argument
  else match argument with
    | ['-', '-'] => .ok { r with isLiteral := true }
    | '-' :: '-' :: text => r.long text
    | '-' :: letter :: rest => r.short (letter :: rest)
    | _ =>
      match r.pending with
      | .waiting option => .ok { r with pending := .valued option argument }
      | _ => r.place argument

/-- The settings, once all arguments are read. -/
def Reading.finish (r : Reading) : Except Stop Settings := do
  let ⟨d, _, _, _⟩ ← r.settle
  match d.file with
  | none => .error (.misuse .noFile)
  | some file =>
    return {
      file := ⟨file⟩
      words := d.words
      start := d.start
      showsTable := d.showsTable
      amount := d.amount
      depth := d.depth.getD usualDepth
      guardsStart := !d.allowsStart
      verbosity := d.verbosity }

/-- The settings that a list of arguments asks for. -/
def read (arguments : List String) : Except Stop Settings :=
  ((arguments.map String.toList).foldlM Reading.next {}).bind Reading.finish

end Arguments

end NormalForm
