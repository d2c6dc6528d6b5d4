/-! # Lines

A text is cut into lines at newlines; a carriage return just before a newline belongs to the
newline, and a newline at the end opens no further line. Bytes are cut in the same way before each
line is decoded, so a line that is not valid UTF-8 does not hide the lines before it. -/

namespace NormalForm.Lines

/-- Cuts at `newline`, and drops a `carriage` just before one. -/
def split [DecidableEq α] (newline carriage : α) : List α → List (List α)
  | [] => []
  | [c] => if c = newline then [[]] else [[c]]
  | c :: d :: rest =>
    if c = newline then [] :: split newline carriage (d :: rest)
    else if c = carriage ∧ d = newline then [] :: split newline carriage rest
    else match split newline carriage (d :: rest) with
      | [] => [[c]]
      | line :: lines => (c :: line) :: lines

/-- The text that bytes encode, if they are valid UTF-8. -/
def decode (bytes : List UInt8) : Option (List Char) :=
  (String.fromUTF8? bytes.toByteArray).map String.toList

/-- The lines of a text. -/
def ofText (text : List Char) : List (Option (List Char)) :=
  (split '\n' '\r' text).map some

/-- The lines of a file, each decoded by itself. -/
def ofBytes (bytes : List UInt8) : List (Option (List Char)) :=
  (split 0x0A 0x0D bytes).map decode

end NormalForm.Lines
