namespace NormalForm.Numeral

def isDigit (c : Char) : Bool := '0' ≤ c && c ≤ '9'

/-- The number that digits spell. -/
def digits? (text : List Char) : Option Nat :=
  if text.isEmpty || !text.all isDigit then none
  else some (text.foldl (fun n c => 10 * n + (c.toNat - '0'.toNat)) 0)

/-- An unsigned number. -/
def natural? : List Char → Option Nat
  | '+' :: digits => digits? digits
  | digits => digits? digits

/-- A signed number. -/
def integer? : List Char → Option Int
  | '-' :: digits => (digits? digits).map fun n => -(n : Int)
  | text => (natural? text).map fun n => (n : Int)

end NormalForm.Numeral
