namespace NormalForm

inductive FileError where
  | notFound
  | notADirectory
  | isADirectory
  | nameTooLong
  /-- The path holds a null character. -/
  | nullInName
  /-- A line is not valid UTF-8. -/
  | notText
  | other (description : String)
  deriving DecidableEq

namespace FileError

def description : FileError → String
  | notFound => "No such file or directory (os error 2)"
  | notADirectory => "Not a directory (os error 20)"
  | isADirectory => "Is a directory (os error 21)"
  | nameTooLong => "File name too long (os error 36)"
  | nullInName => "file name contained an unexpected NUL byte"
  | notText => "stream did not contain valid UTF-8"
  | other description => description

end FileError

end NormalForm
