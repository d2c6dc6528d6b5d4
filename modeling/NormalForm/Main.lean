import NormalForm.Command

namespace NormalForm.Main

/-- Why the system could not read a file. -/
def fileError : IO.Error → FileError
  | .noFileOrDirectory _ _ _ => .notFound
  | .inappropriateType _ 21 _ => .isADirectory
  | .inappropriateType _ _ _ => .notADirectory
  | .invalidArgument _ 22 _ => .nullInName
  | .invalidArgument _ _ _ => .nameTooLong
  | e => .other e.toString

def readFile (path : Path) : IO (Except FileError (List UInt8)) := do
  match ← (IO.FS.readBinFile path.text).toBaseIO with
  | .ok bytes => return .ok bytes.toList
  | .error e => return .error (fileError e)

def run (arguments : List String) : IO UInt32 := do
  let contents ← match Arguments.read arguments with
    | .ok settings => readFile settings.file
    | .error _ => pure (.error .notFound)
  let seed ← IO.rand 0 (Source.range - 1)
  let response := Command.respond arguments (fun _ => contents) (Source.congruential seed.toUInt32)
  IO.print response.output
  IO.eprint response.errors
  return response.exit.toUInt32

end NormalForm.Main

def main (arguments : List String) : IO UInt32 := NormalForm.Main.run arguments
