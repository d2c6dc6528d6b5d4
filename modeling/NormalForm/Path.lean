namespace NormalForm

/-- The name of a file as it was given. -/
structure Path where
  text : String
  deriving DecidableEq

namespace Path

/-- What stands between the slashes. -/
def segments (path : Path) : List String := path.text.splitOn "/"

/-- Whether the path starts from the root. -/
def isRooted (path : Path) : Bool := path.text.startsWith "/"

/-- The components by which paths are compared: repeated slashes, a slash at the end and dots inside
do not count, a dot at the start of a relative path does. -/
def components (path : Path) : List String :=
  let names := path.segments.filter (!·.isEmpty)
  if path.isRooted then "/" :: names.filter (· != ".")
  else match names with
    | "." :: rest => "." :: rest.filter (· != ".")
    | _ => names.filter (· != ".")

/-- Whether two paths are spellings of one. -/
def same (p q : Path) : Bool := p.components == q.components

end Path

end NormalForm
