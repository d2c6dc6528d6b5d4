import NormalForm.Directory.Error
import NormalForm.Path

/-! # Directories

The working directory as the files and directories in it, and what reading a path in it gives. Of
what lies outside nothing is known but that it has directories: going up leads to one, and no name
is found there. -/

namespace NormalForm

inductive Entry where
  | file (bytes : List UInt8)
  | directory
  deriving DecidableEq

/-- The entries of a directory by name; a name with slashes lies in directories of its own. -/
structure Directory where
  entries : List (String × Entry)

namespace Directory

/-- The longest name of a file, in bytes. -/
def longestName : Nat := 255

/-- The longest path, in bytes. -/
def longestPath : Nat := 4095

/-- The entry that a way of names leads to. -/
def entry? (directory : Directory) (names : List String) : Option Entry :=
  let name := "/".intercalate names
  if names.isEmpty then some .directory
  else match directory.entries.lookup name with
    | some entry => some entry
    | none =>
      if directory.entries.any (·.1.startsWith (name ++ "/")) then some .directory else none

/-- Where a walk along the segments of a path has come to: names below the working directory, or
somewhere outside. -/
inductive Place where
  | inside (names : List String)
  | outside

/-- The entry at a place. -/
def Place.entry? (directory : Directory) : Place → Option Entry
  | .inside names => directory.entry? names
  | .outside => some .directory

/-- Goes on from a place by one segment. -/
def Place.enter : Place → String → Option Place
  | .inside names, ".." => some (if names.isEmpty then .outside else .inside names.dropLast)
  | .outside, ".." => some .outside
  | .inside names, name => some (.inside (names ++ [name]))
  | .outside, _ => none

/-- Walks along segments. Nothing can be looked up in a file, not even the file itself. -/
def walk (directory : Directory) (place : Place) : List String → Except FileError Entry
  | [] => match place.entry? directory with
    | some entry => .ok entry
    | none => .error .notFound
  | segment :: rest =>
    match place.entry? directory with
    | none => .error .notFound
    | some (.file _) => .error .notADirectory
    | some .directory =>
      if segment == "" || segment == "." then walk directory place rest
      else if segment.utf8ByteSize > longestName then .error .nameTooLong
      else match place.enter segment with
        | none => .error .notFound
        | some next => walk directory next rest

/-- The bytes of the file that a path names. -/
def read (directory : Directory) (path : Path) : Except FileError (List UInt8) :=
  if path.text.any (· == '\x00') then .error .nullInName
  else if path.text.isEmpty then .error .notFound
  else if path.text.utf8ByteSize > longestPath then .error .nameTooLong
  else match directory.walk (if path.isRooted then .outside else .inside []) path.segments with
    | .error e => .error e
    | .ok .directory => .error .isADirectory
    | .ok (.file bytes) => .ok bytes

end Directory

end NormalForm
