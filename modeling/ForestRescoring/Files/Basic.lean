/-
# Files

What the library needs of a file system: opening a path either fails or gives something that can
be read or not.  A directory can be opened and cannot be read, so the two failures are kept apart.
All operations on files take the file system as a function from paths, and a run that reads a path
twice sees the same twice.
-/
namespace ForestRescoring

/-- Why a file could not be opened or read. -/
inductive FileError where
  /-- Nothing has that path. -/
  | notFound
  /-- The path leads through something that is not a directory. -/
  | notDirectory
  /-- The path is that of a directory. -/
  | isDirectory
  /-- The path, or a name in it, has too many bytes. -/
  | nameTooLong
  /-- The path holds the character that ends paths. -/
  | nulInPath
  /-- The bytes encode no text. -/
  | invalidText
  /-- Any other cause, in the system's words. -/
  | other (text : String)
  deriving DecidableEq, Repr

/-- The words for a failure, with the system's number where it has one. -/
def FileError.message : FileError → String
  | .notFound => "No such file or directory (os error 2)"
  | .notDirectory => "Not a directory (os error 20)"
  | .isDirectory => "Is a directory (os error 21)"
  | .nameTooLong => "File name too long (os error 36)"
  | .nulInPath => "file name contained an unexpected NUL byte"
  | .invalidText => "stream did not contain valid UTF-8"
  | .other text => text

/-- What is found behind a path that could be opened. -/
inductive Opened where
  /-- A file with its bytes. -/
  | file (bytes : ByteArray)
  /-- Something that cannot be read. -/
  | unreadable (cause : FileError)

/-- A file system: what opening each path gives. -/
abbrev Files := String → Except FileError Opened

namespace Files

/-- The bytes of what was opened. -/
def contents : Opened → Except FileError ByteArray
  | .file bytes => .ok bytes
  | .unreadable cause => .error cause

/-- Opens and reads a file as text, which all of its bytes have to encode. -/
def readText (files : Files) (path : String) : Except FileError String := do
  let opened ← files path
  let bytes ← contents opened
  match String.fromUTF8? bytes with
  | some text => .ok text
  | none => .error .invalidText

/-- The character that ends a path where the system reads it, so that none can hold it. -/
def pathEnd : Char := '\x00'

/-- The path holds the character that ends paths. -/
def holdsPathEnd (path : String) : Bool := path.toList.contains pathEnd

/-- The path of a name in a directory: a slash stands between the two unless the directory's path
is empty or ends in one. -/
def join (directory name : String) : String :=
  if directory = "" then name
  else if directory.toList.getLast? = some '/' then directory ++ name
  else directory ++ "/" ++ name

end Files

end ForestRescoring
