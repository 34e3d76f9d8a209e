/-
# File systems in memory

A tree of files and directories, given as the list of its paths.  A directory that is only a part of
the way to something else exists as well.

A path is walked name by name from the root of the tree.  Each step has to start in a directory,
also the empty last step of a path that ends in a slash; `.` stays, and `..` goes to the directory
above.  What is above the root, or under an absolute path, is not part of the tree.

Names and whole paths have a largest size in bytes.  A name that is too long is found out when it is
looked up, so an error at an earlier step comes before it; a path that is too long is not walked at
all.
-/
import ForestRescoring.Files.Basic
import ForestRescoring.Text.Lines

namespace ForestRescoring

/-- Names from the root of a tree downwards, and the bytes of the file there; `none` stands for a
directory. -/
structure FileTree where
  entries : List (List String × Option ByteArray)

namespace FileTree

/-- The names of a path; a slash at the end is followed by an empty name. -/
def names (path : String) : List String := path.splitOn "/"

/-- The names of the place that a path leads to, if every step can be made. -/
def placeOf (path : String) : List String :=
  (names path).foldl
    (fun place name =>
      if name = "" ∨ name = "." then place
      else if name = ".." then place.dropLast
      else place ++ [name])
    []

/-- The most bytes in a name. -/
def maxNameSize : Nat := 255

/-- The most bytes in a path. -/
def maxPathSize : Nat := 4095

/-- What is known of a place in the tree. -/
inductive Node where
  | directory
  | file (bytes : ByteArray)

/-- What stands at the place with the given names. -/
def node? (t : FileTree) (place : List String) : Option Node :=
  match t.entries.find? fun e => e.1 == place with
  | some (_, some bytes) => some (.file bytes)
  | some (_, none) => some .directory
  | none =>
    if place.isEmpty || t.entries.any (fun e => place.isPrefixOf e.1) then some .directory else none

/-- Walks on from a place; `none` stands for a directory above the root. -/
def walk (t : FileTree) : Option (List String) → List String → Except FileError Opened
  | place, [] =>
    match place.bind t.node? with
    | some (.file bytes) => .ok (.file bytes)
    | _ => .ok (.unreadable .isDirectory)
  | place, name :: rest =>
    match place.bind t.node? with
    | some (.file _) => .error .notDirectory
    | _ =>
      if name = "" ∨ name = "." then t.walk place rest
      else if name = ".." then
        t.walk (place.bind fun p => if p.isEmpty then none else some p.dropLast) rest
      else if maxNameSize < name.utf8ByteSize then .error .nameTooLong
      else
        match place with
        | none => .error .notFound
        | some p =>
          match t.node? (p ++ [name]) with
          | none => .error .notFound
          | some _ => t.walk (some (p ++ [name])) rest

/-- The file system of a tree. -/
def toFiles (t : FileTree) : Files := fun path =>
  if Files.holdsPathEnd path then .error .nulInPath
  else if path = "" then .error .notFound
  else if maxPathSize < path.utf8ByteSize then .error .nameTooLong
  else if path.toList.head? = some '/' then t.walk none (names path)
  else t.walk (some []) (names path)

end FileTree

end ForestRescoring
