/-
# The program

Opens the files that the arguments name, then those that follow from the references, and hands what
was found to the run.
-/
import ForestRescoring.CommandLine.Run

namespace ForestRescoring

/-- The cause of a system error. -/
def FileError.ofSystem : IO.Error → FileError
  | .noFileOrDirectory _ _ _ => .notFound
  | .inappropriateType _ 20 _ => .notDirectory
  | .inappropriateType _ 21 _ => .isDirectory
  | .invalidArgument _ 36 _ => .nameTooLong
  | .permissionDenied _ code _ => .other ("Permission denied (os error " ++ toString code ++ ")")
  | e => .other e.toString

/-- What opening a path gives now. -/
def openPath (path : String) : IO (Except FileError Opened) := do
  if Files.holdsPathEnd path then return .error .nulInPath
  match ← (IO.FS.Handle.mk path .read).toBaseIO with
  | .error e => return .error (.ofSystem e)
  | .ok handle =>
    match ← handle.readBinToEnd.toBaseIO with
    | .error e => return .ok (.unreadable (.ofSystem e))
    | .ok bytes => return .ok (.file bytes)

/-- What opening each of several paths gives now. -/
def openPaths (paths : List String) : IO (List (String × Except FileError Opened)) :=
  paths.mapM fun path => do return (path, ← openPath path)

/-- The file system of the paths that were opened. -/
def filesOf (found : List (String × Except FileError Opened)) : Files := fun path =>
  (found.lookup path).getD (.error .notFound)

end ForestRescoring

open ForestRescoring in
/-- Runs the program on the arguments of the process. -/
def main (args : List String) : IO UInt32 := do
  let front : CommandLine.FrontEnd := .standard
  let named ← openPaths (CommandLine.namedPaths front args)
  let forests ← openPaths (CommandLine.forestPaths front (filesOf named) args)
  let outcome := CommandLine.run front (filesOf (named ++ forests)) args
  (← IO.getStdout).putStr outcome.output
  (← IO.getStderr).putStr outcome.errors
  return UInt32.ofNat outcome.exitCode
