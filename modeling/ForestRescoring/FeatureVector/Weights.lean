/-
# Weights files

A weights file has a name and a number on each line, with blanks between them.  Lines without words
and lines whose first word begins with `#` say nothing.  The first line that says something else
makes the file invalid; where a name has several lines the last decides.
-/
import ForestRescoring.FeatureVector.Basic
import ForestRescoring.Decimal.Reading
import ForestRescoring.Text.Blank
import ForestRescoring.Text.Lines
import ForestRescoring.Files.Basic

namespace ForestRescoring

/-- Why there are no weights. -/
inductive WeightsError where
  /-- The file could not be read. -/
  | unreadable (cause : FileError)
  /-- A line does not have a name and a number; `text` is the line without the blanks around. -/
  | malformed (line : Nat) (text : String)
  /-- The number on a line is none, or is not finite. -/
  | invalidValue (line : Nat) (name value : String)
  deriving DecidableEq, Repr

/-- The words for an invalid weights file. -/
def WeightsError.message : WeightsError → String
  | .unreadable cause => "IO error: " ++ cause.message
  | .malformed line text =>
    "line " ++ toString line ++ ": expected 'name value', got '" ++ text ++ "'"
  | .invalidValue line name value =>
    "line " ++ toString line ++ ": invalid weight '" ++ value ++ "' for " ++ name

namespace FeatureVector

/-- What the line with a given number says: nothing, or the weight of a name. -/
def weightOfLine (number : Nat) (line : String) : Except WeightsError (Option (String × Float)) :=
  let body := Text.trim line.toList
  if body = [] ∨ body.head? = some '#' then .ok none
  else
    match Text.words body with
    | [name, value] =>
      match Decimal.finite? value with
      | some x => .ok (some (String.ofList name, x))
      | none => .error (.invalidValue number (String.ofList name) (String.ofList value))
    | _ => .error (.malformed number (String.ofList body))

/-- Enters what the lines say, the first of them having the given number. -/
def addWeightLines (v : FeatureVector Float) (number : Nat) :
    List String → Except WeightsError (FeatureVector Float)
  | [] => .ok v
  | l :: ls =>
    match weightOfLine number l with
    | .error e => .error e
    | .ok none => v.addWeightLines (number + 1) ls
    | .ok (some w) => (v.set w.1 w.2).addWeightLines (number + 1) ls

/-- The weights that a text gives. -/
def ofText (text : String) : Except WeightsError (FeatureVector Float) :=
  empty.addWeightLines 1 (Text.linesOf text)

/-- The weights that a file gives. -/
def load (files : Files) (path : String) : Except WeightsError (FeatureVector Float) :=
  match files.readText path with
  | .error e => .error (.unreadable e)
  | .ok text => ofText text

end FeatureVector

end ForestRescoring
