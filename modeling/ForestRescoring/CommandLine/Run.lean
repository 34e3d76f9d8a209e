/-
# Running a command

A run of the program is a function of the files and the arguments: its exit code, what it writes to
standard output and what it writes to standard error.  A command that fails writes nothing to
standard output, as all its text is put together before any is written.

How arguments are understood, how settings are written and how JSON is written are three conventions
that a run does not look into (`FrontEnd`).
-/
import ForestRescoring.CommandLine.Command
import ForestRescoring.ReportText
import ForestRescoring.Settings.Document
import ForestRescoring.Settings.Session

namespace ForestRescoring.CommandLine

/-- The conventions of a run. -/
structure FrontEnd where
  /-- The command that arguments name. -/
  arguments : List String → Except Stop Invocation
  /-- How settings are written. -/
  settings : SettingsFormat
  /-- The text of a JSON value. -/
  json : JsonValue → String

/-- The conventions of the program. -/
def FrontEnd.standard : FrontEnd where
  arguments := Invocation.ofArguments
  settings := .toml
  json := JsonValue.text

/-- What a run comes to. -/
structure Outcome where
  exitCode : Nat
  output : String
  errors : String

namespace Outcome

/-- Success, with lines of output. -/
def success (lines : List String) : Outcome := ⟨0, String.join (lines.map (· ++ "\n")), ""⟩

/-- Failure, with a line on standard error. -/
def failure (line : String) : Outcome := ⟨1, "", line ++ "\n"⟩

/-- A stop of the program.  The place in it that the message names is left open. -/
def crash (line : String) : Outcome := ⟨101, "", line ++ "\n"⟩

/-- Arguments that make no sense. -/
def misuse : Outcome := ⟨2, "", "error: invalid arguments; for more information, try '--help'.\n"⟩

/-- The answer to a request for help. -/
def usage : Outcome :=
  success
    ["Hypergraph rescoring with a BLEU term", "",
     "viterbi <graph file> [-r <reference>]... [-w <weights>] [--bleu-weight <x>]" ++
       " [--sentence <n>] [--json]",
     "hope-fear <graph directory> <reference>... [-w <weights>] [--sentence <n>] [--json]",
     "ngram <n-gram> -r <reference>... [--sentence <n>] [--json]",
     "settings-export",
     "settings-validate <file>", "",
     "Each takes --config <file> with settings in place of the standard ones."]

/-- The lines of a report, or the reason why there is none. -/
def ofReport {α : Type} (lines : α → List String) : Except ReportError α → Outcome
  | .error e => if e.stops then crash e.message else failure ("Error: " ++ e.message)
  | .ok report => success (lines report)

end Outcome

/-- The line for settings that pass the checks. -/
def settingsLine (s : Settings) : String :=
  "OK: " ++ SettingsField.smoothing.name ++ "=" ++ Decimal.exact s.smoothing ++ ", " ++
    SettingsField.hopeWeight.name ++ "=" ++ Decimal.exact s.hopeWeight ++ ", " ++
    SettingsField.fearWeight.name ++ "=" ++ Decimal.exact s.fearWeight

/-- Checks a settings file. -/
def checkFile (F : SettingsFormat) (files : Files) (path : String) : Outcome :=
  match files.readText path with
  | .error e => .failure ("Error reading " ++ path ++ ": " ++ e.message)
  | .ok document =>
    match F.read document with
    | .error e => .failure ("Error: " ++ e.message)
    | .ok s => .success [settingsLine s]

/-- Hands the settings file, if there is one, to a fresh session. -/
def loadConfig (F : SettingsFormat) (files : Files) : Option String → Except Outcome Session
  | none => .ok .fresh
  | some path =>
    match files.readText path with
    | .error e => .error (.failure ("Error reading " ++ path ++ ": " ++ e.message))
    | .ok document =>
      match Session.fresh.init F document with
      | .error e => .error (.failure ("Error in " ++ path ++ ": " ++ e.message))
      | .ok session => .ok session

/-- Runs a command under given settings. -/
def Command.run (front : FrontEnd) (settings : Settings) (files : Files) : Command → Outcome
  | .search forest inputs bleuWeight sentence json =>
    .ofReport (fun r => if json then [front.json r.json] else r.lines)
      (Report.search settings files forest inputs bleuWeight sentence)
  | .compare directory inputs sentence json =>
    .ofReport (fun rs => rs.flatMap fun r => if json then [front.json r.json] else r.lines)
      (ComparisonReport.compareAll settings files directory inputs sentence)
  | .probe ngram references sentence json =>
    .ofReport (fun p => if json then [front.json p.json] else [p.line sentence])
      (Probe.ofFiles settings files references sentence ngram)
  | .exportSettings => ⟨0, Settings.standardText, ""⟩
  | .checkSettings path => checkFile front.settings files path

/-- Runs the program. -/
def run (front : FrontEnd) (files : Files) (args : List String) : Outcome :=
  match front.arguments args with
  | .error .help => .usage
  | .error .usage => .misuse
  | .ok invocation =>
    match loadConfig front.settings files invocation.config with
    | .error outcome => outcome
    | .ok session =>
      match session.settings front.settings with
      | .error e => .crash ("settings TOML must be valid: " ++ e.message)
      | .ok (settings, _) => invocation.command.run front settings files

/-! ## Which files a run opens -/

/-- The files that a command names. -/
def Command.paths : Command → List String
  | .search forest inputs _ _ _ => forest :: inputs.references ++ inputs.weights.toList
  | .compare _ inputs _ _ => inputs.references ++ inputs.weights.toList
  | .probe _ references _ _ => references
  | .exportSettings => []
  | .checkSettings path => [path]

/-- The files that the arguments name. -/
def namedPaths (front : FrontEnd) (args : List String) : List String :=
  match front.arguments args with
  | .error _ => []
  | .ok invocation => invocation.config.toList ++ invocation.command.paths

/-- The forest files that a command opens besides: one for each sentence with a reference. -/
def Command.forestPaths (files : Files) : Command → List String
  | .compare directory inputs _ _ =>
    match References.load files Settings.standard.lexicon inputs.references with
    | .error _ => []
    | .ok loaded => (List.range loaded.1.size).map fun n => Files.join directory (toString n)
  | _ => []

/-- The forest files that a run with the given arguments opens besides the files they name. -/
def forestPaths (front : FrontEnd) (files : Files) (args : List String) : List String :=
  match front.arguments args with
  | .error _ => []
  | .ok invocation => invocation.command.forestPaths files

end ForestRescoring.CommandLine
