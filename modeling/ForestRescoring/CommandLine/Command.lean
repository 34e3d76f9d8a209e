/-
# Commands

The five commands and what each needs to run.  Before the name of a command only the settings file
may be given; it may be given behind the name as well, and the later one counts.
-/
import ForestRescoring.CommandLine.Arguments
import ForestRescoring.Report

namespace ForestRescoring.CommandLine

open Text

/-- A command with its arguments. -/
inductive Command where
  /-- Find the best text in a forest. -/
  | search (forest : String) (inputs : Report.Inputs) (bleuWeight : Float) (sentence : Nat)
      (json : Bool)
  /-- Compare the sentences of a corpus, or one of them. -/
  | compare (directory : String) (inputs : Report.Inputs) (sentence : Option Nat) (json : Bool)
  /-- Count an n-gram in the references of a sentence. -/
  | probe (ngram : String) (references : List String) (sentence : Nat) (json : Bool)
  /-- Write the standard settings. -/
  | exportSettings
  /-- Check a settings file. -/
  | checkSettings (path : String)

/-- A command, and the settings file if one is given. -/
structure Invocation where
  config : Option String
  command : Command

/-! ## 1. Forms -/

/-- The command whose form is at hand. -/
inductive Verb where
  | search
  | compare
  | probe
  | exportSettings
  | checkSettings
  deriving DecidableEq, Repr

/-- The name of a command. -/
def Verb.name : Verb → String
  | .search => "viterbi"
  | .compare => "hope-fear"
  | .probe => "ngram"
  | .exportSettings => "settings-export"
  | .checkSettings => "settings-validate"

/-- All commands. -/
def Verb.all : List Verb := [.search, .compare, .probe, .exportSettings, .checkSettings]

/-- The command with a name. -/
def Verb.ofName? (name : String) : Option Verb := all.find? fun v => v.name == name

/-- The options that every command takes. -/
def commonChoices : List Choice :=
  [⟨.help, some 'h', "help", .none, false⟩, ⟨.config, none, "config", .text, false⟩]

/-- The option for a reference file, of which there may be several. -/
def referenceChoice : Choice := ⟨.references, some 'r', "reference", .text, true⟩

/-- The option for the weights file. -/
def weightsChoice : Choice := ⟨.weights, some 'w', "weights", .text, false⟩

/-- The option for a sentence. -/
def sentenceChoice : Choice := ⟨.sentence, none, "sentence", .count, false⟩

/-- The option for JSON output. -/
def jsonChoice : Choice := ⟨.json, none, "json", .none, false⟩

/-- The option for the weight of BLEU. -/
def bleuWeightChoice : Choice := ⟨.bleuWeight, none, "bleu-weight", .number, false⟩

/-- What may be given before the name of a command. -/
def rootForm : Form := ⟨commonChoices, some 0⟩

/-- What a command takes. -/
def Verb.form : Verb → Form
  | .search =>
    ⟨commonChoices ++
      [referenceChoice, weightsChoice, bleuWeightChoice, sentenceChoice, jsonChoice], some 1⟩
  | .compare => ⟨commonChoices ++ [weightsChoice, sentenceChoice, jsonChoice], none⟩
  | .probe => ⟨commonChoices ++ [referenceChoice, sentenceChoice, jsonChoice], some 1⟩
  | .exportSettings => ⟨commonChoices, some 0⟩
  | .checkSettings => ⟨commonChoices, some 1⟩

/-! ## 2. From arguments to commands -/

/-- The count that an option gives. -/
def sentenceOf? (r : Reading) : Option Nat :=
  (r.values .sentence).head?.bind fun s => count? s.toList

/-- The weight of BLEU that is given, or none at all. -/
def bleuWeightOf (r : Reading) : Float :=
  ((r.values .bleuWeight).head?.bind fun s => Decimal.number? s.toList).getD (Float.ofNat 0)

/-- The command that was read, if nothing that it needs is missing. -/
def Verb.command? (v : Verb) (r : Reading) : Option Command :=
  let weights := (r.values .weights).head?
  let json := r.has .json
  match v, r.positionals with
  | .search, [forest] =>
    some (.search forest ⟨r.values .references, weights⟩ (bleuWeightOf r)
      ((sentenceOf? r).getD 0) json)
  | .compare, directory :: first :: others =>
    some (.compare directory ⟨first :: others, weights⟩ (sentenceOf? r) json)
  | .probe, [ngram] =>
    if r.has .references then
      some (.probe ngram (r.values .references) ((sentenceOf? r).getD 0) json)
    else none
  | .exportSettings, [] => some .exportSettings
  | .checkSettings, [path] => some (.checkSettings path)
  | _, _ => none

/-- The name under which help is asked for as if it were a command. -/
def helpName : String := "help"

/-- Help is given for the program as a whole, for a command, and for help itself. -/
def helpStop : List String → Stop
  | [] => .help
  | [name] => if (Verb.ofName? name).isSome || name == helpName then .help else .usage
  | _ => .usage

/-- The command that arguments name. -/
def Invocation.ofArguments (args : List String) : Except Stop Invocation := do
  let (root, name, rest) ← Reading.scanToName rootForm .start args
  if name = helpName then .error (helpStop rest)
  else
    match Verb.ofName? name with
    | none => .error .usage
    | some v =>
      let r ← Reading.scan v.form .start rest
      match v.command? r with
      | none => .error .usage
      | some command =>
        let config := (r.values .config).head?.or (root.values .config).head?
        return ⟨config, command⟩

end ForestRescoring.CommandLine
