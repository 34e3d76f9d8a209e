/-
# Settings

What a user may set: the smoothing of BLEU, the two sentence boundaries, and the weights of BLEU in
the three searches that a comparison makes.  Settings are valid if no check fails (`fault?`); the
checks run in a fixed order, and the first that fails is reported.

Settings are read from documents.  Nothing here depends on how these are written, but that the standard
document gives the standard settings (`SettingsFormat`).
-/
import ForestRescoring.Text.Blank

namespace ForestRescoring

/-- All that can be set. -/
structure Settings where
  /-- Added to the counts of n-grams before their logarithm is taken. -/
  smoothing : Float
  /-- The token in front of a sentence. -/
  sentenceStart : String
  /-- The token behind a sentence. -/
  sentenceEnd : String
  /-- The weight of BLEU in the search for a derivation near the references. -/
  hopeWeight : Float
  /-- The weight of BLEU in the search for a derivation far from the references. -/
  fearWeight : Float
  /-- The weight of BLEU in the search for the derivation that the model prefers. -/
  modelWeight : Float
  deriving DecidableEq

/-- A thing that can be set. -/
inductive SettingsField where
  | smoothing
  | sentenceStart
  | sentenceEnd
  | hopeWeight
  | fearWeight
  | modelWeight
  deriving DecidableEq, Repr

/-- The section and the key of a field. -/
def SettingsField.key : SettingsField → String × String
  | .smoothing => ("bleu", "smoothing")
  | .sentenceStart => ("vocab", "sentence_start")
  | .sentenceEnd => ("vocab", "sentence_end")
  | .hopeWeight => ("decoder", "hope_bleu_weight")
  | .fearWeight => ("decoder", "fear_bleu_weight")
  | .modelWeight => ("decoder", "model_bleu_weight")

/-- A field as it is named in messages. -/
def SettingsField.name (f : SettingsField) : String := f.key.1 ++ "." ++ f.key.2

/-- What a value must be and is not. -/
inductive SettingsRule where
  /-- Neither infinite nor no number. -/
  | finite
  /-- Above zero. -/
  | positive
  /-- One word. -/
  | token
  /-- Another word than the one in front of a sentence. -/
  | distinct
  deriving DecidableEq, Repr

/-- The words for a rule. -/
def SettingsRule.text : SettingsRule → String
  | .finite => "must be finite"
  | .positive => "must be positive"
  | .token => "must be a single non-empty token"
  | .distinct => "must differ from " ++ SettingsField.sentenceStart.name

/-- Why settings are refused. -/
inductive SettingsError where
  /-- The text is no document of the right shape. -/
  | malformed
  /-- A value breaks a rule. -/
  | invalid (field : SettingsField) (rule : SettingsRule)
  /-- Other settings were accepted before. -/
  | alreadyInitialized
  deriving DecidableEq, Repr

/-- The words for refused settings; what is wrong with the form of a text is left open. -/
def SettingsError.message : SettingsError → String
  | .malformed => "TOML parse error: "
  | .invalid field rule => "invalid value for " ++ field.name ++ ": " ++ rule.text
  | .alreadyInitialized => "settings already initialized"

namespace Settings

/-- A text is one word: not empty, and without blanks. -/
def isToken (s : String) : Bool := !s.isEmpty && s.toList.all fun c => !Text.isBlank c

/-- The checks in order: what each is about, and whether the settings pass. -/
def checks (s : Settings) : List (SettingsField × SettingsRule × Bool) :=
  [(.smoothing, .finite, s.smoothing.isFinite),
   (.smoothing, .positive, decide (0 < s.smoothing)),
   (.sentenceStart, .token, isToken s.sentenceStart),
   (.sentenceEnd, .token, isToken s.sentenceEnd),
   (.sentenceEnd, .distinct, s.sentenceStart != s.sentenceEnd),
   (.hopeWeight, .finite, s.hopeWeight.isFinite),
   (.fearWeight, .finite, s.fearWeight.isFinite),
   (.modelWeight, .finite, s.modelWeight.isFinite)]

/-- The first check that fails, as an error. -/
def fault? (s : Settings) : Option SettingsError :=
  (s.checks.find? fun c => !c.2.2).map fun c => .invalid c.1 c.2.1

/-- The settings that hold unless others are given. -/
def standard : Settings where
  smoothing := 0.01
  sentenceStart := "<s>"
  sentenceEnd := "</s>"
  hopeWeight := 1.0
  fearWeight := -1.0
  modelWeight := 0.0

/-- The standard settings as a document. -/
def standardText : String :=
  "# Default settings for the forest rescoring engine.\n\n" ++
  "[bleu]\n" ++
  "# Additive smoothing applied to every matched/total count before taking logs.\n" ++
  "smoothing = 0.01\n\n" ++
  "[vocab]\nsentence_start = \"<s>\"\nsentence_end = \"</s>\"\n\n" ++
  "[decoder]\nhope_bleu_weight = 1.0\nfear_bleu_weight = -1.0\nmodel_bleu_weight = 0.0\n"

end Settings

/-- A way to write settings down: which settings a document gives, valid or not, if it is one. -/
structure SettingsFormat where
  parse : String → Option Settings
  standard : parse Settings.standardText = some Settings.standard

/-- The settings that a document gives, which have to pass the checks. -/
def SettingsFormat.read (F : SettingsFormat) (document : String) : Except SettingsError Settings :=
  match F.parse document with
  | none => .error .malformed
  | some s =>
    match s.fault? with
    | some e => .error e
    | none => .ok s

end ForestRescoring
