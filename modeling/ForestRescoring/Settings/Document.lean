/-
# Settings from documents

A document has a section for each group of fields.  A section is a table with a key for each field,
or a list with the fields in their order; what else the document says is ignored
(`SettingsFormat.toml`).
-/
import ForestRescoring.Settings.Basic
import ForestRescoring.Toml.Document

namespace ForestRescoring

namespace Settings

open Toml (Item Members)

/-- The fields of a section. -/
def sectionFields? (names : List String) : Item → Option (List Item)
  | .table _ members => names.mapM fun name => members.lookup name
  | .array items => if names.length ≤ items.length then some (items.take names.length) else none
  | _ => none

/-- The number that an item is. -/
def number? : Item → Option Float
  | .atom (.integer n) => some (Float.ofInt n)
  | .atom (.real x) => some x
  | _ => none

/-- The text that an item is. -/
def text? : Item → Option String
  | .atom (.text s) => some s
  | _ => none

/-- The fields of a section of the root table. -/
def fields? (root : Members) (fields : List SettingsField) : Option (List Item) := do
  let first ← fields.head?
  let found ← root.lookup first.key.1
  sectionFields? (fields.map fun f => f.key.2) found

/-- The settings of a root table, whether valid or not. -/
def ofMembers? (root : Members) : Option Settings := do
  let bleu ← fields? root [.smoothing]
  let vocab ← fields? root [.sentenceStart, .sentenceEnd]
  let decoder ← fields? root [.hopeWeight, .fearWeight, .modelWeight]
  match bleu, vocab, decoder with
  | [smoothing], [sentenceStart, sentenceEnd], [hope, fear, model] =>
    return ⟨← number? smoothing, ← text? sentenceStart, ← text? sentenceEnd, ← number? hope,
      ← number? fear, ← number? model⟩
  | _, _, _ => none

/-- The settings that a document gives, whether valid or not. -/
def ofDocument? (document : String) : Option Settings := (Toml.parse? document).bind ofMembers?

/-- **The standard document gives the standard settings.** -/
theorem ofDocument?_standardText : ofDocument? standardText = some standard := by
  unfold ofDocument? Toml.parse? standardText
  simp only [String.toList_append, String.reduceToList]
  decide +kernel

end Settings

/-- Settings as documents with sections. -/
def SettingsFormat.toml : SettingsFormat := ⟨Settings.ofDocument?, Settings.ofDocument?_standardText⟩

end ForestRescoring
