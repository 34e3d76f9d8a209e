/-
# The settings of a run

The settings of a run are chosen once.  A document may be handed in first (`Session.init`), and the
first look at the settings (`Session.settings`) fixes them: the document's, or the standard ones if
none was accepted before.  A document that is handed in later is still checked, and refused if one
was accepted before; where none was, it is accepted without effect (`current_init_of_inForce`).

What is kept of a document that was accepted is its text, and the first look reads it again.  Should
it not be readable then, the program would stop.

None of this depends on how settings are written down, which is left open as a `SettingsFormat`.
-/
import ForestRescoring.Settings.Basic

namespace ForestRescoring

/-- What a run knows of its settings. -/
structure Session where
  /-- The document that was accepted. -/
  accepted : Option String
  /-- The settings that are in force. -/
  inForce : Option Settings

namespace Session

/-- A run that has not begun. -/
def fresh : Session := ⟨none, none⟩

/-- The document that a first look reads. -/
def source (s : Session) : String := s.accepted.getD Settings.standardText

variable (F : SettingsFormat)

/-- Hands in a document. -/
def init (s : Session) (document : String) : Except SettingsError Session :=
  match F.read document with
  | .error e => .error e
  | .ok _ =>
    match s.accepted with
    | some _ => .error .alreadyInitialized
    | none => .ok { s with accepted := some document }

/-- The settings that a look at them finds.  Where it cannot read its document, the program has no
settings, but stops. -/
def current (s : Session) : Except SettingsError Settings :=
  match s.inForce with
  | some found => .ok found
  | none => F.read s.source

/-- Looks at the settings, which fixes them. -/
def settings (s : Session) : Except SettingsError (Settings × Session) :=
  (s.current F).map fun found => (found, { s with inForce := some found })

variable {F}

/-- What was looked at stays, whatever is handed in behind it. -/
theorem current_init_of_inForce {s t : Session} {found : Settings} {document : String}
    (hf : s.inForce = some found) (h : s.init F document = .ok t) : t.current F = .ok found := by
  unfold init at h
  split at h
  · cases h
  · split at h
    · cases h
    · cases h
      simp [current, hf]

end Session

end ForestRescoring
