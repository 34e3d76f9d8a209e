/-
# Which settings are in force

A run hands in documents and looks at its settings, in any order and as often as it likes; a new
lexicon looks at them too, for its two boundaries.  Two things are remembered, the document that was
accepted and the settings that a look has fixed, and each is written once.

The first look reads the document that was accepted, or the standard one, and would stop the program
if this failed.  It does not: what was accepted could be read when it was handed in, and reading it
again gives the same (`Session.exists_current_behind`).

So all looks of a run find the same settings.  They are those of the document that was accepted
before the first look, or the standard ones if there was none (`Session.fixed_once`).  A document
that is accepted behind the first look changes nothing any more: nobody asks at that point whether
the settings were looked at, only whether a document was accepted before
(`Session.in_force_iff`, `Session.accepted_without_effect`).

How documents are written does not matter for this, so a format for them is given throughout.
-/
import Mathlib
import ForestRescoring.Corpus
import ForestRescoring.Settings.Document
import ForestRescoring.Settings.Session
import ForestRescoring.Proofs.Lexicon.Stability
import ForestRescoring.Proofs.Outcome

namespace ForestRescoring

variable {F : SettingsFormat} {document : String} {found : Settings} {cause : SettingsError}

/-! ## 1. Documents -/

namespace SettingsFormat

/-- Settings that a document gives are valid. -/
theorem fault?_of_read (h : F.read document = .ok found) : found.fault? = none := by
  unfold read at h
  split at h
  · cases h
  · split at h
    · cases h
    · next hvalid =>
      cases h
      exact hvalid

/-- A document is refused for its form or for one of its values, and for nothing else. -/
theorem of_read_eq_error (h : F.read document = .error cause) :
    cause = .malformed ∨ ∃ field rule, cause = .invalid field rule := by
  unfold read at h
  split at h
  · cases h
    exact .inl rfl
  · split at h
    · next hfault =>
      cases h
      obtain ⟨c, -, rfl⟩ := Option.map_eq_some_iff.mp hfault
      exact .inr ⟨_, _, rfl⟩
    · cases h

/-- A document of valid settings can be read. -/
theorem read_eq_ok (h : F.parse document = some found) (hvalid : found.fault? = none) :
    F.read document = .ok found := by
  rw [read, h]
  dsimp only
  rw [hvalid]

/-- **The standard document can be read**, in any format. -/
theorem read_standardText (F : SettingsFormat) :
    F.read Settings.standardText = .ok .standard :=
  read_eq_ok F.standard (by decide +kernel)

end SettingsFormat

namespace Session

variable {s t : Session}

/-! ## 2. Handing in a document, and looking -/

/-- The document would be accepted now. -/
def Accepts (F : SettingsFormat) (s : Session) (document : String) : Prop :=
  ∃ t, s.init F document = .ok t

/-- A look now would find these settings. -/
def Finds (F : SettingsFormat) (s : Session) (found : Settings) : Prop :=
  ∃ t, s.settings F = .ok (found, t)

/-- A document is accepted if it can be read and is the first such. -/
theorem init_eq_ok_iff : s.init F document = .ok t ↔
    (∃ found, F.read document = .ok found) ∧ s.accepted = none ∧
      t = { s with accepted := some document } := by
  unfold init
  cases F.read document with
  | error cause => simp
  | ok found =>
    cases s.accepted with
    | none => simp [eq_comm]
    | some old => simp

/-- A document that cannot be read is refused for that, whatever happened before. -/
theorem init_of_unreadable (s : Session) (h : F.read document = .error cause) :
    s.init F document = .error cause := by
  rw [init, h]

/-- A second document that can be read comes too late. -/
theorem init_of_accepted {old : String} (h : F.read document = .ok found)
    (hs : s.accepted = some old) : s.init F document = .error .alreadyInitialized := by
  rw [init, h, hs]

/-- A document is said to come too late if it can be read and one was accepted before. -/
theorem init_eq_alreadyInitialized_iff : s.init F document = .error .alreadyInitialized ↔
    (∃ found, F.read document = .ok found) ∧ ∃ old, s.accepted = some old := by
  constructor
  · intro h
    cases hread : F.read document with
    | error cause =>
      rw [init_of_unreadable s hread] at h
      cases h
      rcases SettingsFormat.of_read_eq_error hread with h | ⟨field, rule, h⟩
      · cases h
      · cases h
    | ok found =>
      refine ⟨⟨found, rfl⟩, Option.ne_none_iff_exists'.mp fun hnone => ?_⟩
      rw [init_eq_ok_iff.mpr ⟨⟨found, hread⟩, hnone, rfl⟩] at h
      cases h
  · rintro ⟨⟨found, hread⟩, old, hold⟩
    exact init_of_accepted hread hold

/-- A look finds what is current, and fixes it. -/
theorem settings_eq_ok_iff : s.settings F = .ok (found, t) ↔
    s.current F = .ok found ∧ t = { s with inForce := some found } := by
  rw [settings, map_eq_ok_iff]
  constructor
  · rintro ⟨_, hcurrent, heq⟩
    cases heq
    exact ⟨hcurrent, rfl⟩
  · rintro ⟨hcurrent, rfl⟩
    exact ⟨found, hcurrent, rfl⟩

theorem finds_iff : s.Finds F found ↔ s.current F = .ok found := by
  constructor
  · rintro ⟨t, ht⟩
    exact (settings_eq_ok_iff.mp ht).1
  · intro h
    exact ⟨_, settings_eq_ok_iff.mpr ⟨h, rfl⟩⟩

theorem current_of_inForce (h : s.inForce = some found) : s.current F = .ok found := by
  rw [current, h]

/-! ## 3. Uses of a session -/

/-- A new lexicon, for which the settings are looked at. -/
def newLexicon (F : SettingsFormat) (s : Session) : Except SettingsError (Lexicon × Session) :=
  (s.settings F).map fun looked => (looked.1.lexicon, looked.2)

/-- What a session is asked for. -/
inductive Use where
  /-- A document is handed in. -/
  | handIn (document : String)
  /-- The settings are looked at. -/
  | look
  /-- A new lexicon is made. -/
  | lexicon

/-- The use looks at the settings. -/
def Use.looks : Use → Bool
  | .handIn _ => false
  | .look => true
  | .lexicon => true

/-- The session that something leaves behind.  Where it fails, that is the session before it. -/
def leftBy (s : Session) : Except SettingsError Session → Session
  | .ok t => t
  | .error _ => s

/-- The session behind a use. -/
def after (F : SettingsFormat) (s : Session) : Use → Session
  | .handIn document => s.leftBy (s.init F document)
  | .look => s.leftBy ((s.settings F).map Prod.snd)
  | .lexicon => s.leftBy ((s.newLexicon F).map Prod.snd)

/-- The session of a run behind some uses. -/
def behind (F : SettingsFormat) (uses : List Use) : Session := uses.foldl (after F) fresh

variable {u : Use} {uses earlier later : List Use}

theorem behind_append (us vs : List Use) :
    behind F (us ++ vs) = vs.foldl (after F) (behind F us) := List.foldl_append

theorem behind_concat (us : List Use) (u : Use) :
    behind F (us ++ [u]) = (behind F us).after F u := behind_append us [u]

theorem after_of_accepts (h : s.init F document = .ok t) : s.after F (.handIn document) = t := by
  rw [after, h, leftBy]

theorem after_of_refused (h : s.init F document = .error cause) :
    s.after F (.handIn document) = s := by
  rw [after, h, leftBy]

theorem after_of_looks (hu : u.looks = true) (h : s.current F = .ok found) :
    s.after F u = { s with inForce := some found } := by
  have hlook := settings_eq_ok_iff.mpr ⟨h, rfl⟩
  cases u with
  | handIn document => cases hu
  | look =>
    rw [after, hlook]
    rfl
  | lexicon =>
    rw [after, newLexicon, hlook]
    rfl

/-- Nothing happens in a look that fails. -/
theorem after_of_unreadable (hu : u.looks = true) (h : s.current F = .error cause) :
    s.after F u = s := by
  cases u with
  | handIn document => cases hu
  | look =>
    rw [after, settings, h]
    rfl
  | lexicon =>
    rw [after, newLexicon, settings, h]
    rfl

/-! ## 4. What is written once -/

/-- **No use changes what was accepted.** -/
theorem accepted_after (h : s.accepted = some document) (u : Use) :
    (s.after F u).accepted = some document := by
  by_cases hu : u.looks = true
  · cases hcurrent : s.current F with
    | error cause => rw [after_of_unreadable hu hcurrent, h]
    | ok found => rw [after_of_looks hu hcurrent, h]
  · cases u with
    | look => exact absurd rfl hu
    | lexicon => exact absurd rfl hu
    | handIn d =>
      cases hinit : s.init F d with
      | error cause => rw [after_of_refused hinit, h]
      | ok t =>
        obtain ⟨-, hnone, -⟩ := init_eq_ok_iff.mp hinit
        rw [hnone] at h
        cases h

/-- **No use changes what a look has fixed.** -/
theorem inForce_after (h : s.inForce = some found) (u : Use) :
    (s.after F u).inForce = some found := by
  by_cases hu : u.looks = true
  · rw [after_of_looks hu (current_of_inForce h)]
  · cases u with
    | look => exact absurd rfl hu
    | lexicon => exact absurd rfl hu
    | handIn d =>
      cases hinit : s.init F d with
      | error cause => rw [after_of_refused hinit, h]
      | ok t =>
        obtain ⟨-, -, rfl⟩ := init_eq_ok_iff.mp hinit
        rw [after_of_accepts hinit, h]

/-- What is kept by every use is kept by all of them together. -/
theorem foldl_after {p : Session → Prop} (hp : ∀ s u, p s → p (s.after F u)) (hs : p s)
    (uses : List Use) : p (uses.foldl (after F) s) := by
  induction uses generalizing s with
  | nil => exact hs
  | cons u uses ih => exact ih (hp s u hs)

theorem accepted_behind (h : (behind F earlier).accepted = some document) (later : List Use) :
    (behind F (earlier ++ later)).accepted = some document := by
  rw [behind_append]
  exact foldl_after (p := fun s => s.accepted = some document) (fun _ u hs => accepted_after hs u) h
    later

/-! ## 5. Looks do not fail -/

/-- A document that was accepted can be read. -/
def Readable (F : SettingsFormat) (s : Session) : Prop :=
  ∀ document, s.accepted = some document → ∃ found, F.read document = .ok found

/-- **No use leaves a document that cannot be read.** -/
theorem Readable.after (h : s.Readable F) (u : Use) : (s.after F u).Readable F := by
  by_cases hu : u.looks = true
  · cases hcurrent : s.current F with
    | error cause => rwa [after_of_unreadable hu hcurrent]
    | ok found =>
      rw [after_of_looks hu hcurrent]
      exact h
  · cases u with
    | look => exact absurd rfl hu
    | lexicon => exact absurd rfl hu
    | handIn d =>
      cases hinit : s.init F d with
      | error cause => rwa [after_of_refused hinit]
      | ok t =>
        obtain ⟨hread, -, rfl⟩ := init_eq_ok_iff.mp hinit
        rw [after_of_accepts hinit]
        intro document hdocument
        cases hdocument
        exact hread

theorem readable_behind (F : SettingsFormat) (uses : List Use) : (behind F uses).Readable F :=
  foldl_after (fun _ u hs => hs.after u) (fun _ h => by cases h) uses

/-- The document that a first look reads can be read. -/
theorem Readable.exists_current (h : s.Readable F) : ∃ found, s.current F = .ok found := by
  cases hinForce : s.inForce with
  | some found => exact ⟨found, current_of_inForce hinForce⟩
  | none =>
    rw [current, hinForce, source]
    cases haccepted : s.accepted with
    | none => exact ⟨.standard, F.read_standardText⟩
    | some document => exact h document haccepted

/-- **Reading the document a second time succeeds**, whatever a run does before its first look. -/
theorem exists_current_behind (F : SettingsFormat) (uses : List Use) :
    ∃ found, (behind F uses).current F = .ok found :=
  (readable_behind F uses).exists_current

/-- A look fixes what it finds, so all that follow find the same. -/
theorem inForce_behind_of_looks (hu : u.looks = true)
    (h : (behind F earlier).current F = .ok found) (later : List Use) :
    (behind F (earlier ++ u :: later)).inForce = some found := by
  rw [← List.singleton_append, ← List.append_assoc, behind_append, behind_concat,
    after_of_looks hu h]
  exact foldl_after (p := fun s => s.inForce = some found) (fun _ u hs => inForce_after hs u) rfl
    later

/-- What is current in the end is what all looks have found. -/
theorem current_of_looks (hu : u.looks = true) (huses : uses = earlier ++ u :: later)
    (h : (behind F uses).current F = .ok found) : (behind F earlier).current F = .ok found := by
  obtain ⟨first, hfirst⟩ := exists_current_behind F earlier
  have hlast := inForce_behind_of_looks hu hfirst later
  rw [← huses] at hlast
  rw [hfirst, ← h, current_of_inForce hlast]

/-- Without a look nothing is in force. -/
theorem inForce_behind_of_unseen (h : ∀ u ∈ uses, u.looks = false) :
    (behind F uses).inForce = none := by
  induction uses using List.reverseRecOn with
  | nil => rfl
  | append_singleton uses u ih =>
    have hold := ih fun w hw => h w (List.mem_append_left _ hw)
    have hu := h u (List.mem_append_right _ List.mem_cons_self)
    cases u with
    | look => cases hu
    | lexicon => cases hu
    | handIn document =>
      rw [behind_concat]
      cases hinit : (behind F uses).init F document with
      | error cause => rw [after_of_refused hinit, hold]
      | ok t =>
        obtain ⟨-, -, rfl⟩ := init_eq_ok_iff.mp hinit
        rw [after_of_accepts hinit, hold]

/-- With one, what is current is in force. -/
theorem inForce_behind_of_seen (hseen : ∃ u ∈ uses, u.looks = true)
    (h : (behind F uses).current F = .ok found) : (behind F uses).inForce = some found := by
  obtain ⟨u, hu, hlooks⟩ := hseen
  obtain ⟨earlier, later, rfl⟩ := List.append_of_mem hu
  exact inForce_behind_of_looks hlooks (current_of_looks hlooks rfl h) later

/-! ## 6. Which document decides -/

/-- A document was accepted at a time when nobody had looked at the settings. -/
def AcceptedUnseen (F : SettingsFormat) (uses : List Use) (document : String) : Prop :=
  ∃ earlier later : List Use, uses = earlier ++ .handIn document :: later ∧
    (∀ u ∈ earlier, u.looks = false) ∧ (behind F earlier).Accepts F document

theorem Accepts.exists_read (h : s.Accepts F document) : ∃ found, F.read document = .ok found := by
  obtain ⟨t, ht⟩ := h
  exact (init_eq_ok_iff.mp ht).1

/-- A document that was accepted is remembered. -/
theorem accepted_behind_of_accepts (h : (behind F earlier).Accepts F document) (later : List Use) :
    (behind F (earlier ++ .handIn document :: later)).accepted = some document := by
  obtain ⟨t, ht⟩ := h
  obtain ⟨-, -, rfl⟩ := init_eq_ok_iff.mp ht
  rw [← List.singleton_append, ← List.append_assoc]
  refine accepted_behind ?_ later
  rw [behind_concat, after_of_accepts ht]

/-- **A document that was accepted unseen decides.** -/
theorem current_behind_of_unseen (hunseen : ∀ u ∈ earlier, u.looks = false)
    (h : (behind F earlier).Accepts F document) (hread : F.read document = .ok found)
    (later : List Use) :
    (behind F (earlier ++ .handIn document :: later)).current F = .ok found := by
  have hstart : (behind F (earlier ++ [.handIn document])).inForce = none := by
    refine inForce_behind_of_unseen fun u hu => ?_
    rcases List.mem_append.mp hu with hu | hu
    · exact hunseen u hu
    · rw [List.mem_singleton.mp hu]
      rfl
  have haccepted := accepted_behind_of_accepts h []
  rw [← List.singleton_append, ← List.append_assoc, behind_append]
  -- what is accepted is current too, and stays both
  refine (foldl_after (p := fun s => s.accepted = some document ∧ s.current F = .ok found)
    (fun s u hs => ⟨accepted_after hs.1 u, ?_⟩) ⟨haccepted, ?_⟩ later).2
  · obtain ⟨hacc, hcur⟩ := hs
    by_cases hu : u.looks = true
    · rw [after_of_looks hu hcur]
      rfl
    · cases u with
      | look => exact absurd rfl hu
      | lexicon => exact absurd rfl hu
      | handIn d =>
        cases hinit : s.init F d with
        | error cause => rw [after_of_refused hinit, hcur]
        | ok t =>
          obtain ⟨-, hnone, -⟩ := init_eq_ok_iff.mp hinit
          rw [hnone] at hacc
          cases hacc
  · rw [current, hstart, source, haccepted]
    exact hread

/-- **Without such a document the standard settings are current.**  One that is accepted behind a
look finds them in force. -/
theorem current_behind_of_none (h : ∀ document, ¬ AcceptedUnseen F uses document) :
    (behind F uses).current F = .ok .standard := by
  induction uses using List.reverseRecOn with
  | nil => exact F.read_standardText
  | append_singleton uses u ih =>
    have hold : (behind F uses).current F = .ok .standard := by
      refine ih fun document => ?_
      rintro ⟨earlier, later, rfl, hunseen, haccepts⟩
      exact h document ⟨earlier, later ++ [u], by simp, hunseen, haccepts⟩
    rw [behind_concat]
    by_cases hu : u.looks = true
    · rw [after_of_looks hu hold]
      rfl
    · cases u with
      | look => exact absurd rfl hu
      | lexicon => exact absurd rfl hu
      | handIn document =>
        cases hinit : (behind F uses).init F document with
        | error cause => rw [after_of_refused hinit, hold]
        | ok t =>
          have hseen : ∃ u ∈ uses, u.looks = true := by
            by_contra hnone
            refine h document ⟨uses, [], rfl, fun u hu => ?_, t, hinit⟩
            exact Bool.eq_false_iff.mpr fun hlooks => hnone ⟨u, hu, hlooks⟩
          rw [after_of_accepts hinit,
            current_init_of_inForce (inForce_behind_of_seen hseen hold) hinit]

/-! ## 7. The main results -/

/-- What can be relied on in a run with given uses, where `document` decides and gives `found`. -/
structure FixedOnce (F : SettingsFormat) (uses : List Use) (document : String) (found : Settings) :
    Prop where
  /-- The document that decides can be read. -/
  read : F.read document = .ok found
  /-- Its settings pass all checks. -/
  valid : ∀ c ∈ found.checks, c.2.2 = true
  /-- It is the one that was accepted before the first look, or the standard one if there is none. -/
  source : AcceptedUnseen F uses document ∨
    document = Settings.standardText ∧ ∀ d, ¬ AcceptedUnseen F uses d
  /-- No look fails, and all find its settings. -/
  looks : ∀ earlier later : List Use, uses = earlier ++ .look :: later →
    (behind F earlier).settings F = .ok (found, behind F (earlier ++ [.look]))
  /-- All lexicons can be made, and have its boundaries. -/
  lexicons : ∀ earlier later : List Use, uses = earlier ++ .lexicon :: later →
    (behind F earlier).newLexicon F = .ok (found.lexicon, behind F (earlier ++ [.lexicon]))
  /-- No two documents are accepted. -/
  accepted_once : ∀ (earlier between later : List Use) (d d' : String),
    uses = earlier ++ .handIn d :: (between ++ .handIn d' :: later) →
    (behind F earlier).Accepts F d →
      ¬ (behind F (earlier ++ .handIn d :: between)).Accepts F d'
  /-- A document that cannot be read is refused with the reason, and nothing changes. -/
  unreadable : ∀ (earlier later : List Use) (d : String) (cause : SettingsError),
    uses = earlier ++ .handIn d :: later →
    F.read d = .error cause →
      (cause = .malformed ∨ ∃ field rule, cause = .invalid field rule) ∧
      (behind F earlier).init F d = .error cause ∧
      behind F (earlier ++ [.handIn d]) = behind F earlier
  /-- One that can be read is refused behind one that was accepted, and nothing changes. -/
  late : ∀ (earlier between later : List Use) (d d' : String) (other : Settings),
    uses = earlier ++ .handIn d :: (between ++ .handIn d' :: later) →
    (behind F earlier).Accepts F d → F.read d' = .ok other →
      (behind F (earlier ++ .handIn d :: between)).init F d' = .error .alreadyInitialized ∧
      behind F (earlier ++ .handIn d :: (between ++ [.handIn d'])) =
        behind F (earlier ++ .handIn d :: between)

/-- A look finds what is current in the end, and so does a new lexicon. -/
theorem settings_behind_of_looks (hu : u.looks = true) (huses : uses = earlier ++ u :: later)
    (h : (behind F uses).current F = .ok found) :
    (behind F earlier).settings F = .ok (found, behind F (earlier ++ [u])) := by
  have hcurrent := current_of_looks hu huses h
  rw [behind_concat, after_of_looks hu hcurrent]
  exact settings_eq_ok_iff.mpr ⟨hcurrent, rfl⟩

/-- **Settings are fixed once.**  Whatever a run does, one document decides: it can be read, its
settings are valid, and all looks find them; and documents that are refused, for what they say or
because one was accepted before, change nothing. -/
theorem fixed_once (F : SettingsFormat) (uses : List Use) :
    ∃ document found, FixedOnce F uses document found := by
  obtain ⟨found, hfound⟩ := exists_current_behind F uses
  have hsource : ∃ document, F.read document = .ok found ∧
      (AcceptedUnseen F uses document ∨
        document = Settings.standardText ∧ ∀ d, ¬ AcceptedUnseen F uses d) := by
    by_cases h : ∃ document, AcceptedUnseen F uses document
    · obtain ⟨document, hunseen⟩ := h
      obtain ⟨earlier, later, rfl, hnone, haccepts⟩ := id hunseen
      obtain ⟨found', hread⟩ := haccepts.exists_read
      rw [current_behind_of_unseen hnone haccepts hread] at hfound
      cases hfound
      exact ⟨document, hread, .inl hunseen⟩
    · have hnone := not_exists.mp h
      rw [current_behind_of_none hnone] at hfound
      cases hfound
      exact ⟨Settings.standardText, F.read_standardText, .inr ⟨rfl, hnone⟩⟩
  obtain ⟨document, hread, hsource⟩ := hsource
  refine ⟨document, found, hread,
    fun c => Settings.passes_of_valid (SettingsFormat.fault?_of_read hread), hsource,
    fun earlier later h => settings_behind_of_looks rfl h hfound, fun earlier later h => ?_, ?_, ?_, ?_⟩
  · rw [newLexicon, settings_behind_of_looks (u := .lexicon) rfl h hfound]
    rfl
  · rintro earlier between later d d' - haccepts ⟨t, ht⟩
    obtain ⟨-, hnone, -⟩ := init_eq_ok_iff.mp ht
    rw [accepted_behind_of_accepts haccepts between] at hnone
    cases hnone
  · rintro earlier later d cause - hcause
    have hinit := init_of_unreadable (behind F earlier) hcause
    refine ⟨SettingsFormat.of_read_eq_error hcause, hinit, ?_⟩
    rw [behind_concat, after_of_refused hinit]
  · rintro earlier between later d d' other - haccepts hother
    have hinit := init_of_accepted hother (accepted_behind_of_accepts haccepts between)
    refine ⟨hinit, ?_⟩
    rw [← List.cons_append, ← List.append_assoc, behind_concat, after_of_refused hinit]

/-- Without a document that was accepted, the standard settings are current. -/
theorem current_behind_of_accepted_none (h : (behind F uses).accepted = none) :
    (behind F uses).current F = .ok .standard := by
  refine current_behind_of_none fun document => ?_
  rintro ⟨earlier, later, rfl, -, haccepts⟩
  rw [accepted_behind_of_accepts haccepts later] at h
  cases h

/-- A document was accepted if one is remembered. -/
theorem exists_accepted_iff : (∃ d, (behind F uses).accepted = some d) ↔
    ∃ (earlier later : List Use) (document : String),
      uses = earlier ++ .handIn document :: later ∧ (behind F earlier).Accepts F document := by
  constructor
  · rintro ⟨d, hd⟩
    induction uses using List.reverseRecOn with
    | nil => cases hd
    | append_singleton uses u ih =>
      by_cases hold : (behind F uses).accepted = some d
      · obtain ⟨earlier, later, document, rfl, haccepts⟩ := ih hold
        exact ⟨earlier, later ++ [u], document, by simp, haccepts⟩
      · rw [behind_concat] at hd
        by_cases hu : u.looks = true
        · obtain ⟨found, hfound⟩ := exists_current_behind F uses
          rw [after_of_looks hu hfound] at hd
          exact absurd hd hold
        · cases u with
          | look => exact absurd rfl hu
          | lexicon => exact absurd rfl hu
          | handIn document =>
            cases hinit : (behind F uses).init F document with
            | error cause =>
              rw [after_of_refused hinit] at hd
              exact absurd hd hold
            | ok t => exact ⟨uses, [], document, rfl, t, hinit⟩
  · rintro ⟨earlier, later, document, rfl, haccepts⟩
    exact ⟨document, accepted_behind_of_accepts haccepts later⟩

/-- **When an accepted document is in force.**  All that follows finds its settings if nobody had
looked before it was accepted, or if it says what the standard settings are; otherwise nobody ever
finds them.  Of the documents that can be read, those are refused as too late that come behind an
accepted one, and a look in front of them makes no difference. -/
theorem in_force_iff (h : (behind F earlier).Accepts F document) :
    ∃ found, F.read document = .ok found ∧
      (∀ later : List Use, (behind F (earlier ++ .handIn document :: later)).Finds F found ↔
        (∀ u ∈ earlier, u.looks = false) ∨ found = .standard) ∧
      ∀ (uses : List Use) (d : String), (behind F uses).init F d = .error .alreadyInitialized ↔
        (∃ other, F.read d = .ok other) ∧
        ∃ (before between : List Use) (d' : String), uses = before ++ .handIn d' :: between ∧
          (behind F before).Accepts F d' := by
  obtain ⟨found, hread⟩ := h.exists_read
  refine ⟨found, hread, fun later => ?_, fun uses d => ?_⟩
  · rw [finds_iff]
    by_cases hunseen : ∀ u ∈ earlier, u.looks = false
    · exact ⟨fun _ => .inl hunseen, fun _ => current_behind_of_unseen hunseen h hread later⟩
    · have hseen : ∃ u ∈ earlier, u.looks = true := by simpa using hunseen
      obtain ⟨t, ht⟩ := h
      obtain ⟨-, hnone, -⟩ := init_eq_ok_iff.mp ht
      have hforce := inForce_behind_of_seen hseen (current_behind_of_accepted_none hnone)
      have hstandard : (behind F (earlier ++ .handIn document :: later)).current F =
          .ok .standard := by
        rw [behind_append]
        exact current_of_inForce (foldl_after (p := fun s => s.inForce = some .standard)
          (fun _ u hs => inForce_after hs u) hforce _)
      rw [hstandard]
      exact ⟨fun heq => .inr (Except.ok.inj heq).symm,
        fun hor => congrArg Except.ok (hor.resolve_left hunseen).symm⟩
  · rw [init_eq_alreadyInitialized_iff, exists_accepted_iff]

/-- A document with other boundaries. -/
def customText : String :=
  "[bleu]\nsmoothing = 0.5\n[vocab]\nsentence_start = \"BOS\"\nsentence_end = \"EOS\"\n" ++
    "[decoder]\nhope_bleu_weight = 2\nfear_bleu_weight = -2\nmodel_bleu_weight = 0\n"

/-- What it gives. -/
def custom : Settings := ⟨0.5, "BOS", "EOS", 2.0, -2.0, 0.0⟩

theorem read_customText : SettingsFormat.toml.read customText = .ok custom := by
  refine SettingsFormat.read_eq_ok ?_ (by decide +kernel)
  have hparse : SettingsFormat.toml.parse = Settings.ofDocument? := rfl
  rw [hparse]
  unfold Settings.ofDocument? Toml.parse? customText
  simp only [String.toList_append, String.reduceToList]
  decide +kernel

/-- Handed in first, the document is in force. -/
theorem in_force_iff_customText :
    (behind .toml []).Accepts .toml customText ∧
      (behind .toml [.handIn customText, .lexicon, .look]).Finds .toml custom := by
  have haccepts : (behind .toml []).Accepts .toml customText :=
    ⟨_, init_eq_ok_iff.mpr ⟨⟨custom, read_customText⟩, rfl, rfl⟩⟩
  obtain ⟨found, hread, hiff, -⟩ := in_force_iff haccepts
  rw [read_customText] at hread
  cases hread
  have hforce := (hiff [.lexicon, .look]).mpr (.inl (List.forall_mem_nil _))
  rw [List.nil_append] at hforce
  exact ⟨haccepts, hforce⟩

/-- **A document can be accepted without effect.**  Handed in behind a look, it is not refused, and
the settings found from then on are the standard ones, not those that it gives. -/
theorem accepted_without_effect :
    (behind .toml [.look]).Accepts .toml customText ∧
    (behind .toml [.look]).init .toml customText ≠ .error .alreadyInitialized ∧
    ∃ found, SettingsFormat.toml.read customText = .ok found ∧
      (behind .toml [.look, .handIn customText]).Finds .toml .standard ∧
      ¬ (behind .toml [.look, .handIn customText]).Finds .toml found := by
  have hstart : (behind .toml []).current .toml = .ok .standard :=
    SettingsFormat.read_standardText .toml
  have hlook : behind .toml [.look] = ⟨none, some .standard⟩ := by
    rw [← List.nil_append [Use.look], behind_concat, after_of_looks rfl hstart]
    rfl
  have hinit : (behind .toml [.look]).init .toml customText =
      .ok ⟨some customText, some .standard⟩ := by
    rw [hlook]
    exact init_eq_ok_iff.mpr ⟨⟨custom, read_customText⟩, rfl, rfl⟩
  have hcurrent : (behind .toml [.look, .handIn customText]).current .toml = .ok .standard := by
    rw [← List.singleton_append, behind_concat, after_of_accepts hinit]
    rfl
  refine ⟨⟨_, hinit⟩, ?_, custom, read_customText, finds_iff.mpr hcurrent, ?_⟩
  · rw [hinit]
    exact nofun
  · rw [finds_iff, hcurrent]
    intro h
    have hstart := congrArg Settings.sentenceStart (Except.ok.inj h)
    exact absurd hstart (by decide)

end Session

end ForestRescoring
