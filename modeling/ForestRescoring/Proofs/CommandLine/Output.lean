/-
# Output is all or nothing

What a command writes is put together before any of it is written, so a run that fails has written
nothing (`CommandLine.clean_run`).  A comparison that fails at its last sentence, or at its
weights, shows none of the sentences in front.

A comparison that succeeds has output that can be taken apart again.  As JSON it has one line for
each sentence.  As a table it has three, for the hope, the fear and the model's choice; each has five
fields, and the words of the last are those of the derivation (`CommandLine.all_or_nothing`).

This is so for any conventions of a run.  Only where JSON is written, it matters that the text of a
value has no line break.
-/
import Mathlib
import ForestRescoring.CommandLine.Run
import ForestRescoring.Proofs.Report.Written
import ForestRescoring.Proofs.Settings.InForce

namespace ForestRescoring

open Text

/-! ## 1. Tables -/

namespace ComparisonReport

/-- What a row of a table is about. -/
structure Row where
  sentence : ℕ
  label : String
  found : Decoding Float

/-- The rows of a sentence. -/
def rowsOf (p : ℕ × Comparison) : List Row :=
  [⟨p.1, "hope", p.2.hope⟩, ⟨p.1, "fear", p.2.fear⟩, ⟨p.1, "model", p.2.model⟩]

/-- A line shows a derivation of a sentence: its fields are the sentence, the label, score,
statistics and a text whose words are those of the derivation; and no other blanks are in it. -/
structure Shows (c : Corpus) (line : String) (row : Row) : Prop where
  fields : ∃ text, fieldsOf line = [toString row.sentence, row.label,
      Decimal.places 4 row.found.score, row.found.statistics.text, text] ∧
    c.lexicon.Spells row.found.text (tokens text)
  blanks : ∀ ch ∈ line.toList, isBlank ch = true → ch = ' ' ∨ ch = '\t'
  derivation : ∃ f root d, c.forests[row.sentence]? = some f ∧ f.root? = some root ∧
    f.Derives root d ∧ row.found.text = d.yield

variable {settings : Settings} {files : Files} {directory label : String}
  {references : List String} {c : Corpus} {weights : FeatureVector Float} {o : Objective Float}
  {i : ℕ}

/-- A row of what was decoded shows it. -/
theorem shows_row (hsettings : settings.fault? = none)
    (hc : Corpus.load settings files directory references = .ok c) {found : Decoding Float}
    (h : c.decode o i = .ok found) (hlabel : OnlySpaces label) :
    Shows c ((Report.ofDecoding c.lexicon found).row i label) ⟨i, label, found⟩ := by
  obtain ⟨hderives, ts, hts⟩ := Corpus.exists_spells_of_decode hc h
  obtain ⟨htext, htokens⟩ := hts.onlySpaces_render (Corpus.isToken_of_load hsettings hc)
  refine ⟨⟨c.lexicon.render found.text, Report.fieldsOf_row i hlabel htext, ?_⟩,
    fun ch => Report.eq_space_or_tab_of_mem_row i hlabel htext, hderives⟩
  rwa [htokens]

/-- The lines of a sentence are its three rows. -/
theorem shows_lines (hsettings : settings.fault? = none)
    (hc : Corpus.load settings files directory references = .ok c) {p : ℕ × Comparison}
    (h : c.compare settings weights p.1 = .ok p.2) :
    List.Forall₂ (Shows c) (ofFound c p).lines (rowsOf p) := by
  obtain ⟨hope, hhope, h⟩ := bind_eq_ok_iff.mp h
  obtain ⟨fear, hfear, h⟩ := bind_eq_ok_iff.mp h
  obtain ⟨model, hmodel, h⟩ := bind_eq_ok_iff.mp h
  obtain ⟨i, comparison⟩ := p
  cases h
  have hlabels : ∀ label ∈ ["hope", "fear", "model"], OnlySpaces label := fun label hlabel =>
    onlySpaces_of_unbroken ((show ∀ label ∈ ["hope", "fear", "model"], Unbroken label.toList by
      decide) label hlabel)
  exact .cons (shows_row hsettings hc hhope (hlabels _ (by simp)))
    (.cons (shows_row hsettings hc hfear (hlabels _ (by simp)))
      (.cons (shows_row hsettings hc hmodel (hlabels _ (by simp))) .nil))

/-- A line that shows something is one line. -/
theorem Shows.oneLine {line : String} {row : Row} (h : Shows c line row) : OneLine line := by
  intro hn
  rcases h.blanks _ hn (by decide) with hn | hn
  · exact absurd hn (by decide)
  · exact absurd hn (by decide)

/-- **A table shows the three derivations of each sentence, line by line.** -/
theorem shows_table {found : List (ℕ × Comparison)} (hsettings : settings.fault? = none)
    (hc : Corpus.load settings files directory references = .ok c)
    (h : ∀ p ∈ found, c.compare settings weights p.1 = .ok p.2) :
    List.Forall₂ (Shows c) ((found.map (ofFound c)).flatMap lines) (found.flatMap rowsOf) := by
  induction found with
  | nil => exact .nil
  | cons p found ih =>
    obtain ⟨hp, hrest⟩ := List.forall_mem_cons.mp h
    exact List.rel_append (shows_lines hsettings hc hp) (ih hrest)

end ComparisonReport

/-! ## 2. Outcomes -/

namespace CommandLine

open ComparisonReport

namespace Outcome

variable {o : Outcome}

/-- A failure has no output. -/
def Clean (o : Outcome) : Prop := o.exitCode ≠ 0 → o.output = ""

theorem clean_success (ls : List String) : (success ls).Clean := fun h => absurd rfl h

theorem clean_failure (line : String) : (failure line).Clean := fun _ => rfl

theorem clean_ofReport {α : Type} (toLines : α → List String) (report : Except ReportError α) :
    (ofReport toLines report).Clean := by
  cases report with
  | error e =>
    rw [ofReport]
    split
    · exact fun _ => rfl
    · exact clean_failure _
  | ok r => exact clean_success _

/-- A report has exit code zero if there is one. -/
theorem exitCode_ofReport_eq_zero_iff {α : Type} {toLines : α → List String}
    {report : Except ReportError α} :
    (ofReport toLines report).exitCode = 0 ↔ ∃ r, report = .ok r := by
  cases report with
  | error e =>
    rw [ofReport]
    split
    · simp [crash]
    · simp [failure]
  | ok r => simp [ofReport, success]

/-- **The lines of the output are those it was made of.** -/
theorem linesOf_success {ls : List String} (h : ∀ l ∈ ls, OneLine l) :
    linesOf (success ls).output = ls := by
  have htext : (success ls).output.toList = (ls.map String.toList).flatMap (· ++ ['\n']) := by
    simp [success, String.toList_join, List.flatMap_map]
  have hid : String.ofList ∘ String.toList = id := funext fun _ => String.ofList_toList
  rw [linesOf, htext, lines_unlines (by simpa [OneLine] using h), List.map_map, hid, List.map_id]

end Outcome

variable {front : FrontEnd} {F : SettingsFormat} {files : Files} {args : List String}
  {config : Option String} {session : Session} {outcome : Outcome}

/-! ## 3. Runs -/

theorem clean_checkFile (F : SettingsFormat) (files : Files) (path : String) :
    (checkFile F files path).Clean := by
  unfold checkFile
  split
  · exact Outcome.clean_failure _
  · split
    · exact Outcome.clean_failure _
    · exact Outcome.clean_success _

theorem clean_of_loadConfig (h : loadConfig F files config = .error outcome) :
    outcome.Clean ∧ outcome.exitCode ≠ 0 := by
  unfold loadConfig at h
  split at h
  · cases h
  · split at h
    · cases h
      exact ⟨Outcome.clean_failure _, Nat.one_ne_zero⟩
    · split at h
      · cases h
        exact ⟨Outcome.clean_failure _, Nat.one_ne_zero⟩
      · cases h

/-- A run has valid settings: those of its file, or the standard ones. -/
theorem exists_settings_of_loadConfig (h : loadConfig F files config = .ok session) :
    ∃ settings t, session.settings F = .ok (settings, t) ∧ settings.fault? = none := by
  have hread : ∃ settings, session.inForce = none ∧ F.read session.source = .ok settings := by
    unfold loadConfig at h
    split at h
    · cases h
      exact ⟨.standard, rfl, F.read_standardText⟩
    · split at h
      · cases h
      · split at h
        · cases h
        · next hinit =>
          cases h
          obtain ⟨⟨settings, hsettings⟩, -, rfl⟩ := Session.init_eq_ok_iff.mp hinit
          exact ⟨settings, rfl, hsettings⟩
  obtain ⟨settings, hnone, hsettings⟩ := hread
  have hcurrent : session.current F = .ok settings := by
    rw [Session.current, hnone, hsettings]
  exact ⟨settings, _, Session.settings_eq_ok_iff.mpr ⟨hcurrent, rfl⟩,
    SettingsFormat.fault?_of_read hsettings⟩

/-- Without a settings file a run is under the standard settings. -/
theorem settings_of_loadConfig_none {settings : Settings} {t : Session}
    (h : loadConfig F files none = .ok session) (hsettings : session.settings F = .ok (settings, t)) :
    settings = .standard := by
  cases h
  have hcurrent := (Session.settings_eq_ok_iff.mp hsettings).1
  exact Except.ok.inj (hcurrent.symm.trans F.read_standardText)

theorem run_eq_of_config_none {command : Command}
    (hargs : front.arguments args = .ok ⟨none, command⟩) :
    run front files args = command.run front .standard files := by
  have hsettings : Session.fresh.settings front.settings = .ok (.standard, _) :=
    Session.settings_eq_ok_iff.mpr ⟨front.settings.read_standardText, rfl⟩
  rw [run, hargs]
  dsimp only [loadConfig]
  rw [hsettings]

theorem clean_command (front : FrontEnd) (settings : Settings) (files : Files)
    (command : Command) : (command.run front settings files).Clean := by
  cases command with
  | search => exact Outcome.clean_ofReport _ _
  | compare => exact Outcome.clean_ofReport _ _
  | probe => exact Outcome.clean_ofReport _ _
  | exportSettings => exact fun h => absurd rfl h
  | checkSettings path => exact clean_checkFile front.settings files path

/-- **A run that fails writes nothing to standard output.** -/
theorem clean_run (front : FrontEnd) (files : Files) (args : List String) :
    (run front files args).Clean := by
  unfold run
  split
  · exact Outcome.clean_success _
  · exact fun _ => rfl
  · split
    · next hconfig => exact (clean_of_loadConfig hconfig).1
    · split
      · exact fun _ => rfl
      · exact clean_command _ _ _ _

/-- A run that succeeds has settings, and then its command succeeds. -/
theorem of_exitCode_eq_zero {command : Command}
    (hargs : front.arguments args = .ok ⟨config, command⟩)
    (h : (run front files args).exitCode = 0) :
    ∃ session settings t, loadConfig front.settings files config = .ok session ∧
      session.settings front.settings = .ok (settings, t) ∧ settings.fault? = none ∧
      run front files args = command.run front settings files := by
  unfold run at h ⊢
  rw [hargs] at h ⊢
  dsimp only at h ⊢
  cases hconfig : loadConfig front.settings files config with
  | error outcome =>
    rw [hconfig] at h
    exact absurd h (clean_of_loadConfig hconfig).2
  | ok session =>
    obtain ⟨settings, t, hsettings, hvalid⟩ := exists_settings_of_loadConfig hconfig
    refine ⟨session, settings, t, rfl, hsettings, hvalid, ?_⟩
    dsimp only
    rw [hsettings]

/-! ## 4. The main result -/

/-- **Output is all or nothing, and can be taken apart.**  A run that fails writes nothing to standard
output.  A comparison that succeeds could read all its files and decode all its sentences; it writes
one line of JSON for each, or three that show its hope, its fear and the model's choice.  That the text
of a JSON value has no line break is a matter of the convention for it. -/
theorem all_or_nothing (front : FrontEnd) (files : Files) (args : List String) :
    ((run front files args).exitCode ≠ 0 → (run front files args).output = "") ∧
    ∀ (config : Option String) (directory : String) (inputs : Report.Inputs)
      (sentence : Option ℕ) (json : Bool),
      front.arguments args = .ok ⟨config, .compare directory inputs sentence json⟩ →
      (run front files args).exitCode = 0 →
      ∃ session settings t c found, loadConfig front.settings files config = .ok session ∧
        session.settings front.settings = .ok (settings, t) ∧
        Compares settings files directory inputs sentence c found ∧
        if json then
          (∀ v, OneLine (front.json v)) →
          (linesOf (run front files args).output).length = found.length ∧
          linesOf (run front files args).output = found.map fun p => front.json (ofFound c p).json
        else
          (linesOf (run front files args).output).length = 3 * found.length ∧
          List.Forall₂ (Shows c) (linesOf (run front files args).output)
            (found.flatMap rowsOf) := by
  refine ⟨clean_run front files args, fun config directory inputs sentence json hargs hzero => ?_⟩
  obtain ⟨session, settings, t, hconfig, hsettings, hvalid, hrun⟩ := of_exitCode_eq_zero hargs hzero
  rw [hrun] at hzero ⊢
  obtain ⟨reports, hreports⟩ := Outcome.exitCode_ofReport_eq_zero_iff.mp hzero
  obtain ⟨c, found, hcompares, rfl⟩ := compares_of_compareAll hreports
  refine ⟨session, settings, t, c, found, hconfig, hsettings, hcompares, ?_⟩
  rw [Command.run, hreports, Outcome.ofReport]
  cases json with
  | true =>
    have hlines : ((found.map (ofFound c)).flatMap fun r =>
        if true then [front.json r.json] else r.lines) =
        found.map fun p => front.json (ofFound c p).json := by
      rw [List.flatMap_map]
      exact List.map_eq_flatMap.symm
    rw [if_pos rfl, hlines]
    intro hjson
    have hone : ∀ l ∈ found.map fun p => front.json (ofFound c p).json, OneLine l :=
      List.forall_mem_map.mpr fun p _ => hjson (ofFound c p).json
    rw [Outcome.linesOf_success hone]
    exact ⟨List.length_map _, rfl⟩
  | false =>
    obtain ⟨weights, -, hall⟩ := hcompares.weights
    have hshows := shows_table hvalid hcompares.corpus hall
    have hone : ∀ l ∈ (found.map (ofFound c)).flatMap ComparisonReport.lines, OneLine l := by
      intro l hl
      obtain ⟨row, -, hrow⟩ := exists_mem_of_forall₂ hshows.flip hl
      exact hrow.oneLine
    have hlength : (found.flatMap rowsOf).length = 3 * found.length := by
      simp [List.length_flatMap, rowsOf, Nat.mul_comm]
    simp only [Bool.false_eq_true, if_false]
    rw [Outcome.linesOf_success hone]
    exact ⟨hshows.length_eq.trans hlength, hshows⟩

/-- The whole of a small corpus: two sentences, and six lines.  As JSON it has two. -/
theorem all_or_nothing_smallCorpus :
    (run .standard smallCorpus ["hope-fear", "", "refs"]).exitCode = 0 ∧
    (linesOf (run .standard smallCorpus ["hope-fear", "", "refs"]).output).length = 6 ∧
    (∃ c found, Compares .standard smallCorpus "" ⟨["refs"], none⟩ none c found ∧
      List.Forall₂ (Shows c) (linesOf (run .standard smallCorpus ["hope-fear", "", "refs"]).output)
        (found.flatMap rowsOf)) ∧
    (run .standard smallCorpus ["hope-fear", "", "refs", "--json"]).exitCode = 0 ∧
    (linesOf (run .standard smallCorpus ["hope-fear", "", "refs", "--json"]).output).length = 2 := by
  have hcount : (Corpus.load .standard smallCorpus "" ["refs"]).toOption.map Corpus.sentenceCount =
      some 2 := by decide +kernel
  have hfound : ∀ {c found}, Compares .standard smallCorpus "" ⟨["refs"], none⟩ none c found →
      found.length = 2 := by
    intro c found h
    rw [show Corpus.load .standard smallCorpus "" ["refs"] = .ok c from h.corpus] at hcount
    rw [← List.length_map Prod.fst, ← Except.ok.inj h.sentences, List.length_range]
    exact Option.some.inj hcount
  have hargs : FrontEnd.standard.arguments ["hope-fear", "", "refs"] =
      .ok ⟨none, .compare "" ⟨["refs"], none⟩ none false⟩ := by rfl
  have hjson : FrontEnd.standard.arguments ["hope-fear", "", "refs", "--json"] =
      .ok ⟨none, .compare "" ⟨["refs"], none⟩ none true⟩ := by rfl
  have hzero : (run .standard smallCorpus ["hope-fear", "", "refs"]).exitCode = 0 := by
    rw [run_eq_of_config_none hargs]
    decide +kernel
  have hjsonZero : (run .standard smallCorpus ["hope-fear", "", "refs", "--json"]).exitCode = 0 := by
    rw [run_eq_of_config_none hjson]
    decide +kernel
  obtain ⟨-, htable⟩ := all_or_nothing .standard smallCorpus ["hope-fear", "", "refs"]
  obtain ⟨session, settings, t, c, found, hsession, hsettings, hcompares, hlength, hshows⟩ :=
    htable none "" ⟨["refs"], none⟩ none false hargs hzero
  obtain ⟨-, hlist⟩ := all_or_nothing .standard smallCorpus ["hope-fear", "", "refs", "--json"]
  obtain ⟨session', settings', t', c', found', hsession', hsettings', hcompares', hlines⟩ :=
    hlist none "" ⟨["refs"], none⟩ none true hjson hjsonZero
  cases settings_of_loadConfig_none hsession hsettings
  cases settings_of_loadConfig_none hsession' hsettings'
  rw [hfound hcompares] at hlength
  obtain ⟨hone, -⟩ := hlines JsonValue.oneLine_text
  rw [hfound hcompares'] at hone
  exact ⟨hzero, hlength, ⟨c, found, hcompares, hshows⟩, hjsonZero, hone⟩

end CommandLine

end ForestRescoring
