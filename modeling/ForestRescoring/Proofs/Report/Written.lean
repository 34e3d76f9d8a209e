/-
# How comparisons are written

A comparison is written as JSON or as three rows of a table.

* As JSON it takes one line, as any value does (`JsonValue.oneLine_text`): strings have escapes for
  line breaks, and everything around them is numbers and punctuation.
* A row has five fields with tabs between them.  There is no other tab in it, since numbers hold no
  blank at all and texts only spaces, as long as their words are tokens (`Report.fieldsOf_row`).

The second needs that the words are tokens.  They are: a derivation has words of its forest only,
these were entered when the forest was read, and all that is ever entered are tokens
(`Corpus.exists_spells_of_decode`).
-/
import Mathlib
import ForestRescoring.ReportText
import ForestRescoring.Proofs.Decimal.Written
import ForestRescoring.Proofs.Report.Agreement

namespace ForestRescoring

open Text

/-! ## 1. Lines and fields -/

namespace Text

/-- The text has no line break in it. -/
def OneLine (s : String) : Prop := '\n' ∉ s.toList

instance (s : String) : Decidable (OneLine s) := inferInstanceAs (Decidable ('\n' ∉ s.toList))

/-- The only blanks of the text are spaces. -/
def OnlySpaces (s : String) : Prop := ∀ c ∈ s.toList, isBlank c = true → c = ' '

/-- The fields of a line, with tabs between them. -/
def fieldsOf (line : String) : List String := (line.toList.splitOn '\t').map String.ofList

variable {s t separator : String} {ss us : List String}

theorem oneLine_of_unbroken (h : Unbroken s.toList) : OneLine s := fun hn => by
  have hblank : isBlank '\n' = false := h _ hn
  exact absurd hblank (by decide)

theorem OneLine.append (hs : OneLine s) (ht : OneLine t) : OneLine (s ++ t) := by
  rw [OneLine, String.toList_append, List.mem_append]
  exact not_or.mpr ⟨hs, ht⟩

theorem oneLine_intercalate (hseparator : OneLine separator) (h : ∀ s ∈ ss, OneLine s) :
    OneLine (separator.intercalate ss) := by
  intro hn
  rw [String.toList_intercalate] at hn
  rcases mem_of_mem_intercalate hn with hn | ⟨l, hl, hn⟩
  · exact hseparator hn
  · obtain ⟨s, hs, rfl⟩ := List.mem_map.mp hl
    exact h s hs hn

theorem onlySpaces_of_unbroken (h : Unbroken s.toList) : OnlySpaces s := fun c hc hblank => by
  rw [h c hc] at hblank
  cases hblank

/-- A row of words has spaces between them and no other blanks. -/
theorem onlySpaces_intercalate (h : ∀ u ∈ us, IsWord u.toList) :
    OnlySpaces (" ".intercalate us) := by
  intro c hc hblank
  rw [String.toList_intercalate] at hc
  refine eq_space_of_mem_spaced (fun l hl => ?_) hc hblank
  obtain ⟨u, hu, rfl⟩ := List.mem_map.mp hl
  exact h u hu

/-- A tab is a blank, and no space. -/
theorem OnlySpaces.tab_notMem (h : OnlySpaces s) : '\t' ∉ s.toList := fun hc =>
  absurd (h _ hc (by decide)) (by decide)

/-- **The fields of a line are those it was made of.** -/
theorem fieldsOf_intercalate (hss : ss ≠ []) (h : ∀ s ∈ ss, OnlySpaces s) :
    fieldsOf ("\t".intercalate ss) = ss := by
  have hsplit : (['\t'].intercalate (ss.map String.toList)).splitOn '\t' = ss.map String.toList := by
    refine List.splitOn_intercalate _ (fun l hl => ?_) (by simpa using hss)
    obtain ⟨s, hs, rfl⟩ := List.mem_map.mp hl
    exact (h s hs).tab_notMem
  have hid : String.ofList ∘ String.toList = id := funext fun _ => String.ofList_toList
  rw [fieldsOf, String.toList_intercalate]
  exact (congrArg _ hsplit).trans (by rw [List.map_map, hid, List.map_id])

/-- And its blanks are tabs, and the spaces of its fields. -/
theorem eq_space_or_tab_of_mem_intercalate (h : ∀ s ∈ ss, OnlySpaces s) {c : Char}
    (hc : c ∈ ("\t".intercalate ss).toList) (hblank : isBlank c = true) : c = ' ' ∨ c = '\t' := by
  rw [String.toList_intercalate] at hc
  rcases mem_of_mem_intercalate hc with hc | ⟨l, hl, hc⟩
  · exact .inr (List.mem_singleton.mp hc)
  · obtain ⟨s, hs, rfl⟩ := List.mem_map.mp hl
    exact .inl (h s hs c hc hblank)

end Text

/-! ## 2. JSON -/

namespace JsonValue

theorem oneLine_quoted (s : String) : OneLine (quoted s) := by
  have hinner : OneLine (String.ofList (s.toList.flatMap escape)) := by
    rw [OneLine, String.toList_ofList]
    intro hn
    obtain ⟨c, -, hn⟩ := List.mem_flatMap.mp hn
    exact newline_notMem_escape c hn
  exact ((show OneLine "\"" by decide).append hinner).append (by decide)

mutual

/-- **A JSON value is written on one line.** -/
theorem oneLine_text (v : JsonValue) : OneLine v.text := by
  cases v with
  | count n => exact oneLine_of_unbroken (unbroken_toString_nat n)
  | real x =>
    unfold text
    cases h : Decimal.dataNumber x with
    | none => exact (by decide : OneLine "null")
    | some s => exact oneLine_of_unbroken (Decimal.unbroken_dataNumber h)
  | string s => exact oneLine_quoted s
  | list items =>
    have hitems := oneLine_intercalate (show OneLine "," by decide) (oneLine_itemTexts items)
    exact ((show OneLine "[" by decide).append hitems).append (by decide)
  | object members =>
    have hmembers := oneLine_intercalate (show OneLine "," by decide)
      (oneLine_memberTexts members)
    exact ((show OneLine "\x7b" by decide).append hmembers).append (by decide)

theorem oneLine_itemTexts (items : List JsonValue) : ∀ s ∈ itemTexts items, OneLine s := by
  cases items with
  | nil => exact List.forall_mem_nil _
  | cons v rest =>
    exact List.forall_mem_cons.mpr ⟨oneLine_text v, oneLine_itemTexts rest⟩

theorem oneLine_memberTexts (members : List (String × JsonValue)) :
    ∀ s ∈ memberTexts members, OneLine s := by
  cases members with
  | nil => exact List.forall_mem_nil _
  | cons m rest =>
    obtain ⟨name, v⟩ := m
    exact List.forall_mem_cons.mpr ⟨((oneLine_quoted name).append (by decide)).append
      (oneLine_text v), oneLine_memberTexts rest⟩

end

end JsonValue

/-! ## 3. Rows -/

/-- Statistics are four words. -/
theorem Statistics.onlySpaces_text (s : Statistics) : OnlySpaces s.text := by
  refine onlySpaces_intercalate fun u hu => ?_
  obtain ⟨t, -, rfl⟩ := List.mem_map.mp hu
  have hunbroken : Unbroken (toString t.matched ++ "/" ++ toString t.total).toList :=
    unbroken_append (unbroken_append (unbroken_toString_nat _) (by decide))
      (unbroken_toString_nat _)
  refine ⟨fun hnil => ?_, hunbroken⟩
  rw [String.toList_append, String.toList_append] at hnil
  simp at hnil

namespace Report

variable {r : Report} {label : String}

/-- The fields of a row. -/
def rowFields (r : Report) (sentence : ℕ) (label : String) : List String :=
  [toString sentence, label, Decimal.places 4 r.score, r.statistics.text, r.text]

theorem row_eq (r : Report) (sentence : ℕ) (label : String) :
    r.row sentence label = "\t".intercalate (r.rowFields sentence label) := rfl

theorem onlySpaces_of_mem_rowFields (sentence : ℕ) (hlabel : OnlySpaces label)
    (htext : OnlySpaces r.text) : ∀ s ∈ r.rowFields sentence label, OnlySpaces s := by
  simp only [rowFields, List.forall_mem_cons]
  exact ⟨onlySpaces_of_unbroken (unbroken_toString_nat sentence), hlabel,
    onlySpaces_of_unbroken (Decimal.unbroken_places 4 r.score), r.statistics.onlySpaces_text, htext,
    List.forall_mem_nil _⟩

/-- **A row has five fields.** -/
theorem fieldsOf_row (sentence : ℕ) (hlabel : OnlySpaces label) (htext : OnlySpaces r.text) :
    fieldsOf (r.row sentence label) = r.rowFields sentence label := by
  rw [row_eq]
  exact fieldsOf_intercalate (List.cons_ne_nil _ _)
    (onlySpaces_of_mem_rowFields sentence hlabel htext)

/-- It has no blanks but tabs and spaces. -/
theorem eq_space_or_tab_of_mem_row (sentence : ℕ) (hlabel : OnlySpaces label)
    (htext : OnlySpaces r.text) {c : Char} (hc : c ∈ (r.row sentence label).toList)
    (hblank : isBlank c = true) : c = ' ' ∨ c = '\t' := by
  rw [row_eq] at hc
  exact eq_space_or_tab_of_mem_intercalate (onlySpaces_of_mem_rowFields sentence hlabel htext) hc
    hblank

end Report

/-! ## 4. The words of a corpus -/

/-- The words of a forest that was read have tokens. -/
theorem ForestReading.exists_word?_of_ofOpened {x : Lexicon} {opened : Opened} {f : Forest Float}
    (h : (ofOpened x opened).outcome = .ok f) {id : EdgeId} {e : Edge Float}
    (he : f.edge? id = some e) {w : WordId} (hw : .word w ∈ e.slots) :
    ∃ t, (ofOpened x opened).lexicon.word? w = some t := by
  obtain ⟨g, -, halike⟩ := ofOpened_alike h x
  obtain ⟨t, ht, -⟩ := halike.carries he hw
  exact ⟨t, ht⟩

namespace Corpus

variable {settings : Settings} {files : Files} {directory : String} {x z : Lexicon}
  {first count i : ℕ} {forests : List (Forest Float)} {references : List String} {c : Corpus}
  {o : Objective Float} {found : Decoding Float}

/-- Reading the forests of a corpus enters words. -/
theorem enters_loadForests (h : loadForests files directory x first count = .ok (forests, z)) :
    x.EntersWords z := by
  induction count generalizing x first forests with
  | zero =>
    cases h
    exact .refl _ z
  | succ count ih =>
    rw [loadForests] at h
    dsimp only at h
    split at h
    · cases h
    · next opened _ =>
      split at h
      · cases h
      · obtain ⟨rest, hrest, h⟩ := bind_eq_ok_iff.mp h
        cases h
        exact (ForestReading.enters_ofOpened x opened).trans (ih hrest)

/-- All tokens of a corpus are words, if the boundaries are. -/
theorem isToken_of_load (hsettings : settings.fault? = none)
    (h : load settings files directory references = .ok c) :
    ∀ t ∈ c.lexicon.tokens.toList, Settings.isToken t = true := by
  obtain ⟨base, hload, hforests⟩ := of_load_eq_ok h
  obtain ⟨hstart, hend, hne⟩ := Settings.boundaries_of_valid hsettings
  have hentered := (References.enters_load hload).trans (enters_loadForests hforests)
  refine hentered.forall_mem ?_
  rw [Settings.lexicon, Lexicon.tokens_withBoundaries hne]
  simp only [List.forall_mem_cons]
  exact ⟨hstart, hend, List.forall_mem_nil _⟩

/-- **What is decoded is a derivation of the sentence, and has tokens.** -/
theorem exists_spells_of_decode (hc : load settings files directory references = .ok c)
    (h : c.decode o i = .ok found) :
    (∃ f root d, c.forests[i]? = some f ∧ f.root? = some root ∧ f.Derives root d ∧
      found.text = d.yield) ∧ ∃ ts, c.lexicon.Spells found.text ts := by
  obtain ⟨base, -, hforests⟩ := of_load_eq_ok hc
  obtain ⟨f, hf, hbest⟩ := of_decode_eq_ok h
  obtain ⟨-, hread⟩ := of_loadForests_eq_ok hforests
  obtain ⟨opened, u, -, -, hopened, hgrows⟩ := hread i f hf
  obtain ⟨root, s, hroot, hs⟩ := Forest.of_best_eq_ok hbest
  obtain ⟨d, hd, heq⟩ := Forest.best_eq_of_sweep hroot hs
  obtain ⟨hswept, hsize⟩ := Search.swept_of_sweep_eq_ok hs
  rw [heq] at hbest
  cases hbest
  refine ⟨⟨f, root, d, hf, hroot, hd.derives (hswept.assigns hsize)
    (Forest.lt_of_root?_eq hroot), rfl⟩, ?_⟩
  refine exists_forall₂_iff.mpr (hd.forall_mem_yield fun id e he w hw => ?_)
  obtain ⟨t, ht⟩ := ForestReading.exists_word?_of_ofOpened hopened he hw
  exact ⟨t, hgrows w t ht⟩

end Corpus

/-- **Words with tokens are written with spaces, and read back.** -/
theorem Lexicon.Spells.onlySpaces_render {x : Lexicon} {ws : List WordId} {ts : List String}
    (h : x.Spells ws ts) (hx : ∀ t ∈ x.tokens.toList, Settings.isToken t = true) :
    OnlySpaces (x.render ws) ∧ Text.tokens (x.render ws) = ts := by
  have hwords : ∀ t ∈ ts, IsWord t.toList := by
    intro t ht
    obtain ⟨w, -, hw⟩ := exists_mem_of_forall₂ h ht
    exact isToken_iff.mp (hx t (Lexicon.mem_of_word? hw))
  rw [h.render_eq]
  exact ⟨onlySpaces_intercalate hwords, tokens_intercalate hwords⟩

end ForestRescoring
