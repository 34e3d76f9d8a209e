/-
# A lexicon in use

A lexicon begins with the two boundaries and is then handed around: tokens are entered one by one,
forests are read with it and references are loaded, some of them without success.  Whatever the order
of these uses, its numbers and its tokens are inverse to each other, what was numbered keeps its
number, and only the boundaries have the numbers of boundaries (`Lexicon.Stable`).  And if all tokens
are words, a row of words is read back from what is written for it (`Lexicon.Reversible`).

Each use enters tokens and does nothing else (`Lexicon.enters_after`), so no more has to be known of
the readers.
-/
import Mathlib
import ForestRescoring.Corpus
import ForestRescoring.Proofs.Lexicon.Entering
import ForestRescoring.Proofs.Lexicon.Spelling

namespace ForestRescoring

/-! ## 1. Settings that are valid -/

namespace Settings

variable {s : Settings}

/-- Valid settings pass each check. -/
theorem passes_of_valid (h : s.fault? = none) {c : SettingsField × SettingsRule × Bool}
    (hc : c ∈ s.checks) : c.2.2 = true := by
  rw [fault?, Option.map_eq_none_iff, List.find?_eq_none] at h
  simpa using h c hc

/-- The boundaries of valid settings are two tokens. -/
theorem boundaries_of_valid (h : s.fault? = none) :
    isToken s.sentenceStart = true ∧ isToken s.sentenceEnd = true ∧
      s.sentenceStart ≠ s.sentenceEnd := by
  have hpasses : ∀ c ∈ s.checks, c.2.2 = true := fun c => passes_of_valid h
  simp only [checks, List.forall_mem_cons, bne_iff_ne] at hpasses
  obtain ⟨-, -, hstart, hend, hne, -⟩ := hpasses
  exact ⟨hstart, hend, hne⟩

end Settings

namespace Lexicon

/-! ## 2. Boundaries -/

variable {x y : Lexicon} {a b t : String} {w : WordId}

/-- A lexicon without other tokens holds the two boundaries in order. -/
theorem tokens_withBoundaries (h : a ≠ b) : (withBoundaries a b).tokens.toList = [a, b] := by
  have hrow : (withBoundaries a b).tokens.toList = _ := tokens_internAll empty [a, b]
  rw [hrow]
  simp [empty, List.eraseDups_cons, h.symm]

theorem word?_sentenceStart (h : a ≠ b) : (withBoundaries a b).word? .sentenceStart = some a := by
  rw [word?, ← Array.getElem?_toList, tokens_withBoundaries h]
  rfl

theorem word?_sentenceEnd (h : a ≠ b) : (withBoundaries a b).word? .sentenceEnd = some b := by
  rw [word?, ← Array.getElem?_toList, tokens_withBoundaries h]
  rfl

/-- **The numbers of boundaries are those of the two tokens**, whatever was entered behind them. -/
theorem isBoundary_iff (h : a ≠ b) (hg : (withBoundaries a b).Grows y) (hw : y.word? w = some t) :
    w.isBoundary = true ↔ t = a ∨ t = b := by
  have hstart : y.word? .sentenceStart = some a := hg _ _ (word?_sentenceStart h)
  have hend : y.word? .sentenceEnd = some b := hg _ _ (word?_sentenceEnd h)
  rw [WordId.isBoundary, Bool.or_eq_true, beq_iff_eq, beq_iff_eq]
  constructor
  · rintro (rfl | rfl)
    · exact .inl (Option.some.inj (hw.symm.trans hstart))
    · exact .inr (Option.some.inj (hw.symm.trans hend))
  · rintro (rfl | rfl)
    · exact .inl (eq_of_word?_eq hw hstart)
    · exact .inr (eq_of_word?_eq hw hend)

/-! ## 3. Uses of a lexicon -/

/-- What a lexicon is handed to. -/
inductive Use where
  /-- A single token is entered. -/
  | token (t : String)
  /-- A forest is read from what was opened. -/
  | forest (opened : Opened)
  /-- References are loaded from files. -/
  | referenceFiles (files : Files) (paths : List String)
  /-- References are taken from texts. -/
  | referenceTexts (texts : List String)
  /-- The bytes of one more file are added to references. -/
  | referenceBytes (r : References) (bytes : ByteArray)

/-- The lexicon behind a use, which may have failed. -/
def after (x : Lexicon) : Use → Lexicon
  | .token t => (x.intern t).2
  | .forest opened => (ForestReading.ofOpened x opened).lexicon
  | .referenceFiles files paths => References.lexiconAfter files x paths
  | .referenceTexts texts => (References.ofTexts x texts).2
  | .referenceBytes r bytes => (r.addBytes x bytes).lexicon

/-- The lexicon behind a row of uses. -/
def afterAll (x : Lexicon) (uses : List Use) : Lexicon := uses.foldl after x

theorem afterAll_append (x : Lexicon) (us vs : List Use) :
    x.afterAll (us ++ vs) = (x.afterAll us).afterAll vs := List.foldl_append

/-- **A use enters tokens**, and one that is not of a single token enters words. -/
theorem enters_after {kind : String → Prop} (hk : ∀ t, Settings.isToken t = true → kind t)
    (x : Lexicon) {u : Use} (hu : ∀ t, u = .token t → kind t) : Enters kind x (x.after u) := by
  cases u with
  | token t => exact enters_intern x (hu t rfl)
  | forest opened => exact (ForestReading.enters_ofOpened x opened).mono hk
  | referenceFiles files paths => exact (References.enters_lexiconAfter files x paths).mono hk
  | referenceTexts texts => exact (References.empty.enters_addTexts x texts).mono hk
  | referenceBytes r bytes => exact (r.enters_addBytes x bytes).mono hk

/-- So do all uses together. -/
theorem enters_afterAll {kind : String → Prop} (hk : ∀ t, Settings.isToken t = true → kind t)
    (x : Lexicon) {us : List Use} (hus : ∀ t, .token t ∈ us → kind t) :
    Enters kind x (x.afterAll us) := by
  induction us generalizing x with
  | nil => exact .refl kind x
  | cons u us ih =>
    have hfirst : Enters kind x (x.after u) :=
      enters_after hk x fun t ht => hus t (ht ▸ List.mem_cons_self)
    exact hfirst.trans (ih (x.after u) fun t ht => hus t (List.mem_cons_of_mem u ht))

theorem grows_afterAll (x : Lexicon) (us : List Use) : x.Grows (x.afterAll us) := by
  have h : Enters (fun _ => True) x (x.afterAll us) :=
    enters_afterAll (fun _ _ => trivial) x fun _ _ => trivial
  exact h.grows

/-! ## 4. The main result -/

/-- What can be relied on in a lexicon `y` with the boundaries `a` and `b` that `x` has become. -/
structure Stable (a b : String) (x y : Lexicon) : Prop where
  /-- Looking up a token and looking up a number are inverse. -/
  inverse : ∀ t w, y.idOf? t = some w ↔ y.word? w = some t
  /-- All numbers below the size are in use, and no others. -/
  numbers : ∀ w, (∃ t, y.word? w = some t) ↔ w.index < y.size
  /-- All tokens that are stored have a number, and no others. -/
  tokens : ∀ t, (∃ w, y.idOf? t = some w) ↔ t ∈ y.tokens.toList
  /-- A number that was given out has the token that it had. -/
  kept : ∀ w t, x.word? w = some t → y.word? w = some t
  /-- The numbers of boundaries belong to the two boundaries. -/
  boundary : ∀ t w, y.idOf? t = some w → (w.isBoundary = true ↔ t = a ∨ t = b)

/-- Any row of words is read back from what is written for it, and reading it adds nothing. -/
def Reversible (y : Lexicon) : Prop :=
  ∀ ws : List WordId, (∀ w ∈ ws, w.index < y.size) →
    y.internAll (Text.tokens (y.render ws)) = (ws, y)

theorem stable_of_grows (h : a ≠ b) (hx : (withBoundaries a b).Grows x) (hxy : x.Grows y) :
    Stable a b x y where
  inverse _ _ := idOf?_eq_some_iff
  numbers _ := exists_word?_iff
  tokens _ := exists_idOf?_iff
  kept := hxy
  boundary _ _ ht := isBoundary_iff h (hx.trans hxy) (idOf?_eq_some_iff.mp ht)

/-- A lexicon is reversible if all its tokens are words. -/
theorem reversible_of_forall_mem (h : ∀ t ∈ y.tokens.toList, Settings.isToken t = true) :
    Reversible y := by
  intro ws hws
  obtain ⟨ts, hts⟩ := exists_spells_iff.mpr hws
  refine hts.internAll_render fun t ht => isToken_iff.mp ?_
  obtain ⟨w, -, hw⟩ := exists_mem_of_forall₂ hts ht
  exact h t (mem_of_word? hw)

theorem reversible_afterAll (h : a ≠ b) {us : List Use} (ha : Settings.isToken a = true)
    (hb : Settings.isToken b = true) (hus : ∀ t, .token t ∈ us → Settings.isToken t = true) :
    Reversible ((withBoundaries a b).afterAll us) := by
  refine reversible_of_forall_mem ((enters_afterAll (fun _ ht => ht) _ hus).forall_mem ?_)
  rw [tokens_withBoundaries h]
  simp only [List.forall_mem_cons, ha, hb, List.not_mem_nil, false_implies, implies_true, and_self]

/-- **Numbers are given for good, and what is written can be read back.**  This holds of every lexicon
that began with two different boundaries, in particular with those of valid settings, however it was
used: it is stable from any time to any later time, and it is reversible if the boundaries and the
tokens that were entered one by one are words. -/
theorem stable_and_reversible (earlier later : List Use) :
    (∀ a b, a ≠ b →
      Stable a b ((withBoundaries a b).afterAll earlier)
        ((withBoundaries a b).afterAll (earlier ++ later)) ∧
      (Settings.isToken a = true → Settings.isToken b = true →
        (∀ t, .token t ∈ earlier ++ later → Settings.isToken t = true) →
        Reversible ((withBoundaries a b).afterAll (earlier ++ later)))) ∧
    ∀ s : Settings, s.fault? = none →
      Stable s.sentenceStart s.sentenceEnd (s.lexicon.afterAll earlier)
        (s.lexicon.afterAll (earlier ++ later)) ∧
      ((∀ t, .token t ∈ earlier ++ later → Settings.isToken t = true) →
        Reversible (s.lexicon.afterAll (earlier ++ later))) := by
  have hstable : ∀ a b, a ≠ b → Stable a b ((withBoundaries a b).afterAll earlier)
      ((withBoundaries a b).afterAll (earlier ++ later)) := by
    intro a b hab
    rw [afterAll_append]
    exact stable_of_grows hab (grows_afterAll _ earlier) (grows_afterAll _ later)
  refine ⟨fun a b hab => ⟨hstable a b hab, fun ha hb => reversible_afterAll hab ha hb⟩,
    fun s hs => ?_⟩
  obtain ⟨hstart, hend, hne⟩ := Settings.boundaries_of_valid hs
  exact ⟨hstable _ _ hne, reversible_afterAll hne hstart hend⟩

/-- A forest file whose only edge goes wrong behind its first word. -/
def brokenFile : String := "# target ||| features\n1 1\n1\nc [7] d\n"

/-- Uses of which the last fails in the middle of a line. -/
def brokenUses : List Use :=
  [.token "b", .referenceTexts ["a  b", "</s>"], .forest (.file brokenFile.toUTF8)]

/-- Behind the uses the word in front of the error has the next number, and a row that has it can be
written and read back. -/
theorem stable_and_reversible_brokenUses :
    ((withBoundaries "<s>" "</s>").afterAll brokenUses).tokens.toList =
      ["<s>", "</s>", "b", "a", "c"] ∧
    ((withBoundaries "<s>" "</s>").afterAll brokenUses).render [⟨4⟩, ⟨1⟩, ⟨2⟩] = "c </s> b" ∧
    ((withBoundaries "<s>" "</s>").afterAll brokenUses).internAll
      (Text.tokens (((withBoundaries "<s>" "</s>").afterAll brokenUses).render [⟨4⟩, ⟨1⟩, ⟨2⟩])) =
        ([⟨4⟩, ⟨1⟩, ⟨2⟩], (withBoundaries "<s>" "</s>").afterAll brokenUses) ∧
    ((withBoundaries "<s>" "</s>").afterAll brokenUses).idOf? "b" = some ⟨2⟩ := by
  obtain ⟨hpairs, -⟩ := stable_and_reversible (brokenUses.take 1) (brokenUses.drop 1)
  obtain ⟨hstable, hrev⟩ := hpairs "<s>" "</s>" (by decide)
  rw [List.take_append_drop] at hstable hrev
  have htokens : ((withBoundaries "<s>" "</s>").afterAll brokenUses).tokens.toList =
      ["<s>", "</s>", "b", "a", "c"] := by decide +kernel
  refine ⟨htokens, by decide +kernel, ?_, ?_⟩
  · refine hrev (by decide) (by decide) ?_ _ ?_
    · intro t ht
      have hb : t = "b" := by simpa [brokenUses] using ht
      rw [hb]
      decide
    · rw [size, ← Array.length_toList, htokens]
      decide
  · exact (hstable.inverse "b" ⟨2⟩).mpr (hstable.kept ⟨2⟩ "b" (by decide +kernel))

end Lexicon

end ForestRescoring
