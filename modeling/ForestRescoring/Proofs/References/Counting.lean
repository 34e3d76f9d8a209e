/-
# Direct counting

References are read line by line, their tokens become numbers, the numbers are counted with a window
that keeps three of them, and the counts of the lines are merged into an index.  What a caller gets
from the index can be said without any of this: for a row of one to four tokens, look at the line of
the sentence in each text that has one, cut it into tokens, and count the places where the row
stands.  The largest of these counts is the clipped count, their sum is the total
(`References.directCount`), and the length is that of the shortest of the lines
(`References.directLength`).

Main statement: `References.direct_counting`.  In one lexicon, numbers and tokens stand for each other
one to one, so a row of words stands in a line where its tokens do (`Lexicon.Spells.prefix_iff`).
Behind each text, the index of a sentence is what the lines of the sentence up to then have made of it
(`References.exists_rows`).
-/
import Mathlib
import ForestRescoring.Proofs.Lexicon.Entering
import ForestRescoring.Proofs.Lexicon.Spelling
import ForestRescoring.Proofs.Ngram.Occurrences
import ForestRescoring.Proofs.References.Loading
import ForestRescoring.Report

namespace ForestRescoring

open scoped List

/-! ## 1. Counting tokens -/

namespace References

/-- The number of places in a row of tokens where a shorter row stands. -/
def places (q row : List String) : ℕ :=
  (List.range row.length).countP fun i => q.isPrefixOf (row.drop i)

/-- The tokens on the line of a sentence, for each of several texts that has such a line. -/
def tokenRows (texts : List String) (id : ℕ) : List (List String) :=
  texts.filterMap fun t => ((Text.linesOf t)[id]?).map Text.tokens

/-- The largest number of places in one row, and the number of places in all rows, of one to four
tokens. -/
def directCount (rows : List (List String)) (q : List String) : ReferenceCount :=
  if 1 ≤ q.length ∧ q.length ≤ 4 then ⟨(rows.map (places q)).foldr max 0, (rows.map (places q)).sum⟩
  else .zero

/-- The length of the shortest row, zero without rows. -/
def directLength (rows : List (List String)) : ℕ := ((rows.map List.length).min?).getD 0

/-- The largest number of lines. -/
def directSize (texts : List String) : ℕ :=
  (texts.map fun t => (Text.linesOf t).length).foldr max 0

/-! ### The order of the texts does not matter -/

variable {rows rows' : List (List String)} {texts texts' : List String}

theorem tokenRows_perm (h : texts ~ texts') (id : ℕ) : tokenRows texts id ~ tokenRows texts' id :=
  h.filterMap _

theorem directCount_perm (h : rows ~ rows') (q : List String) :
    directCount rows q = directCount rows' q := by
  have hplaces : rows.map (places q) ~ rows'.map (places q) := h.map (places q)
  rw [directCount, directCount, hplaces.foldr_eq 0, hplaces.sum_eq]

theorem directLength_perm (h : rows ~ rows') : directLength rows = directLength rows' := by
  have hlengths : rows.map List.length ~ rows'.map List.length := h.map List.length
  have hmin : (rows.map List.length).min? = (rows'.map List.length).min? := by
    cases hm : (rows'.map List.length).min? with
    | none =>
      rw [List.min?_eq_none_iff] at hm ⊢
      exact (hm ▸ hlengths).eq_nil
    | some m =>
      rw [List.min?_eq_some_iff] at hm ⊢
      obtain ⟨hmem, hle⟩ := hm
      exact ⟨hlengths.mem_iff.mpr hmem, fun n hn => hle n (hlengths.mem_iff.mp hn)⟩
  rw [directLength, directLength, hmin]

theorem directSize_perm (h : texts ~ texts') : directSize texts = directSize texts' := by
  have hlengths := h.map fun t => (Text.linesOf t).length
  rw [directSize, directSize, hlengths.foldr_eq 0]

end References

/-! ## 2. Places of words are places of tokens -/

namespace Lexicon.Spells

open References

variable {x : Lexicon} {g ws : List WordId} {q ts : List String}

/-- **Words begin a row where their tokens do.** -/
theorem prefix_iff (hg : x.Spells g q) (hw : x.Spells ws ts) : g <+: ws ↔ q <+: ts := by
  have htake : x.Spells (ws.take g.length) (ts.take q.length) := by
    rw [← hg.length_eq]
    exact List.forall₂_take _ hw
  rw [List.prefix_iff_eq_take, List.prefix_iff_eq_take]
  constructor
  · intro h
    rw [← h] at htake
    exact hg.tokens_eq htake
  · intro h
    rw [← h] at htake
    exact hg.eq htake

theorem occurrences_eq (hg : x.Spells g q) (hw : x.Spells ws ts) :
    occurrences g ws = places q ts := by
  rw [occurrences, places, hw.length_eq]
  refine List.countP_congr fun i _ => ?_
  rw [List.isPrefixOf_iff_prefix, List.isPrefixOf_iff_prefix]
  exact hg.prefix_iff (List.forall₂_drop i hw)

end Lexicon.Spells

/-! ## 3. Several lines of one sentence -/

namespace SentenceReferences

variable {s : SentenceReferences} {rows : List (List WordId)} {g : Ngram}

/-- The counts behind several lines. -/
theorem count_foldl_add (s : SentenceReferences) (rows : List (List WordId)) (g : Ngram) :
    (rows.foldl add s).count g =
      ⟨max (s.count g).clipped ((rows.map fun ws => (ngrams ws).count g).foldr max 0),
        (s.count g).total + (rows.map fun ws => (ngrams ws).count g).sum⟩ := by
  induction rows generalizing s with
  | nil => simp
  | cons ws rows ih =>
    rw [List.foldl_cons, ih, count_add, ReferenceCount.add]
    simp only [List.map_cons, List.foldr_cons, List.sum_cons, max_assoc, Nat.add_assoc]

/-- The length behind several lines. -/
theorem length_foldl_add (s : SentenceReferences) (rows : List (List WordId)) :
    (rows.foldl add s).length = (s.length.toList ++ rows.map List.length).min? := by
  induction rows generalizing s with
  | nil => cases h : s.length with
    | none => simp [h]
    | some n => simp [h]
  | cons ws rows ih =>
    rw [List.foldl_cons, ih]
    cases h : s.length with
    | none => simp [add, h]
    | some n =>
      simp only [add, h]
      rfl

/-- Only n-grams of one to four words are counted. -/
theorem count_foldl_add_of_length (h : ¬ (1 ≤ g.length ∧ g.length ≤ 4)) (s : SentenceReferences)
    (rows : List (List WordId)) : (rows.foldl add s).count g = s.count g := by
  induction rows generalizing s with
  | nil => rfl
  | cons ws rows ih =>
    have hnone : (ngrams ws).count g = 0 :=
      List.count_eq_zero_of_not_mem fun hmem => h (length_of_mem_ngramsFrom hmem)
    rw [List.foldl_cons, ih, count_add, hnone]
    simp [ReferenceCount.add]

/-- **The counts of lines are those of their tokens.** -/
theorem count_eq_directCount {x : Lexicon} {q : List String} {tokenRows : List (List String)}
    (hg : x.Spells g q) (hrows : List.Forall₂ x.Spells rows tokenRows) :
    (rows.foldl add empty).count g = References.directCount tokenRows q := by
  have hzero : empty.count g = .zero := Std.ExtTreeMap.getD_empty
  rw [References.directCount, ← hg.length_eq]
  split
  · next hlen =>
    have hplaces : tokenRows.map (References.places q) =
        rows.map fun ws => (ngrams ws).count g := by
      refine map_eq_of_forall₂ hrows fun ws ts hws => ?_
      rw [count_ngrams hlen.1 hlen.2, hg.occurrences_eq hws]
    rw [count_foldl_add, hzero, hplaces]
    simp [ReferenceCount.zero]
  · next hlen => rw [count_foldl_add_of_length hlen, hzero]

/-- The length of lines is that of their tokens. -/
theorem shortest_eq_directLength {x : Lexicon} {tokenRows : List (List String)}
    (hrows : List.Forall₂ x.Spells rows tokenRows) :
    (rows.foldl add empty).shortest = References.directLength tokenRows := by
  have hlengths : tokenRows.map List.length = rows.map List.length :=
    map_eq_of_forall₂ hrows fun ws ts hws => hws.length_eq.symm
  rw [shortest, length_foldl_add, References.directLength, hlengths]
  rfl

end SentenceReferences

/-! ## 4. All texts -/

namespace References

variable {x y : Lexicon} {r : References} {texts : List String} {id : ℕ}

/-- Each line is spelled by the words that it gives. -/
theorem spells_internLines (x : Lexicon) (ls : List String) :
    List.Forall₂ (fun ws l => (internLines x ls).2.Spells ws (Text.tokens l)) (internLines x ls).1
      ls := by
  induction ls generalizing x with
  | nil => exact .nil
  | cons l ls ih =>
    exact .cons ((x.spells_internAll _).grow (enters_internLines _ ls).grows) (ih _)

/-- **The index of a sentence is made by its lines**, one from each text that has one. -/
theorem exists_rows (r : References) (x : Lexicon) (texts : List String) (id : ℕ) :
    ∃ rows, (r.addTexts x texts).1.sentence id =
        rows.foldl SentenceReferences.add (r.sentence id) ∧
      List.Forall₂ (r.addTexts x texts).2.Spells rows (tokenRows texts id) := by
  induction texts generalizing r x with
  | nil => exact ⟨[], rfl, .nil⟩
  | cons t texts ih =>
    obtain ⟨rows, hsentence, hrows⟩ := ih (r.addLines x (Text.linesOf t)).1
      (r.addLines x (Text.linesOf t)).2
    have hline := getElem?_of_forall₂ (spells_internLines x (Text.linesOf t)) id
    rw [sentence_addLines] at hsentence
    generalize (internLines x (Text.linesOf t)).1[id]? = place at hline hsentence
    cases hl : (Text.linesOf t)[id]? with
    | none =>
      rw [hl] at hline
      cases hline
      refine ⟨rows, hsentence, ?_⟩
      rw [tokenRows, List.filterMap_cons_none (by rw [hl]; rfl)]
      exact hrows
    | some l =>
      rw [hl] at hline
      cases hline with
      | @some ws _ hspells =>
      refine ⟨ws :: rows, hsentence, ?_⟩
      rw [tokenRows, List.filterMap_cons_some (b := Text.tokens l) (by rw [hl]; rfl)]
      exact .cons (hspells.grow (enters_addTexts _ _ texts).grows) hrows

theorem length_internLines (x : Lexicon) (ls : List String) :
    (internLines x ls).1.length = ls.length := (spells_internLines x ls).length_eq

theorem length_merge (ss : List SentenceReferences) (lines : List (List WordId)) :
    (merge ss lines).length = max ss.length lines.length := by
  induction lines generalizing ss with
  | nil => simp [merge]
  | cons ws lines ih =>
    cases ss with
    | nil => simp [merge, ih]
    | cons s ss => simp [merge, ih]

theorem size_addLines (r : References) (x : Lexicon) (ls : List String) :
    (r.addLines x ls).1.size = max r.size ls.length := by
  rw [← length_internLines x]
  exact length_merge r.sentences _

/-- There is a place for each line of the longest text. -/
theorem size_addTexts (r : References) (x : Lexicon) (texts : List String) :
    (r.addTexts x texts).1.size = max r.size (directSize texts) := by
  induction texts generalizing r x with
  | nil => exact (Nat.max_zero _).symm
  | cons t texts ih =>
    have hsize : (r.addTexts x (t :: texts)).1.size = _ := ih _ _
    rw [hsize, size_addLines, max_assoc]
    rfl

/-! ## 5. Texts in files -/

/-- The bytes of a text are added as the text. -/
theorem addBytes_toUTF8 (r : References) (x : Lexicon) (t : String) :
    r.addBytes x t.toUTF8 =
      ⟨(r.addLines x (Text.linesOf t)).1, (r.addLines x (Text.linesOf t)).2, none⟩ := by
  have hall : ((Text.linesOf t).map some).all Option.isSome = true := by simp
  have hlines : (((Text.linesOf t).map some).takeWhile Option.isSome).filterMap id =
      Text.linesOf t := by
    rw [List.takeWhile_eq_self_iff.mpr (List.all_eq_true.mp hall), List.filterMap_map]
    exact List.filterMap_some
  rw [addBytes, Text.decodedLines_toUTF8, hlines, if_pos hall]

/-- Files with texts are loaded as the texts. -/
theorem addFiles_toUTF8 {files : Files} {paths : List String}
    (h : List.Forall₂ (fun path t => files path = .ok (.file t.toUTF8)) paths texts)
    (r : References) (x : Lexicon) : addFiles files r x paths = .ok (r.addTexts x texts) := by
  induction h generalizing r x with
  | nil => rfl
  | cons ht _ ih =>
    rw [addFiles, ht]
    dsimp only [Except.bind, Files.contents]
    rw [addBytes_toUTF8]
    exact ih _ _

/-- Adds the bytes of one more text to what was added before. -/
def Added.addText (a : Added) (t : String) : Added := a.references.addBytes a.lexicon t.toUTF8

/-- Texts that are added one by one are added all. -/
theorem foldl_addText (r : References) (x : Lexicon) (texts : List String) :
    texts.foldl Added.addText ⟨r, x, none⟩ =
      ⟨(r.addTexts x texts).1, (r.addTexts x texts).2, none⟩ := by
  induction texts generalizing r x with
  | nil => rfl
  | cons t texts ih =>
    rw [List.foldl_cons, Added.addText, addBytes_toUTF8]
    exact ih _ _

end References

/-! ## 6. The main result -/

namespace References

variable {x y z : Lexicon} {r : References} {texts : List String} {g : List WordId} {q : List String}

theorem count_ofTexts (h : ofTexts x texts = (r, y)) (hz : y.Grows z) (hg : z.Spells g q) (id : ℕ) :
    (r.sentence id).count g = directCount (tokenRows texts id) q := by
  obtain ⟨rows, hsentence, hrows⟩ := exists_rows empty x texts id
  have hload : empty.addTexts x texts = (r, y) := h
  rw [hload] at hsentence hrows
  have hempty : empty.sentence id = .empty := rfl
  rw [hsentence, hempty]
  exact SentenceReferences.count_eq_directCount hg (hrows.imp fun _ _ hws => hws.grow hz)

theorem shortest_ofTexts (h : ofTexts x texts = (r, y)) (id : ℕ) :
    (r.sentence id).shortest = directLength (tokenRows texts id) := by
  obtain ⟨rows, hsentence, hrows⟩ := exists_rows empty x texts id
  have hload : empty.addTexts x texts = (r, y) := h
  rw [hload] at hsentence hrows
  rw [hsentence]
  exact SentenceReferences.shortest_eq_directLength hrows

theorem size_ofTexts (h : ofTexts x texts = (r, y)) : r.size = directSize texts := by
  have hload : empty.addTexts x texts = (r, y) := h
  have hsize := size_addTexts empty x texts
  rw [hload] at hsize
  exact hsize.trans (Nat.zero_max _)

/-- What is probed in files with texts is counted in the texts. -/
theorem probe_toUTF8 (settings : Settings) {files : Files} {paths : List String}
    (h : List.Forall₂ (fun path t => files path = .ok (.file t.toUTF8)) paths texts) (id : ℕ)
    (text : String) :
    Probe.ofFiles settings files paths id text =
      .ok ⟨" ".intercalate (Text.tokens text), directCount (tokenRows texts id) (Text.tokens text),
        directLength (tokenRows texts id)⟩ := by
  have hload : Report.loadReferences settings files paths =
      .ok (ofTexts settings.lexicon texts) := by
    rw [Report.loadReferences, load, addFiles_toUTF8 h]
    rfl
  cases hr : ofTexts settings.lexicon texts with
  | mk r y =>
  have hspells := y.spells_internAll (Text.tokens text)
  rw [Probe.ofFiles, hload, hr]
  show Except.ok (Probe.mk _ _ _) = _
  rw [hspells.render_eq, count_ofTexts hr (y.grows_internAll _) hspells, shortest_ofTexts hr]

/-- **The index counts what stands in the texts.**  For references from texts, or from their bytes
added one by one:

* the counts of a row of words of the lexicon, also as it is later, are those of its tokens, counted
  in the texts;
* the length of a sentence is that of its shortest line, and the size is the largest number of lines;
* none of these depends on the order of the texts, and the clipped count is at most the total;
* what is probed in files with these texts is what is counted in the texts. -/
theorem direct_counting (h : ofTexts x texts = (r, y)) :
    texts.foldl Added.addText ⟨empty, x, none⟩ = ⟨r, y, none⟩ ∧
    (∀ id z g q, y.Grows z → z.Spells g q →
      (r.sentence id).count g = directCount (tokenRows texts id) q) ∧
    (∀ id, (r.sentence id).shortest = directLength (tokenRows texts id)) ∧
    r.size = directSize texts ∧
    (∀ texts' x' r' y', texts ~ texts' → ofTexts x' texts' = (r', y') → r'.size = r.size ∧
      ∀ id, (r'.sentence id).shortest = (r.sentence id).shortest ∧
        ∀ z z' g g' q, y.Grows z → z.Spells g q → y'.Grows z' → z'.Spells g' q →
          (r'.sentence id).count g' = (r.sentence id).count g) ∧
    (∀ id g, ((r.sentence id).count g).clipped ≤ ((r.sentence id).count g).total) ∧
    ∀ settings files paths,
      List.Forall₂ (fun path t => files path = .ok (.file t.toUTF8)) paths texts → ∀ id text,
        Probe.ofFiles settings files paths id text =
          .ok ⟨" ".intercalate (Text.tokens text),
            directCount (tokenRows texts id) (Text.tokens text),
            directLength (tokenRows texts id)⟩ := by
  have hload : empty.addTexts x texts = (r, y) := h
  have hloaded : r.Loaded := by
    have hr := Loaded.ofTexts x texts
    rwa [h] at hr
  refine ⟨?_, fun id z g q hz hg => count_ofTexts h hz hg id, shortest_ofTexts h, size_ofTexts h,
    fun texts' x' r' y' hperm h' => ⟨?_, fun id => ⟨?_, ?_⟩⟩, hloaded.clipped_le_total,
    fun settings files paths => probe_toUTF8 settings⟩
  · rw [foldl_addText, hload]
  · rw [size_ofTexts h', size_ofTexts h, directSize_perm hperm]
  · rw [shortest_ofTexts h', shortest_ofTexts h, directLength_perm (tokenRows_perm hperm id)]
  · intro z z' g g' q hz hg hz' hg'
    rw [count_ofTexts h' hz' hg', count_ofTexts h hz hg,
      directCount_perm (tokenRows_perm hperm id)]

/-- Two texts, of which one has an empty line and a line more. -/
def smallTexts : List String := ["a b  a b a\n\nc", "b a b\n"]

/-- In the first lines of the small texts the two tokens stand in two places and in one. -/
theorem direct_counting_smallTexts :
    (((ofTexts .empty smallTexts).1.sentence 0).count
      ((ofTexts .empty smallTexts).2.internAll ["a", "b"]).1) = ⟨2, 3⟩ ∧
    ((ofTexts .empty smallTexts).1.sentence 0).shortest = 3 ∧
    ((ofTexts .empty smallTexts).1.sentence 1).shortest = 0 ∧
    (ofTexts .empty smallTexts).1.size = 3 := by
  rcases hloaded : ofTexts .empty smallTexts with ⟨r, y⟩
  obtain ⟨-, hcount, hshortest, hsize, -⟩ := direct_counting hloaded
  refine ⟨?_, ?_, ?_, ?_⟩
  · rw [hcount 0 _ _ ["a", "b"] (Lexicon.grows_internAll _ _) (Lexicon.spells_internAll _ _)]
    decide
  · rw [hshortest]
    decide
  · rw [hshortest]
    decide
  · rw [hsize]
    decide

end References

end ForestRescoring
