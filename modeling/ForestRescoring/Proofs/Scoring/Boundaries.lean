/-
# Summaries after any calls

A scorer may be asked to fix vertices in any order, with any edges and any statistics.  A call that
fails leaves it as it was; a call that succeeds fixes its vertex for good.  So a row of calls comes
to a scorer and to the calls that it took, one for each vertex that is fixed (`Scorer.Ledger`).

The calls that were taken spell texts: nothing for a leaf, and for an edge its words with the texts
of its children in the gaps.  As the children of an edge are fixed before it, these equations have
one solution on the fixed vertices, and the summary of each of them has the first words, the last
words and the length of its text (`Scorer.Ledger.boundaries`).  A ledger goes along with a history
(`Scorer.Ledger.Follows`), so this is what histories keep, whatever statistics are passed.
-/
import Mathlib
import ForestRescoring.Proofs.Scoring.Counting

namespace ForestRescoring

namespace Scorer

variable {K : Type}

/-! ## 1. Calls -/

/-- A call that fixes a vertex. -/
inductive Call (K : Type) where
  /-- The vertex is a leaf. -/
  | leaf (v : VertexId)
  /-- The derivation of the vertex ends in an edge, and is said to have some statistics. -/
  | edge (v : VertexId) (e : Edge K) (statistics : Statistics)

namespace Call

/-- The vertex that a call is for. -/
def vertex : Call K → VertexId
  | .leaf v => v
  | .edge v _ _ => v

/-- The vertices whose summaries a call needs. -/
def children : Call K → List VertexId
  | .leaf _ => []
  | .edge _ e _ => e.children

/-- What a call makes of a scorer. -/
def run (s : Scorer K) : Call K → Except SearchError (Scorer K)
  | .leaf v => s.fixLeaf v
  | .edge v e statistics => s.fixEdge v e statistics

/-- The text that a call gives its vertex, when those of other vertices are given. -/
def text (texts : VertexId → List WordId) : Call K → List WordId
  | .leaf _ => []
  | .edge _ e _ => e.text texts

/-- A call sees the texts of its children only. -/
theorem text_congr {c : Call K} {texts texts' : VertexId → List WordId}
    (h : ∀ v ∈ c.children, texts' v = texts v) : c.text texts' = c.text texts := by
  cases c with
  | leaf v => rfl
  | edge v e statistics => exact Edge.text_congr h

/-- A call that succeeds fixes its vertex, and its children are fixed. -/
theorem of_run_eq_ok {c : Call K} {s t : Scorer K} (h : c.run s = .ok t) :
    (∃ found, s.fix c.vertex found = .ok t) ∧ ∀ v ∈ c.children, s.Fixed v := by
  cases c with
  | leaf v => exact ⟨⟨.empty, h⟩, by simp [children]⟩
  | edge v e statistics =>
    obtain ⟨left, right, length, -, -, -, hfix⟩ := fixEdge_eq_ok_iff.mp h
    exact ⟨⟨_, hfix⟩, fixed_of_fixEdge h⟩

end Call

/-- A scorer, and the calls that it took, the first one first. -/
structure Ledger (K : Type) where
  scorer : Scorer K
  taken : List (Call K)

namespace Ledger

/-- One more call.  One that fails changes nothing. -/
def call (l : Ledger K) (c : Call K) : Ledger K :=
  match c.run l.scorer with
  | .ok t => ⟨t, l.taken ++ [c]⟩
  | .error _ => l

/-- What a row of calls comes to. -/
def ofCalls (s : Scorer K) (cs : List (Call K)) : Ledger K := cs.foldl call ⟨s, []⟩

/-- Each call that was taken gave its vertex its text. -/
def Spells (l : Ledger K) (texts : VertexId → List WordId) : Prop :=
  ∀ c ∈ l.taken, texts c.vertex = c.text texts

/-! ## 2. Ledgers and histories -/

/-- A history with the same scorer, whose texts are the only ones that the calls spell. -/
structure Follows (l : Ledger K) (h : History K) : Prop where
  scorer : h.scorer = l.scorer
  fixed_iff : ∀ v, h.scorer.Fixed v ↔ ∃ c ∈ l.taken, c.vertex = v
  children : ∀ c ∈ l.taken, ∀ v ∈ c.children, h.scorer.Fixed v
  spells : l.Spells h.texts
  unique : ∀ texts, l.Spells texts → ∀ v, h.scorer.Fixed v → texts v = h.texts v

variable {l : Ledger K} {h : History K} {c : Call K} {t : Scorer K}

/-- **A call that is taken adds one text.**  Its vertex was not fixed, so no text before it changes,
and its children were, so its own text is settled. -/
theorem Follows.take (hl : l.Follows h) (hc : c.run h.scorer = .ok t) :
    Follows ⟨t, l.taken ++ [c]⟩
      { h with scorer := t, texts := Function.update h.texts c.vertex (c.text h.texts) } := by
  obtain ⟨⟨found, hfix⟩, hchildren⟩ := Call.of_run_eq_ok hc
  obtain ⟨hnew, -⟩ := of_fix_eq_ok hfix
  have hne : ∀ v, h.scorer.Fixed v → v ≠ c.vertex := fun v hv heq => hnew (heq ▸ hv)
  have hkeep : ∀ v, h.scorer.Fixed v →
      Function.update h.texts c.vertex (c.text h.texts) v = h.texts v :=
    fun v hv => Function.update_of_ne (hne v hv) _ _
  refine ⟨rfl, fun v => ?_, fun d hd v hv => ?_, fun d hd => ?_, fun texts htexts v hv => ?_⟩
  · show t.Fixed v ↔ _
    rw [fixed_fix_iff hfix, hl.fixed_iff v]
    simp only [List.mem_append, List.mem_singleton, or_and_right, exists_or, exists_eq_left]
    rw [or_comm, eq_comm]
  · show t.Fixed v
    rcases List.mem_append.mp hd with hd | hd
    · exact (hl.children d hd v hv).of_fix hfix
    · rw [List.mem_singleton.mp hd] at hv
      exact (hchildren v hv).of_fix hfix
  · show Function.update h.texts c.vertex (c.text h.texts) d.vertex = d.text _
    rcases List.mem_append.mp hd with hd | hd
    · rw [hkeep _ ((hl.fixed_iff _).mpr ⟨d, hd, rfl⟩), hl.spells d hd]
      exact (Call.text_congr fun v hv => hkeep v (hl.children d hd v hv)).symm
    · rw [List.mem_singleton.mp hd, Function.update_self]
      exact (Call.text_congr fun v hv => hkeep v (hchildren v hv)).symm
  · have hold : ∀ w, h.scorer.Fixed w → texts w = h.texts w :=
      hl.unique texts fun d hd => htexts d (List.mem_append_left _ hd)
    show texts v = Function.update h.texts c.vertex (c.text h.texts) v
    rcases (fixed_fix_iff hfix).mp hv with rfl | hv
    · rw [Function.update_self, htexts c (List.mem_append_right _ List.mem_cons_self)]
      exact Call.text_congr fun w hw => hold w (hchildren w hw)
    · rw [hkeep v hv, hold v hv]

variable [Scalar K]

/-- A policy that lets all statistics pass. -/
def anything : Policy K := fun _ _ _ => True

/-- A call that is taken is a step of a history. -/
theorem step_of_run (hc : c.run h.scorer = .ok t) :
    Step anything h
      { h with scorer := t, texts := Function.update h.texts c.vertex (c.text h.texts) } := by
  cases c with
  | leaf v => exact .fixLeaf hc
  | edge v e statistics => exact .fixEdge trivial hc

/-- **Every row of calls has a history.** -/
theorem exists_follows {s : Scorer K} (hs : ∀ v, ¬ s.Fixed v) (cs : List (Call K)) :
    ∃ h, Reached anything s h ∧ (ofCalls s cs).Follows h := by
  induction cs using List.reverseRecOn with
  | nil =>
    refine ⟨_, .start, rfl, fun v => ?_, ?_, ?_, fun _ _ v hv => absurd hv (hs v)⟩
    · simpa [ofCalls] using hs v
    · simp [ofCalls]
    · simp [ofCalls, Spells]
  | append_singleton cs c ih =>
    obtain ⟨h, hr, hl⟩ := ih
    have hlast : ofCalls s (cs ++ [c]) = (ofCalls s cs).call c := by simp [ofCalls]
    rw [hlast, call]
    split
    · next t ht =>
      rw [← hl.scorer] at ht
      exact ⟨_, hr.step (step_of_run ht), hl.take ht⟩
    · exact ⟨h, hr, hl⟩

/-! ## 3. The main result -/

/-- **Summaries hold the ends of the texts.**  After any calls, the calls that were taken spell one
text for each vertex that is fixed, and its summary has the first words of that text, the last
words in reading order, as many as the context takes, and the number of all words.  So no call fixes a
vertex by an edge with children whose text cannot be counted: that call overflows. -/
theorem boundaries (references : SentenceReferences) (smoothing : K) (f : Forest K)
    (cs : List (Call K)) :
    ∃ texts : VertexId → List WordId,
      (ofCalls (.start references smoothing f) cs).Spells texts ∧
      (∀ texts', (ofCalls (.start references smoothing f) cs).Spells texts' →
        ∀ v, (ofCalls (.start references smoothing f) cs).scorer.Fixed v →
          texts' v = texts v) ∧
      (∀ v, (ofCalls (.start references smoothing f) cs).scorer.Fixed v ↔
        ∃ c ∈ (ofCalls (.start references smoothing f) cs).taken, c.vertex = v) ∧
      (∀ v found, (ofCalls (.start references smoothing f) cs).scorer.summary v = .ok found →
        found.left = (texts v).take (min 3 (texts v).length) ∧
        found.right = (texts v).drop ((texts v).length - min 3 (texts v).length) ∧
        found.length = (texts v).length) ∧
      ∀ v (e : Edge K) statistics,
        (∀ c ∈ e.children, (ofCalls (.start references smoothing f) cs).scorer.Fixed c) →
        ¬ e.Countable texts →
        (ofCalls (.start references smoothing f) cs).scorer.fixEdge v e statistics =
          .error .overflow := by
  have hstart := not_fixed_start references smoothing f
  obtain ⟨h, hr, hl⟩ := exists_follows hstart cs
  have hd := hr.describes hstart
  rw [← hl.scorer]
  refine ⟨h.texts, hl.spells, hl.unique, hl.fixed_iff, fun v found hv => ?_,
    fun v e statistics hc hlong => ?_⟩
  · obtain ⟨hleft, hright, hlength⟩ := hd v found hv
    refine ⟨?_, ?_, hlength⟩
    · rw [hleft, List.take_eq_take_min]
      rfl
    · have hdrop : (h.texts v).length - contextSize =
          (h.texts v).length - min 3 (h.texts v).length := by
        rw [contextSize, maxOrder]
        omega
      rw [hright, List.rtake, hdrop]
  · have hk : ∀ c ∈ e.children, h.scorer.Knows h.texts c := fun c hmem => hd.knows (hc c hmem)
    exact fixEdge_eq_overflow hc (fun hfits => hlong ((lengthFits_iff hk).mp hfits)) v statistics

/-- The calls of a caller who asks for the whole sentence too early, and for the phrase twice. -/
def hastyCalls : List (Call Float) :=
  [.edge 2 Sample.sentence .zero, .edge 0 Sample.phrase .zero, .leaf 1, .leaf 0,
    .edge 2 Sample.sentence .zero]

/-- Two of the hasty calls fail, and the sentence has its nine words all the same. -/
theorem boundaries_hastyCalls :
    ∃ texts : VertexId → List WordId,
      (ofCalls (.start (Sample.corpus.sentence 0) 0 Sample.forest) hastyCalls).taken.length = 3 ∧
      (ofCalls (.start (Sample.corpus.sentence 0) 0 Sample.forest) hastyCalls).scorer.summary 2 =
        .ok ⟨[.sentenceStart, ⟨3⟩, ⟨2⟩], [⟨3⟩, ⟨2⟩, .sentenceEnd], .zero, 9⟩ ∧
      (texts 2).length = 9 ∧ (texts 2).take 3 = [.sentenceStart, ⟨3⟩, ⟨2⟩] := by
  obtain ⟨texts, -, -, -, hends, -⟩ :=
    boundaries (Sample.corpus.sentence 0) 0 Sample.forest hastyCalls
  have hfound : (ofCalls (.start (Sample.corpus.sentence 0) 0 Sample.forest)
      hastyCalls).scorer.summary 2 =
        .ok ⟨[.sentenceStart, ⟨3⟩, ⟨2⟩], [⟨3⟩, ⟨2⟩, .sentenceEnd], .zero, 9⟩ := rfl
  obtain ⟨hleft, -, hlength⟩ := hends 2 _ hfound
  have hnine : (texts 2).length = 9 := hlength.symm
  rw [hnine] at hleft
  exact ⟨texts, rfl, hfound, hnine, hleft.symm⟩

end Ledger

end Scorer

end ForestRescoring
