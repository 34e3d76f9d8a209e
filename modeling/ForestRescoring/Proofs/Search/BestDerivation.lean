/-
# What a search returns is a derivation

The text and the features that a search returns come from its walk, and the score from its sweep.
This module puts the two together: there is one assignment of edges to vertices such that text and
features are those of the derivation that follows it, and the score is the one that its edges add up
to, each with the BLEU that a scorer gives it whose summaries were fixed by the same edges
(`Forest.best_derivation`).

A sweep that succeeds has settled what the walk needs, so the search has a result as soon as the
sweep has one (`Forest.best_eq_of_sweep`).
-/
import Mathlib
import ForestRescoring.Proofs.Scoring.Counting
import ForestRescoring.Proofs.Search.Sweep
import ForestRescoring.Proofs.Search.Walk

namespace ForestRescoring

variable {K : Type} [Scalar K]

/-! ## 1. Scores under an assignment -/

/-- Scores of vertices that belong to an assignment: zero for a leaf, and for any other vertex that
of its edge, the children's scores and the BLEU term added. -/
def Forest.Scored (f : Forest K) (o : Objective K) (a : Assignment) (scorer : Option (Scorer K))
    (σ : VertexId → K) : Prop :=
  ∀ v x, f.vertex? v = some x → match a v with
    | none => σ v = Scalar.zero
    | some id => ∃ e statistics, f.edge? id = some e ∧
        Search.Rates o scorer σ x.sourceCovered e (σ v) statistics

/-- The scorer that belongs to an assignment, if the BLEU term has a weight. -/
def Forest.ScorerFor (f : Forest K) (o : Objective K) (references : SentenceReferences)
    (a : Assignment) (scorer : Option (Scorer K)) : Prop :=
  if Scalar.isZero o.bleuWeight then scorer = none
  else ∃ s, scorer = some s ∧
    f.FixedBy a (.start references o.smoothing f) f.vertices.size s

namespace Search

variable {f : Forest K} {o : Objective K} {references : SentenceReferences} {s : Sweep f}

/-- The edge of a settled vertex is one of its own, and uses vertices in front of it. -/
theorem Settled.edge {v : VertexId} {x : Vertex} {id : EdgeId} (hs : Settled o s v x)
    (h : s.table.chosen v = some id) : id ∈ x.incoming ∧ Offer o s v x id (s.table.score v) := by
  rcases hs with ⟨-, hnone, -⟩ | ⟨offers, won, hids, hoffers, hwon, hedge, hscore⟩
  · rw [h] at hnone
    cases hnone
  · rw [h] at hedge
    cases hedge
    have hmem := mem_of_winner_eq hwon
    rw [hscore, ← hids]
    exact ⟨List.mem_map_of_mem hmem, hoffers won hmem⟩

/-- A settled vertex without an edge is a leaf. -/
theorem Settled.leaf {v : VertexId} {x : Vertex} (hs : Settled o s v x)
    (h : s.table.chosen v = none) : x.incoming = [] ∧ s.table.score v = Scalar.zero := by
  rcases hs with ⟨hleaf, -, hscore⟩ | ⟨offers, won, -, -, -, hedge, -⟩
  · exact ⟨hleaf, hscore⟩
  · rw [h] at hedge
    cases hedge

variable (hw : Swept o references s) (hsize : s.table.size = f.vertices.size)

include hw hsize

/-- All vertices of the forest are settled. -/
theorem Swept.settled_vertex {v : VertexId} {x : Vertex} (hx : f.vertex? v = some x) :
    Settled o s v x :=
  hw.settled v x (hsize ▸ (Array.getElem?_eq_some_iff.mp hx).1) hx

/-- **The table is an assignment.** -/
theorem Swept.assigns : f.Assigns s.table.chosen where
  eq_none_iff := by
    intro v x hx
    have hs := hw.settled_vertex hsize hx
    constructor
    · exact fun h => (hs.leaf h).1
    · intro hleaf
      cases h : s.table.chosen v with
      | none => rfl
      | some id =>
        have hmem := (hs.edge h).1
        rw [hleaf] at hmem
        cases hmem
  edge := by
    intro v x id hx h
    obtain ⟨hmem, e, statistics, he, hchildren, -⟩ := (hw.settled_vertex hsize hx).edge h
    exact ⟨hmem, e, he, hchildren⟩

/-- The scores in the table belong to it. -/
theorem Swept.scored : f.Scored o s.table.chosen s.scorer s.table.score := by
  intro v x hx
  have hs := hw.settled_vertex hsize hx
  cases h : s.table.chosen v with
  | none => exact (hs.leaf h).2
  | some id =>
    obtain ⟨-, e, statistics, he, -, hrates⟩ := hs.edge h
    exact ⟨e, statistics, he, hrates⟩

/-- The scorer of the sweep belongs to the table. -/
theorem Swept.scorerFor : f.ScorerFor o references s.table.chosen s.scorer := by
  have hscores := hw.scores
  rw [Scores, hsize] at hscores
  exact hscores

end Search

/-! ## 2. The main result -/

variable {f : Forest K} {o : Objective K} {references : SentenceReferences} {h : Decoding K}

omit [Scalar K] in
theorem Forest.lt_of_root?_eq {root : VertexId} (h : f.root? = some root) :
    root < f.vertices.size := by
  rw [Forest.root?] at h
  split at h
  · cases h
  · next hne =>
    cases h
    exact Nat.sub_lt (Nat.pos_of_ne_zero hne) Nat.one_pos

/-- A sweep that succeeds has a walk that comes to its end. -/
theorem Forest.best_eq_of_sweep {root : VertexId} {s : Search.Sweep f} (hroot : f.root? = some root)
    (hs : Search.sweep o references f = .ok s) :
    ∃ d, f.Unfolds s.table.chosen root d ∧ f.best o references =
      .ok ⟨d.yield, s.table.score root, d.features, references.statistics d.yield⟩ := by
  obtain ⟨hw, hsize⟩ := Search.swept_of_sweep_eq_ok hs
  obtain ⟨d, hd⟩ := (hw.assigns hsize).exists_unfolds (Forest.lt_of_root?_eq hroot)
  refine ⟨d, hd, ?_⟩
  rw [Forest.best, hroot]
  show (Search.sweep o references f >>= _) = _
  rw [hs]
  show (s.table.expand (.start root) >>= _) = _
  rw [Search.Table.expand_unfolds hd]
  rfl

/-- **A search that has a result has swept the forest.** -/
theorem Forest.of_best_eq_ok (hb : f.best o references = .ok h) :
    ∃ root s, f.root? = some root ∧ Search.sweep o references f = .ok s := by
  rw [Forest.best] at hb
  split at hb
  · cases hb
  · next root hroot =>
    obtain ⟨s, hs, -⟩ := bind_eq_ok_iff.mp hb
    exact ⟨root, s, hroot, hs⟩

/-- **What a search returns is a derivation.**  There is an assignment of edges, none leading ahead,
such that the text and the features are those of the derivation of the root that follows it, and
the score is what its edges add up to, with the BLEU that they have under the summaries that they
fix.  The statistics are those of the text.  And the walk writes the derivation in a number of
turns, each of which succeeds. -/
theorem Forest.best_derivation (hb : f.best o references = .ok h) :
    ∃ (root : VertexId) (a : Assignment) (d : Derivation K),
      f.root? = some root ∧ f.Assigns a ∧
      f.Unfolds a root d ∧ (∀ d', f.Unfolds a root d' → d' = d) ∧
      h.text = d.yield ∧ h.features = d.features ∧
      (∃ scorer σ, f.ScorerFor o references a scorer ∧ f.Scored o a scorer σ ∧
        h.score = σ root) ∧
      h.statistics = references.statistics h.text ∧
      ∃ s, Search.sweep o references f = .ok s ∧ s.table.chosen = a ∧
        s.table.turns d.size (.start root) = .ok ⟨h.text.toArray, h.features, []⟩ := by
  obtain ⟨root, s, hroot, hs⟩ := Forest.of_best_eq_ok hb
  obtain ⟨d, hd, hbest⟩ := Forest.best_eq_of_sweep hroot hs
  obtain ⟨hw, hsize⟩ := Search.swept_of_sweep_eq_ok hs
  rw [hbest] at hb
  cases hb
  have hturns := Search.Table.turns_unfolds hd #[] .empty []
  refine ⟨root, s.table.chosen, d, hroot, hw.assigns hsize, hd, fun d' => hd.eq, rfl, rfl,
    ⟨s.scorer, s.table.score, hw.scorerFor hsize, hw.scored hsize, rfl⟩, rfl,
    s, hs, rfl, ?_⟩
  rw [Search.Expansion.start, hturns]
  simp [Derivation.features]

/-- A search with a BLEU term, in a forest where a phrase is used twice. -/
theorem Forest.best_derivation_sentence :
    ∃ h, Scorer.Sample.forest.best ⟨.empty, 1.0, 0.01⟩ (Scorer.Sample.corpus.sentence 0) = .ok h ∧
      h.text = [.sentenceStart, ⟨3⟩, ⟨2⟩, ⟨3⟩, ⟨2⟩, ⟨2⟩, ⟨3⟩, ⟨2⟩, .sentenceEnd] ∧
      ∃ (a : Assignment) (d : Derivation Float), Scorer.Sample.forest.Assigns a ∧
        Scorer.Sample.forest.Unfolds a 2 d ∧ h.text = d.yield := by
  have hdone : ((Scorer.Sample.forest.best ⟨.empty, 1.0, 0.01⟩
      (Scorer.Sample.corpus.sentence 0)).toOption.map Decoding.text) =
        some [.sentenceStart, ⟨3⟩, ⟨2⟩, ⟨3⟩, ⟨2⟩, ⟨2⟩, ⟨3⟩, ⟨2⟩, .sentenceEnd] := by
    decide +kernel
  cases hb : Scorer.Sample.forest.best ⟨.empty, 1.0, 0.01⟩ (Scorer.Sample.corpus.sentence 0) with
  | error e =>
    rw [hb] at hdone
    cases hdone
  | ok h =>
    rw [hb] at hdone
    obtain ⟨root, a, d, hroot, ha, hd, -, htext, -⟩ := Forest.best_derivation hb
    cases hroot
    exact ⟨h, rfl, Option.some.inj hdone, a, d, ha, hd, htext⟩

end ForestRescoring
