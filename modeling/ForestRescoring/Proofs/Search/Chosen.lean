/-
# The chosen edge is the last of the best

What the search keeps of a vertex comes from one edge: the edge in the table, its score, and in the
scorer the contexts, the length and the statistics of the vertex.  This module shows that the
edge is the last of the best candidates (`Forest.best_chosen`), where a candidate is rated by the
finished table and the finished scorer (`Search.rate`).

The scorer is written once for each vertex, behind the vertex's own candidates and in front of those
of all later vertices.  So what was written for a vertex is still there at the end, and the
contexts that the finished scorer gives its edge are those that were written
(`Forest.FixedBy.summarizes`).
-/
import Mathlib
import ForestRescoring.Proofs.Search.Optimal

namespace ForestRescoring

variable {K : Type} [Scalar K]

/-! ## 1. What an edge leaves in the scorer -/

namespace Scorer

variable {s t : Scorer K} {e : Edge K} {covered : ℕ} {found : Summary}

/-- A summary as an edge makes it: the contexts and the length of the edge, and the statistics that it
is scored with. -/
structure Summarizes (s : Scorer K) (e : Edge K) (covered : ℕ) (found : Summary) : Prop where
  left : s.leftContext e = .ok found.left
  right : s.rightContext e = .ok found.right
  length : s.targetLength e = .ok found.length
  statistics : ∃ bleu, s.score e covered = .ok (bleu, found.statistics)

theorem Summarizes.congr (h : AgreeOn e.children s t) (hs : s.Summarizes e covered found) :
    t.Summarizes e covered found where
  left := h.leftContext_eq.trans hs.left
  right := h.rightContext_eq.trans hs.right
  length := h.targetLength_eq.trans hs.length
  statistics := by
    obtain ⟨bleu, hbleu⟩ := hs.statistics
    exact ⟨bleu, (h.score_eq covered).trans hbleu⟩

/-- A vertex that is fixed by an edge has the summary that the edge makes. -/
theorem summarizes_of_fixEdge {v : VertexId} {bleu : K} {statistics : Statistics}
    (hv : v ∉ e.children) (hscore : s.score e covered = .ok (bleu, statistics))
    (ht : s.fixEdge v e statistics = .ok t) :
    ∃ found, t.summary v = .ok found ∧ t.Summarizes e covered found := by
  obtain ⟨left, right, length, hleft, hright, hlength, hfix⟩ := fixEdge_eq_ok_iff.mp ht
  have hmade : s.Summarizes e covered ⟨left, right, statistics, length⟩ :=
    ⟨hleft, hright, hlength, bleu, hscore⟩
  refine ⟨_, ?_, hmade.congr (agreeOn_of_fix hfix hv)⟩
  rw [summary_fix hfix, if_pos rfl]

end Scorer

variable {f : Forest K} {a : Assignment} {start s : Scorer K}

/-- **What was written for a vertex stays.**  The finished scorer has, for each vertex with an edge,
the summary that the edge makes. -/
theorem Forest.FixedBy.summarizes {n : ℕ} (h : f.FixedBy a start n s) (ha : f.Assigns a)
    {v : VertexId} {x : Vertex} {id : EdgeId} {e : Edge K} (hv : v < n) (hx : f.vertex? v = some x)
    (hid : a v = some id) (he : f.edge? id = some e) :
    ∃ found, s.summary v = .ok found ∧ s.Summarizes e x.sourceCovered found := by
  obtain ⟨-, e', he', hchildren⟩ := ha.edge v x id hx hid
  cases he.symm.trans he'
  -- a later vertex is neither the vertex nor one of its children
  have hlater : ∀ {s t : Scorer K} {u : VertexId} {found' : Summary}, v < u →
      s.fix u found' = .ok t →
      (∃ found, s.summary v = .ok found ∧ s.Summarizes e x.sourceCovered found) →
      ∃ found, t.summary v = .ok found ∧ t.Summarizes e x.sourceCovered found := by
    rintro s t u found' hu hfix ⟨found, hfound, hmade⟩
    refine ⟨found, ?_, hmade.congr (Scorer.agreeOn_of_fix hfix fun hmem => ?_)⟩
    · rw [Scorer.summary_fix hfix, if_neg (Nat.ne_of_lt hu), hfound]
    · exact Nat.lt_asymm hu (hchildren u hmem)
  induction h with
  | start => exact absurd hv (Nat.not_lt_zero v)
  | @leaf u s t hs hu ht ih =>
    have hne : v ≠ u := by
      rintro rfl
      rw [hid] at hu
      cases hu
    have hvu := Nat.lt_of_le_of_ne (Nat.le_of_lt_succ hv) hne
    exact hlater hvu ht (ih hvu)
  | @edge u y id' e' s t bleu statistics hs hy hu he' hscore ht ih =>
    by_cases hvu : v < u
    · obtain ⟨left, right, length, -, -, -, hfix⟩ := Scorer.fixEdge_eq_ok_iff.mp ht
      exact hlater hvu hfix (ih hvu)
    · obtain rfl : v = u := Nat.le_antisymm (Nat.le_of_lt_succ hv) (Nat.not_lt.mp hvu)
      cases hx.symm.trans hy
      cases hid.symm.trans hu
      cases he.symm.trans he'
      exact Scorer.summarizes_of_fixEdge (fun hmem => Nat.lt_irrefl v (hchildren v hmem)) hscore ht

/-- A scorer of a sentence stays one of that sentence. -/
theorem Forest.FixedBy.agreeOn_nil {n : ℕ} (hs : f.FixedBy a start n s) :
    Scorer.AgreeOn [] start s := by
  induction hs with
  | start => exact ⟨rfl, rfl, rfl, fun c hc => by cases hc⟩
  | leaf _ _ ht ih => exact ih.trans (Scorer.agreeOn_of_fix ht List.not_mem_nil)
  | edge _ _ _ _ _ ht ih =>
    obtain ⟨left, right, length, -, -, -, hfix⟩ := Scorer.fixEdge_eq_ok_iff.mp ht
    exact ih.trans (Scorer.agreeOn_of_fix hfix List.not_mem_nil)

/-- The scorer that belongs to an assignment was fixed by it. -/
theorem Forest.ScorerFor.fixedBy {o : Objective K} {references : SentenceReferences}
    (h : f.ScorerFor o references a (some s)) :
    f.FixedBy a (.start references o.smoothing f) f.vertices.size s := by
  rw [Forest.ScorerFor] at h
  split at h
  · cases h
  · obtain ⟨_, ⟨⟩, hfixed⟩ := h
    exact hfixed

/-! ## 2. Ratings -/

namespace Search

/-- An edge with its score and the statistics of its text. -/
structure Rating (K : Type) where
  id : EdgeId
  edge : Edge K
  score : K
  statistics : Statistics

variable {o : Objective K} {references : SentenceReferences} {s : Sweep f} {v : VertexId}
  {x : Vertex} {id : EdgeId}

/-- The rating of an edge of a vertex by a finished sweep: its own score, the scores that the table
has for its children added in order, and the weighted BLEU of the scorer if there is one. -/
def rate (o : Objective K) (s : Sweep f) (x : Vertex) (id : EdgeId) : Option (Rating K) :=
  (f.edge? id).bind fun e =>
    match s.scorer with
    | none => some ⟨id, e, edgeScore o.weights s.table.score e, .zero⟩
    | some scorer => (scorer.score e x.sourceCovered).toOption.map fun found =>
      ⟨id, e, edgeScore o.weights s.table.score e + o.bleuWeight * found.1, found.2⟩

theorem rate_eq_some_iff {r : Rating K} : rate o s x id = some r ↔ r.id = id ∧
    f.edge? id = some r.edge ∧
      Rates o s.scorer s.table.score x.sourceCovered r.edge r.score r.statistics := by
  rw [rate, Option.bind_eq_some_iff]
  constructor
  · rintro ⟨e, he, hr⟩
    split at hr
    · next hnone =>
      cases hr
      rw [hnone]
      exact ⟨rfl, he, rfl, rfl⟩
    · next scorer hsome =>
      obtain ⟨found, hfound, rfl⟩ := toOption_map_eq_some_iff.mp hr
      rw [hsome]
      exact ⟨rfl, he, found.1, hfound, rfl⟩
  · obtain ⟨id', e', score, statistics⟩ := r
    rintro ⟨rfl, he, hrates⟩
    refine ⟨e', he, ?_⟩
    dsimp only at hrates
    split
    · next hnone =>
      rw [hnone] at hrates
      obtain ⟨rfl, rfl⟩ := hrates
      rfl
    · next scorer hsome =>
      rw [hsome] at hrates
      obtain ⟨bleu, hbleu, rfl⟩ := hrates
      rw [hbleu]
      rfl

/-- An offer is a rating. -/
theorem Offer.exists_rate {score : K} (h : Offer o s v x id score) :
    ∃ r : Rating K, (r.id, r.score) = (id, score) ∧ rate o s x id = some r := by
  obtain ⟨e, statistics, he, -, hrates⟩ := h
  exact ⟨⟨id, e, score, statistics⟩, rfl, rate_eq_some_iff.mpr ⟨rfl, he, hrates⟩⟩

/-- **The edges of a settled vertex are rated**, and the table has the edge and the score of the
winner. -/
theorem Settled.exists_winner (hs : Settled o s v x) (hx : x.incoming ≠ []) :
    ∃ (ratings : List (Rating K)) (won : Rating K),
      List.Forall₂ (fun id r => rate o s x id = some r) x.incoming ratings ∧
        winner Rating.score ratings = some won ∧
        s.table.chosen v = some won.id ∧ s.table.score v = won.score := by
  rcases hs with ⟨hleaf, -⟩ | ⟨offers, won, hids, hoffers, hwon, hedge, hscore⟩
  · exact absurd hleaf hx
  · obtain ⟨ratings, hratings⟩ := exists_forall₂_iff.mpr fun p hp => (hoffers p hp).exists_rate
    have hpairs : ratings.map (fun r => (r.id, r.score)) = offers := by
      rw [map_eq_of_forall₂ hratings fun p r h => h.1, List.map_id']
    rw [← hpairs, winner_map] at hwon
    obtain ⟨r, hr, rfl⟩ := Option.map_eq_some_iff.mp hwon
    refine ⟨ratings, r, ?_, hr, hedge, hscore⟩
    rw [← hids, List.forall₂_map_left_iff]
    exact hratings.imp fun p r h => h.2

end Search

/-! ## 3. The main result -/

variable {o : Objective K} {references : SentenceReferences} {h : Decoding K}

/-- **The chosen edge is the last of the best.**  Where a search has a result, the edges of each vertex
are rated by the table and the scorer that the search ends with.  At a vertex that is no leaf, if
all its ratings can be compared, the table has the last edge whose score is at least that of every
other, with its score; and if there is a scorer, it has for the vertex the statistics of that edge's
rating, and the contexts and the length of that edge. -/
theorem Forest.best_chosen [Scalar.Ordered K] (hb : f.best o references = .ok h) :
    ∃ s : Search.Sweep f, Search.sweep o references f = .ok s ∧
      f.ScorerFor o references s.table.chosen s.scorer ∧
      ∀ v x, f.vertex? v = some x → x.incoming ≠ [] →
        ∃ ratings, List.Forall₂ (fun id r => Search.rate o s x id = some r) x.incoming ratings ∧
          ((∀ r ∈ ratings, Scalar.Comparable r.score) →
            ∃ won, Search.IsLastBest Search.Rating.score ratings won ∧
              s.table.chosen v = some won.id ∧ s.table.score v = won.score ∧
              ∀ scorer, s.scorer = some scorer → ∃ found, scorer.summary v = .ok found ∧
                scorer.Summarizes won.edge x.sourceCovered found ∧
                found.statistics = won.statistics) := by
  obtain ⟨root, s, hroot, hs⟩ := Forest.of_best_eq_ok hb
  obtain ⟨hw, hsize⟩ := Search.swept_of_sweep_eq_ok hs
  have hscorer := hw.scorerFor hsize
  refine ⟨s, hs, hscorer, fun v x hx hne => ?_⟩
  obtain ⟨ratings, won, hrated, hwon, hedge, hscore⟩ :=
    (hw.settled_vertex hsize hx).exists_winner hne
  refine ⟨ratings, hrated, fun hall => ?_⟩
  refine ⟨won, Search.isLastBest_of_winner_eq hall hwon, hedge, hscore, fun scorer hsome => ?_⟩
  obtain ⟨id, -, hrate⟩ := exists_mem_of_forall₂ hrated (Search.mem_of_winner_eq hwon)
  obtain ⟨rfl, hfound, hrates⟩ := Search.rate_eq_some_iff.mp hrate
  rw [hsome] at hrates hscorer
  obtain ⟨bleu, hbleu, -⟩ := hrates
  have hlt : v < f.vertices.size := (Array.getElem?_eq_some_iff.mp hx).1
  obtain ⟨found, hsummary, hmade⟩ :=
    hscorer.fixedBy.summarizes (hw.assigns hsize) hlt hx hedge hfound
  refine ⟨found, hsummary, hmade, ?_⟩
  obtain ⟨bleu', hbleu'⟩ := hmade.statistics
  have hsame := Except.ok.inj (hbleu'.symm.trans hbleu)
  exact (Prod.ext_iff.mp hsame).2

namespace Sample

/-- A phrase that can be left out in three ways, and a sentence with the phrase. -/
def tied : Forest Float :=
  ⟨2, 4, #[⟨[0, 1, 2], 1⟩, ⟨[3], 2⟩],
    #[scored [] 1.5, scored [] 1.5, scored [] (-2.0), scored [.word ⟨2⟩, .gap 0] 0.0]⟩

/-- The model, with as much weight on BLEU. -/
def guided : Objective Float := ⟨weights, 1.0, 0.01⟩

end Sample

/-- Of two edges that are equally good the later one is chosen, though a third stands behind it. -/
theorem Forest.best_chosen_tied :
    ∃ h s ratings won, Sample.tied.best Sample.guided (Scorer.Sample.corpus.sentence 0) = .ok h ∧
      Search.sweep Sample.guided (Scorer.Sample.corpus.sentence 0) Sample.tied = .ok s ∧
      List.Forall₂ (fun id r => Search.rate Sample.guided s ⟨[0, 1, 2], 1⟩ id = some r) [0, 1, 2]
        ratings ∧
      (∀ r ∈ ratings, Scalar.Comparable r.score) ∧
      Search.IsLastBest Search.Rating.score ratings won ∧ s.table.chosen 0 = some won.id ∧
      won.id = 1 := by
  have hdone : ((Sample.tied.best Sample.guided
      (Scorer.Sample.corpus.sentence 0)).toOption.map Decoding.text) = some [⟨2⟩] := by
    decide +kernel
  have hrated : ((Search.sweep Sample.guided (Scorer.Sample.corpus.sentence 0)
      Sample.tied).toOption.map fun s => (s.table.chosen 0,
        [0, 1, 2].all fun id => (Search.rate Sample.guided s ⟨[0, 1, 2], 1⟩ id).all fun r =>
          Scalar.atLeast r.score r.score)) = some (some 1, true) := by
    decide +kernel
  obtain ⟨h, hb, -⟩ := toOption_map_eq_some_iff.mp hdone
  obtain ⟨s, hs, hsweep⟩ := toOption_map_eq_some_iff.mp hrated
  obtain ⟨hchosen, hall⟩ := Prod.ext_iff.mp hsweep
  obtain ⟨s', hs', -, hvertices⟩ := Forest.best_chosen hb
  cases hs.symm.trans hs'
  obtain ⟨ratings, hratings, hlast⟩ := hvertices 0 ⟨[0, 1, 2], 1⟩ rfl (List.cons_ne_nil _ _)
  have hcomparable : ∀ r ∈ ratings, Scalar.Comparable r.score := by
    intro r hr
    obtain ⟨id, hid, hrate⟩ := exists_mem_of_forall₂ hratings hr
    have hone := List.all_eq_true.mp hall id hid
    rw [hrate] at hone
    exact hone
  obtain ⟨won, hwon, hedge, -⟩ := hlast hcomparable
  refine ⟨h, s, ratings, won, hb, hs, hratings, hcomparable, hwon, hedge, ?_⟩
  exact Option.some.inj (hedge.symm.trans hchosen)

end ForestRescoring
