/-
# Searching under other numbers

A search looks at the words of a forest only through the scorer, and writes them down at the end.  So
the search of a forest in which the words have other numbers goes the same way: at every vertex the
same edge wins with the same score, and the text that is written has the new numbers
(`Forest.best_renumber`).  Where the one search fails, so does the other, for the same reason.

The two sweeps are compared step by step.  As long as one mirrors the other (`Search.Mirrors`), the
next visit finds candidates with the same scores and fixes summaries that differ in their numbers only,
or else both fail with the same failure (`Search.Mirrors.visit`).
-/
import Mathlib
import ForestRescoring.Proofs.Renumbering.Scoring
import ForestRescoring.Proofs.Search.Offences

namespace ForestRescoring

variable {K : Type} {ρ : WordId → WordId}

/-! ## 1. Forests -/

/-- A forest with other numbers for its words. -/
def Forest.renumber (ρ : WordId → WordId) (f : Forest K) : Forest K :=
  { f with edges := f.edges.map (Edge.renumber ρ) }

namespace Forest

theorem edge?_renumber (ρ : WordId → WordId) (f : Forest K) (id : EdgeId) :
    (f.renumber ρ).edge? id = (f.edge? id).map (Edge.renumber ρ) := Array.getElem?_map

end Forest

/-! ## 2. Derivations -/

variable {f : Forest K} {a : Assignment}

section

variable [Scalar K]

mutual

/-- **The same edges write the same text**, with the new numbers, and have the same features. -/
theorem Forest.Unfolds.renumber {v : VertexId} {d d' : Derivation K} (h : f.Unfolds a v d)
    (h' : (f.renumber ρ).Unfolds a v d') :
    d'.yield = d.yield.map ρ ∧ ∀ u, d'.addFeatures u = d.addFeatures u := by
  cases h with
  | leaf hv =>
    cases h' with
    | leaf => exact ⟨rfl, fun u => rfl⟩
    | node hv' => rw [hv] at hv'; cases hv'
  | @node _ id e target hv he ht =>
    cases h' with
    | leaf hv' => rw [hv] at hv'; cases hv'
    | @node _ id' e' target' hv' he' ht' =>
      rw [hv] at hv'
      cases hv'
      rw [Forest.edge?_renumber, he] at he'
      cases he'
      rw [Edge.slots_renumber] at ht'
      obtain ⟨hyield, hfeatures⟩ := ht.renumber ht'
      refine ⟨hyield, fun u => ?_⟩
      rw [Edge.features_renumber]
      exact hfeatures (u.add e.features)

theorem Forest.UnfoldsSlots.renumber {slots : List Slot} {target target' : Target K}
    (h : f.UnfoldsSlots a slots target)
    (h' : (f.renumber ρ).UnfoldsSlots a (slots.map (Slot.renumber ρ)) target') :
    target'.yield = target.yield.map ρ ∧ ∀ u, target'.addFeatures u = target.addFeatures u := by
  cases h with
  | done =>
    cases h' with
    | done => exact ⟨rfl, fun u => rfl⟩
  | @word w slots rest h =>
    cases h' with
    | word hrest =>
      obtain ⟨hyield, hfeatures⟩ := h.renumber hrest
      exact ⟨congrArg (ρ w :: ·) hyield, hfeatures⟩
  | @part c inner slots rest hd h =>
    cases h' with
    | part hd' hrest =>
      obtain ⟨hinner, hinnerFeatures⟩ := hd.renumber hd'
      obtain ⟨hyield, hfeatures⟩ := h.renumber hrest
      refine ⟨?_, fun u => ?_⟩
      · rw [Target.yield, Target.yield, hinner, hyield, List.map_append]
      · rw [Target.addFeatures, Target.addFeatures, hinnerFeatures, hfeatures]

end

end

mutual

/-- The words of a derivation are words of edges. -/
theorem Forest.Unfolds.forall_mem_yield {p : WordId → Prop}
    (hp : ∀ id e, f.edge? id = some e → ∀ w, .word w ∈ e.slots → p w) {v : VertexId}
    {d : Derivation K} (h : f.Unfolds a v d) : ∀ w ∈ d.yield, p w := by
  cases h with
  | leaf hv => exact List.forall_mem_nil p
  | node hv he ht => exact ht.forall_mem_yield hp (hp _ _ he)

theorem Forest.UnfoldsSlots.forall_mem_yield {p : WordId → Prop}
    (hp : ∀ id e, f.edge? id = some e → ∀ w, .word w ∈ e.slots → p w) {slots : List Slot}
    {target : Target K} (h : f.UnfoldsSlots a slots target) (hs : ∀ w, .word w ∈ slots → p w) :
    ∀ w ∈ target.yield, p w := by
  cases h with
  | done => exact List.forall_mem_nil p
  | @word w slots rest h =>
    exact List.forall_mem_cons.mpr ⟨hs w List.mem_cons_self,
      h.forall_mem_yield hp fun v hv => hs v (List.mem_cons_of_mem _ hv)⟩
  | @part c inner slots rest hd h =>
    exact List.forall_mem_append.mpr ⟨hd.forall_mem_yield hp,
      h.forall_mem_yield hp fun v hv => hs v (List.mem_cons_of_mem _ hv)⟩

end

namespace Search

variable [Scalar K]

/-! ## 3. Candidates -/

omit [Scalar K] in
/-- A start for the renumbered forest is a renumbered start. -/
theorem start_renumber (ρ : WordId → WordId) (references : SentenceReferences) (smoothing : K)
    (f : Forest K) :
    Scorer.start references smoothing (f.renumber ρ) =
      (Scorer.start references smoothing f).renumber ρ := by
  simp [Scorer.start, Scorer.renumber, Forest.renumber, Forest.sourceLength]

theorem edgeScore_renumber (weights : FeatureVector K) (σ : VertexId → K) (e : Edge K) :
    edgeScore weights σ (e.renumber ρ) = edgeScore weights σ e := by
  rw [edgeScore, edgeScore, Edge.children_renumber, Edge.score, Edge.score, Edge.features_renumber]

variable {o : Objective K} {references : SentenceReferences} {s s' : Sweep f}
  {t t' : Sweep (f.renumber ρ)} {x : Vertex} {id : EdgeId}

/-- A sweep of a forest under other numbers that has come as far as a sweep of the forest, with the
same table and renumbered summaries. -/
structure Mirrors (references : SentenceReferences) (s : Sweep f) (t : Sweep (f.renumber ρ)) :
    Prop where
  entries : t.table.entries = s.table.entries
  scorer : t.scorer = s.scorer.map (Scorer.renumber ρ)
  references : ∀ scorer, s.scorer = some scorer → scorer.references = references

omit [Scalar K] in
theorem Mirrors.size_eq (h : Mirrors references s t) : t.table.size = s.table.size := by
  rw [Table.size, h.entries, Table.size]

theorem Mirrors.score_eq (h : Mirrors references s t) : t.table.score = s.table.score := by
  funext v
  rw [Table.score, h.entries, Table.score]

omit [Scalar K] in
theorem Mirrors.chosen_eq (h : Mirrors references s t) : t.table.chosen = s.table.chosen := by
  funext v
  rw [Table.chosen, h.entries, Table.chosen]

/-- Candidates for one edge, with the same score. -/
structure Candidate.Mirrors (c : Candidate s) (d : Candidate t) : Prop where
  id : d.id = c.id
  edge : d.edge = c.edge.renumber ρ
  score : d.score = c.score
  statistics : d.statistics = c.statistics

/-- Both sweeps give an edge the same score. -/
theorem Mirrors.of_candidate_eq_ok (h : Mirrors references s t) (hρ : Renumbering references ρ)
    {c : Candidate s} {d : Candidate t} (hc : candidate o s x id = .ok c)
    (hd : candidate o t x id = .ok d) : c.Mirrors d := by
  obtain ⟨hcid, hcrates⟩ := Search.of_candidate_eq_ok hc
  obtain ⟨hdid, hdrates⟩ := Search.of_candidate_eq_ok hd
  have hedge : d.edge = c.edge.renumber ρ := by
    have hfound := d.found
    rw [hdid, ← hcid, Forest.edge?_renumber, c.found] at hfound
    exact (Option.some.inj hfound).symm
  have hid : d.id = c.id := hdid.trans hcid.symm
  rw [h.score_eq, hedge, h.scorer] at hdrates
  cases hscorer : s.scorer with
  | none =>
    rw [hscorer] at hcrates hdrates
    obtain ⟨hcscore, hcstat⟩ := hcrates
    obtain ⟨hdscore, hdstat⟩ := hdrates
    rw [edgeScore_renumber] at hdscore
    exact ⟨hid, hedge, hdscore.trans hcscore.symm, hdstat.trans hcstat.symm⟩
  | some scorer =>
    rw [hscorer] at hcrates hdrates
    obtain ⟨bleu, hcbleu, hcscore⟩ := hcrates
    obtain ⟨bleu', hdbleu, hdscore⟩ := hdrates
    have hkeep : Renumbering scorer.references ρ := by rwa [h.references scorer hscorer]
    rw [Scorer.score_renumber hkeep, hcbleu] at hdbleu
    obtain ⟨hbleu, hstatistics⟩ := Prod.mk.inj (Except.ok.inj hdbleu)
    rw [edgeScore_renumber, ← hbleu] at hdscore
    exact ⟨hid, hedge, hdscore.trans hcscore.symm, hstatistics.symm⟩

/-- **Both sweeps rate an edge alike**, or cannot rate it for the same reason. -/
theorem Mirrors.candidate (h : Mirrors references s t) (hρ : Renumbering references ρ) :
    Alike Candidate.Mirrors (candidate o s x id) (candidate o t x id) := by
  refine .of_failure? ?_ fun c d => h.of_candidate_eq_ok hρ
  rw [failure?_candidate, failure?_candidate, Forest.edge?_renumber, h.scorer]
  cases f.edge? id with
  | none => rfl
  | some e =>
    simp only [Option.map_some, modelScore, failure?_addScores, Edge.children_renumber, h.size_eq]
    cases hscorer : s.scorer with
    | none => rfl
    | some scorer =>
      have hkeep : Renumbering scorer.references ρ := by rwa [h.references scorer hscorer]
      rw [Option.map_some, Option.bind_some, Option.bind_some, Scorer.score_renumber hkeep]

/-! ## 4. The sweep -/

omit [Scalar K] in
/-- Scorers that were renumbered are still renumbered when one calculation is made with each of them,
as long as this does not change the references. -/
theorem Mirrors.run (h : Mirrors references s t)
    {run run' : Scorer K → Except SearchError (Scorer K)}
    (hrun : ∀ a, run' (a.renumber ρ) = (run a).map (Scorer.renumber ρ))
    (hkeep : ∀ a b, run a = .ok b → b.references = a.references) :
    Alike (fun p q => q = p.map (Scorer.renumber ρ) ∧
        ∀ scorer, p = some scorer → scorer.references = references)
      (s.scorer.mapM run) (t.scorer.mapM run') := by
  have hreferences := h.references
  rw [h.scorer]
  cases hs : s.scorer with
  | none => exact .ok ⟨rfl, fun scorer hscorer => by cases hscorer⟩
  | some a =>
    rw [Option.map_some, Option.mapM_some, Option.mapM_some, hrun]
    cases hb : run a with
    | error cause => exact .error cause
    | ok b =>
      refine .ok ⟨rfl, fun scorer hscorer => ?_⟩
      cases hscorer
      rw [hkeep a b hb, hreferences a hs]

omit [Scalar K] in
theorem Mirrors.settle (h : Mirrors references s t) {c : Candidate s} {d : Candidate t}
    (hcd : c.Mirrors d) : Alike (Mirrors references) (settle s c) (settle t d) := by
  have hentry : d.entry = c.entry := by
    rw [Candidate.entry, Candidate.entry, hcd.id, hcd.score]
  rw [Search.settle, Search.settle, h.size_eq, hcd.edge, hcd.statistics]
  refine (h.run (fun a => a.fixEdge_renumber ρ _ _ _) fun a b hab => ?_).bind fun p q hpq =>
    .ok ⟨?_, hpq.1, hpq.2⟩
  · obtain ⟨left, right, length, -, -, -, hfix⟩ := Scorer.fixEdge_eq_ok_iff.mp hab
    exact (Scorer.of_fix_eq_ok hfix).2.1
  · show t.table.entries.push d.entry = s.table.entries.push c.entry
    rw [h.entries, hentry]

theorem Mirrors.visitLeaf (h : Mirrors references s t) :
    Alike (Mirrors references) (visitLeaf s) (visitLeaf t) := by
  rw [Search.visitLeaf, Search.visitLeaf, h.size_eq]
  refine (h.run (fun a => a.fixLeaf_renumber ρ _) fun a b hab => ?_).bind fun p q hpq =>
    .ok ⟨?_, hpq.1, hpq.2⟩
  · exact (Scorer.of_fix_eq_ok hab).2.1
  · show t.table.entries.push .leaf = s.table.entries.push .leaf
    rw [h.entries]

/-- **Sweeps that go together stay together**, visit by visit, or stop together. -/
theorem Mirrors.visit (h : Mirrors references s t) (hρ : Renumbering references ρ) (x : Vertex) :
    Alike (Mirrors references) (visit o s x) (visit o t x) := by
  refine (Alike.mapM fun id _ => h.candidate hρ).bind fun cs ds hall => ?_
  have hwinner := winner_rel (fun _ _ hcd => Candidate.Mirrors.score hcd) hall
  cases hc : winner Candidate.score cs with
  | none =>
    rw [hc] at hwinner
    generalize winner Candidate.score ds = won at hwinner
    cases hwinner
    exact h.visitLeaf
  | some c =>
    rw [hc] at hwinner
    generalize winner Candidate.score ds = won at hwinner
    cases hwinner with
    | some hcd => exact h.settle hcd

theorem mirrors_start (o : Objective K) (references : SentenceReferences) (f : Forest K) :
    Mirrors references (Sweep.start o references f) (Sweep.start o references (f.renumber ρ)) where
  entries := rfl
  scorer := by
    rw [Sweep.start, Sweep.start]
    by_cases hzero : Scalar.isZero o.bleuWeight = true
    · simp only [if_pos hzero, Option.map_none]
    · simp only [if_neg hzero, Option.map_some, start_renumber]
  references := by
    intro scorer hscorer
    rw [Sweep.start] at hscorer
    by_cases hzero : Scalar.isZero o.bleuWeight = true
    · simp only [if_pos hzero] at hscorer
      cases hscorer
    · simp only [if_neg hzero] at hscorer
      cases hscorer
      rfl

/-- **The whole sweeps go together.** -/
theorem mirrors_sweep (hρ : Renumbering references ρ) (o : Objective K) (f : Forest K) :
    Alike (Mirrors references) (sweep o references f) (sweep o references (f.renumber ρ)) :=
  Alike.foldlM (fun _ _ x h => h.visit hρ x) (mirrors_start o references f) f.vertices.toList

end Search

/-! ## 5. The best derivation -/

variable [Scalar K] {o : Objective K} {references : SentenceReferences}

/-- A decoding with other numbers in its text. -/
def Decoding.renumber (ρ : WordId → WordId) (d : Decoding K) : Decoding K :=
  { d with text := d.text.map ρ }

/-- **A search does not depend on the numbers.**  It finds the same derivation, and fails for the same
reason. -/
theorem Forest.best_renumber (hρ : Renumbering references ρ) (o : Objective K) (f : Forest K) :
    (f.renumber ρ).best o references = (f.best o references).map (Decoding.renumber ρ) := by
  have hroot : (f.renumber ρ).root? = f.root? := rfl
  cases hf : f.root? with
  | none =>
    rw [Forest.best, Forest.best, hroot, hf]
    rfl
  | some root =>
    rw [hf] at hroot
    cases hs : Search.sweep o references f with
    | error cause =>
      have hsweeps := Search.mirrors_sweep hρ o f
      rw [hs] at hsweeps
      generalize ht : Search.sweep o references (f.renumber ρ) = t at hsweeps
      cases hsweeps
      rw [Forest.best, Forest.best, hroot, hf]
      dsimp only
      rw [hs, ht]
      rfl
    | ok s =>
      have hsweeps := Search.mirrors_sweep hρ o f
      rw [hs] at hsweeps
      generalize ht : Search.sweep o references (f.renumber ρ) = t at hsweeps
      cases hsweeps with
      | ok hmirrors =>
        obtain ⟨d, hd, hbest⟩ := Forest.best_eq_of_sweep hf hs
        obtain ⟨d', hd', hbest'⟩ := Forest.best_eq_of_sweep hroot ht
        rw [hmirrors.chosen_eq] at hd'
        obtain ⟨hyield, hfeatures⟩ := hd.renumber hd'
        have hfeatures : d'.features = d.features := hfeatures .empty
        rw [hbest, hbest', hyield, hfeatures, hmirrors.score_eq, hρ.statistics_map]
        rfl

end ForestRescoring
