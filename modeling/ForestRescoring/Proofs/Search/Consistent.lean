/-
# Score and features agree

A search adds up scores while it visits the vertices, and features while it walks down from the root.
In exact arithmetic the two agree: the score is the scalar product of the features with the
weights, and the weighted BLEU of all places where the derivation uses an edge
(`Forest.best_consistent`).

A vertex that is used several times counts several times on both sides, as the score of a vertex goes
into that of each edge with a gap for it, and the walk goes through the vertex for each such gap.
The proof is along the derivation, which has all these places.
-/
import Mathlib
import ForestRescoring.Proofs.FeatureVector.Linear
import ForestRescoring.Proofs.Search.Offences

namespace ForestRescoring

variable {K : Type} [Scalar K] {f : Forest K} {o : Objective K} {weights : FeatureVector K}

/-! ## 1. The features of a derivation -/

section Features

variable [Scalar.Exact K]

/-- What the scores of a target side are added to is one more term. -/
theorem Target.addScores_eq (score : K) (target : Target K) :
    target.addScores weights score = score + target.addScores weights Scalar.zero := by
  match target with
  | .done => exact (Scalar.Exact.add_zero score).symm
  | .word w rest => exact rest.addScores_eq score
  | .part inner rest =>
    rw [Target.addScores, Target.addScores, rest.addScores_eq (score + _),
      rest.addScores_eq (Scalar.zero + _), Scalar.zero_add, Scalar.Exact.add_assoc]

mutual

/-- **The features of a derivation have its score**, whatever they are added to. -/
theorem Derivation.addFeatures_dot (v : FeatureVector K) (d : Derivation K) :
    (d.addFeatures v).dot weights = v.dot weights + d.modelScore weights := by
  match d with
  | .leaf => exact (Scalar.Exact.add_zero _).symm
  | .node id features target =>
    rw [Derivation.addFeatures, target.addFeatures_dot, FeatureVector.add_dot,
      Derivation.modelScore, target.addScores_eq (features.dot weights), Scalar.Exact.add_assoc]

theorem Target.addFeatures_dot (v : FeatureVector K) (target : Target K) :
    (target.addFeatures v).dot weights =
      v.dot weights + target.addScores weights Scalar.zero := by
  match target with
  | .done => exact (Scalar.Exact.add_zero _).symm
  | .word w rest => exact rest.addFeatures_dot v
  | .part inner rest =>
    rw [Target.addFeatures, rest.addFeatures_dot, inner.addFeatures_dot, Target.addScores,
      rest.addScores_eq (Scalar.zero + _), Scalar.zero_add, Scalar.Exact.add_assoc]

end

theorem Derivation.features_dot (d : Derivation K) :
    d.features.dot weights = d.modelScore weights := by
  rw [Derivation.features, d.addFeatures_dot, FeatureVector.empty_dot, Scalar.zero_add]

end Features

/-! ## 2. The places of a derivation -/

mutual

/-- The places of a derivation of a vertex: the vertices that are derived by an edge, with the edge,
as often as they are used. -/
def Forest.uses (f : Forest K) (v : VertexId) : Derivation K → List (VertexId × EdgeId)
  | .leaf => []
  | .node id _ target => (v, id) :: f.usesIn (((f.edge? id).map Edge.children).getD []) target

/-- The places of a target side, in whose gaps the given vertices are derived. -/
def Forest.usesIn (f : Forest K) (children : List VertexId) : Target K → List (VertexId × EdgeId)
  | .done => []
  | .word _ rest => f.usesIn children rest
  | .part inner rest =>
    match children with
    | [] => []
    | c :: children => f.uses c inner ++ f.usesIn children rest

end

/-- The BLEU that a scorer gives an edge at a vertex; there is none without a scorer. -/
def Forest.bleuAt (f : Forest K) (scorer : Option (Scorer K)) (place : VertexId × EdgeId) : K :=
  match scorer with
  | none => Scalar.zero
  | some s =>
    ((f.vertex? place.1).bind fun x => (f.edge? place.2).bind fun e =>
      (s.score e x.sourceCovered).toOption.map Prod.fst).getD Scalar.zero

/-- The BLEU of all places of a derivation. -/
def Forest.bleuOf (f : Forest K) (scorer : Option (Scorer K)) (v : VertexId) (d : Derivation K) :
    K :=
  Scalar.sum ((f.uses v d).map (f.bleuAt scorer))

variable {a : Assignment} {scorer : Option (Scorer K)} {σ : VertexId → K}

section

omit [Scalar K]

mutual

/-- **The places of a derivation that follows an assignment are those of the assignment.** -/
theorem Forest.Unfolds.of_mem_uses (ha : f.Assigns a) {v : VertexId} {d : Derivation K}
    (hv : v < f.vertices.size) (h : f.Unfolds a v d) :
    ∀ p ∈ f.uses v d, p.1 < f.vertices.size ∧ a p.1 = some p.2 := by
  cases h with
  | leaf hnone => exact List.forall_mem_nil _
  | @node _ id e target hedge he ht =>
    obtain ⟨-, e', he', hchildren⟩ := ha.edge v _ _ (Array.getElem?_eq_getElem hv) hedge
    cases he.symm.trans he'
    have hplaces := ht.of_mem_usesIn ha
      (Edge.forall_gap_iff.mpr fun c hc => (hchildren c hc).trans hv)
    rw [Edge.filterMap_child?_slots] at hplaces
    rw [Forest.uses, he]
    exact List.forall_mem_cons.mpr ⟨⟨hv, hedge⟩, hplaces⟩

theorem Forest.UnfoldsSlots.of_mem_usesIn (ha : f.Assigns a) {slots : List Slot}
    {target : Target K} (hv : ∀ c ∈ slots.filterMap Slot.child?, c < f.vertices.size)
    (h : f.UnfoldsSlots a slots target) :
    ∀ p ∈ f.usesIn (slots.filterMap Slot.child?) target,
      p.1 < f.vertices.size ∧ a p.1 = some p.2 := by
  cases h with
  | done => exact List.forall_mem_nil _
  | @word w slots rest h =>
    have hrest : ∀ c ∈ slots.filterMap Slot.child?, c < f.vertices.size := hv
    have hplaces := h.of_mem_usesIn ha hrest
    exact hplaces
  | @part c inner slots rest hd h =>
    exact List.forall_mem_append.mpr ⟨hd.of_mem_uses ha (hv c List.mem_cons_self),
      h.of_mem_usesIn ha fun b hb => hv b (List.mem_cons_of_mem c hb)⟩

end

end

/-- Where an edge is rated, a scorer has given it its BLEU. -/
theorem Search.Rates.bleuAt_eq {v : VertexId} {x : Vertex} {id : EdgeId} {e : Edge K} {score : K}
    {statistics : Statistics} {s : Scorer K} (hx : f.vertex? v = some x) (he : f.edge? id = some e)
    (h : Search.Rates o (some s) σ x.sourceCovered e score statistics) :
    s.score e x.sourceCovered = .ok (f.bleuAt (some s) (v, id), statistics) := by
  obtain ⟨bleu, hbleu, -⟩ := h
  have hat : f.bleuAt (some s) (v, id) = bleu := by
    rw [Forest.bleuAt, hx, Option.bind_some, he, Option.bind_some, hbleu]
    rfl
  rw [hat, hbleu]

/-! ## 3. The score of a derivation -/

variable [Scalar.Exact K]

theorem Search.Rates.score_eq {v : VertexId} {x : Vertex} {id : EdgeId} {e : Edge K} {score : K}
    {statistics : Statistics} (hx : f.vertex? v = some x) (he : f.edge? id = some e)
    (h : Search.Rates o scorer σ x.sourceCovered e score statistics) :
    score = Search.edgeScore o.weights σ e + o.bleuWeight * f.bleuAt scorer (v, id) := by
  cases scorer with
  | none =>
    rw [h.1, Forest.bleuAt, Scalar.Exact.mul_zero, Scalar.Exact.add_zero]
  | some s =>
    have hat := h.bleuAt_eq hx he
    obtain ⟨bleu, hbleu, rfl⟩ := h
    cases hbleu.symm.trans hat
    rfl

mutual

/-- **The score that belongs to an assignment** is that of the derivation under the model, and the
weighted BLEU of all its places. -/
theorem Forest.Unfolds.score_eq (ha : f.Assigns a) (hσ : f.Scored o a scorer σ) {v : VertexId}
    {d : Derivation K} (hv : v < f.vertices.size) (h : f.Unfolds a v d) :
    σ v = d.modelScore o.weights + o.bleuWeight * f.bleuOf scorer v d := by
  have hx : f.vertex? v = some f.vertices[v] := Array.getElem?_eq_getElem hv
  have hscored := hσ v _ hx
  cases h with
  | leaf hnone =>
    rw [hnone] at hscored
    rw [hscored, Derivation.modelScore, Forest.bleuOf, Forest.uses, List.map_nil, Scalar.sum_nil,
      Scalar.Exact.emptySum_eq, Scalar.Exact.mul_zero, Scalar.Exact.add_zero]
  | @node _ id e target hedge he ht =>
    obtain ⟨-, e', he', hchildren⟩ := ha.edge v _ _ hx hedge
    cases he.symm.trans he'
    rw [hedge] at hscored
    obtain ⟨e', statistics, he', hrates⟩ := hscored
    cases he.symm.trans he'
    have hslots := ht.foldl_eq ha hσ
      (Edge.forall_gap_iff.mpr fun c hc => (hchildren c hc).trans hv) (e.score o.weights)
    rw [Edge.filterMap_child?_slots] at hslots
    rw [hrates.score_eq hx he, Search.edgeScore, hslots, Derivation.modelScore,
      Forest.bleuOf, Forest.uses, he, List.map_cons, Scalar.sum_cons, Scalar.Exact.mul_add,
      Scalar.Exact.add_assoc, Scalar.Exact.add_comm (o.bleuWeight * f.bleuAt scorer (v, id))]
    rfl

theorem Forest.UnfoldsSlots.foldl_eq (ha : f.Assigns a) (hσ : f.Scored o a scorer σ)
    {slots : List Slot} {target : Target K}
    (hv : ∀ c ∈ slots.filterMap Slot.child?, c < f.vertices.size)
    (h : f.UnfoldsSlots a slots target) (score : K) :
    (slots.filterMap Slot.child?).foldl (fun x c => x + σ c) score =
      target.addScores o.weights score + o.bleuWeight *
        Scalar.sum ((f.usesIn (slots.filterMap Slot.child?) target).map (f.bleuAt scorer)) := by
  cases h with
  | done =>
    rw [Forest.usesIn, List.map_nil, Scalar.sum_nil, Scalar.Exact.emptySum_eq,
      Scalar.Exact.mul_zero, Scalar.Exact.add_zero]
    rfl
  | @word w slots rest h =>
    have hrest : ∀ c ∈ slots.filterMap Slot.child?, c < f.vertices.size := hv
    exact h.foldl_eq ha hσ hrest score
  | @part c inner slots rest hd h =>
    have hinner := hd.score_eq ha hσ (hv c List.mem_cons_self)
    have hrest := h.foldl_eq ha hσ (fun b hb => hv b (List.mem_cons_of_mem c hb)) (score + σ c)
    calc (c :: slots.filterMap Slot.child?).foldl (fun x c => x + σ c) score
        = rest.addScores o.weights (score + σ c) + o.bleuWeight * Scalar.sum
            ((f.usesIn (slots.filterMap Slot.child?) rest).map (f.bleuAt scorer)) := hrest
      _ = rest.addScores o.weights (score + inner.modelScore o.weights) + o.bleuWeight *
            (f.bleuOf scorer c inner + Scalar.sum
              ((f.usesIn (slots.filterMap Slot.child?) rest).map (f.bleuAt scorer))) := by
          rw [hinner, rest.addScores_eq, rest.addScores_eq (score + inner.modelScore o.weights),
            Scalar.Exact.mul_add]
          ac_rfl
      _ = _ := by
          rw [Forest.bleuOf, ← Scalar.sum_append, ← List.map_append]
          rfl

end

/-! ## 4. The main result -/

variable {references : SentenceReferences} {h : Decoding K}

/-- **Score and features agree**, in exact arithmetic.  A search returns the score that is the scalar
product of the returned features with the weights, and the weighted sum of the BLEU at all places of
the returned derivation.  Each place is a vertex with the edge that won there, and its BLEU is what
the scorer gives the edge at the vertex; the sum is zero if the BLEU term has no weight. -/
theorem Forest.best_consistent (hb : f.best o references = .ok h) :
    ∃ (root : VertexId) (s : Search.Sweep f) (d : Derivation K), f.root? = some root ∧
      Search.sweep o references f = .ok s ∧ f.ScorerFor o references s.table.chosen s.scorer ∧
      f.Unfolds s.table.chosen root d ∧ h.text = d.yield ∧ h.features = d.features ∧
      (∀ p ∈ f.uses root d, s.table.chosen p.1 = some p.2 ∧
        ∀ scorer, s.scorer = some scorer → ∃ x e statistics, f.vertex? p.1 = some x ∧
          f.edge? p.2 = some e ∧
            scorer.score e x.sourceCovered = .ok (f.bleuAt s.scorer p, statistics)) ∧
      (Scalar.isZero o.bleuWeight = true → f.bleuOf s.scorer root d = Scalar.zero) ∧
      h.score = h.features.dot o.weights + o.bleuWeight * f.bleuOf s.scorer root d := by
  obtain ⟨root, s, hroot, hs⟩ := Forest.of_best_eq_ok hb
  obtain ⟨d, hd, hbest⟩ := Forest.best_eq_of_sweep hroot hs
  obtain ⟨hw, hsize⟩ := Search.swept_of_sweep_eq_ok hs
  have ha := hw.assigns hsize
  have hscorer := hw.scorerFor hsize
  have hlt := Forest.lt_of_root?_eq hroot
  cases hbest.symm.trans hb
  refine ⟨root, s, d, hroot, hs, hscorer, hd, rfl, rfl, fun p hp => ?_, fun hzero => ?_, ?_⟩
  · obtain ⟨hplt, hchosen⟩ := hd.of_mem_uses ha hlt p hp
    refine ⟨hchosen, fun scorer hsome => ?_⟩
    have hx : f.vertex? p.1 = some f.vertices[p.1] := Array.getElem?_eq_getElem hplt
    have hscored := hw.scored hsize p.1 _ hx
    rw [hchosen, hsome] at hscored
    obtain ⟨e, statistics, he, hrates⟩ := hscored
    rw [hsome]
    exact ⟨_, e, statistics, hx, he, hrates.bleuAt_eq hx he⟩
  · rw [Forest.ScorerFor, if_pos hzero] at hscorer
    rw [hscorer]
    exact Scalar.sum_map_zero fun p _ => rfl
  · rw [hd.score_eq ha (hw.scored hsize) hlt, d.features_dot]

namespace Sample

/-- A phrase of one word, and a sentence that uses it twice. -/
noncomputable def repeated : Forest ExactReal :=
  ⟨2, 2, #[⟨[0], 1⟩, ⟨[1], 2⟩],
    #[.ofSlots [.word ⟨2⟩] (FeatureVector.empty.set "model" (Scalar.ofNat 3)),
      .ofSlots [.gap 0, .word ⟨3⟩, .gap 0] (FeatureVector.empty.set "model" (Scalar.ofNat 5))]⟩

/-- The model, with as much weight on BLEU. -/
noncomputable def balanced : Objective ExactReal :=
  ⟨FeatureVector.empty.set "model" (Scalar.ofNat 1), Scalar.ofNat 1, Scalar.zero⟩

theorem offences_repeated : repeated.offences = [] := rfl

/-- The phrase has one word, and the sentence three. -/
theorem not_overlong_repeated : ¬ repeated.Overlong := by
  have hbounds : repeated.Bounds fun v => if v = 0 then 1 else 3 := by
    intro v x hv id hid e he
    match v with
    | 0 =>
      cases hv
      cases List.mem_singleton.mp hid
      cases he
      exact Nat.le_refl 1
    | 1 =>
      cases hv
      cases List.mem_singleton.mp hid
      cases he
      exact Nat.le_refl 3
    | v + 2 => cases hv
  refine hbounds.not_overlong fun v => ?_
  split
  · decide
  · decide

/-- The phrase is derived in one way, and stands twice in the sentence. -/
theorem uses_repeated {a : Assignment} (ha : repeated.Assigns a) {d : Derivation ExactReal}
    (hd : repeated.Unfolds a 1 d) : repeated.uses 1 d = [(1, 1), (0, 0), (0, 0)] := by
  have hphrase : ∀ {inner : Derivation ExactReal}, repeated.Unfolds a 0 inner →
      repeated.uses 0 inner = [(0, 0)] := by
    intro inner h
    cases h with
    | leaf hnone => cases (ha.eq_none_iff 0 _ rfl).mp hnone
    | node hid he ht =>
      obtain rfl := List.mem_singleton.mp (ha.edge 0 _ _ rfl hid).1
      cases he
      have hslots : repeated.UnfoldsSlots a [.word ⟨2⟩] _ := ht
      cases hslots with
      | word hdone =>
        cases hdone
        rfl
  cases hd with
  | leaf hnone => cases (ha.eq_none_iff 1 _ rfl).mp hnone
  | node hid he ht =>
    obtain rfl := List.mem_singleton.mp (ha.edge 1 _ _ rfl hid).1
    cases he
    have hslots : repeated.UnfoldsSlots a [.gap 0, .word ⟨3⟩, .gap 0] _ := ht
    cases hslots with
    | part hfirst hslots =>
      cases hslots with
      | word hslots =>
        cases hslots with
        | part hsecond hdone =>
          cases hdone
          exact congrArg ((1, 1) :: ·) (congrArg₂ (· ++ ·) (hphrase hfirst)
            (congrArg₂ (· ++ ·) (hphrase hsecond) rfl))

end Sample

/-- A search over the real numbers, whose phrase is used twice and counts twice. -/
theorem Forest.best_consistent_repeated :
    ∃ h s, Sample.repeated.best Sample.balanced (Scorer.Sample.corpus.sentence 0) = .ok h ∧
      Search.sweep Sample.balanced (Scorer.Sample.corpus.sentence 0) Sample.repeated = .ok s ∧
      h.score = h.features.dot Sample.balanced.weights + Sample.balanced.bleuWeight *
        Scalar.sum ([(1, 1), (0, 0), (0, 0)].map (Sample.repeated.bleuAt s.scorer)) := by
  have hok : failure? (Sample.repeated.best Sample.balanced (Scorer.Sample.corpus.sentence 0)) =
      none := by
    have hfails := (Forest.failsFor_best Sample.repeated Sample.balanced
      (Scorer.Sample.corpus.sentence 0)).resolve_right
        fun h => Sample.not_overlong_repeated h.1.2
    rw [hfails, if_neg (fun h => nomatch h), Sample.offences_repeated]
    rfl
  obtain ⟨h, hb⟩ := failure?_eq_none_iff.mp hok
  obtain ⟨root, s, d, hroot, hs, -, hd, -, -, -, -, hscore⟩ := Forest.best_consistent hb
  obtain rfl : root = 1 := (Option.some.inj hroot).symm
  obtain ⟨hw, hsize⟩ := Search.swept_of_sweep_eq_ok hs
  rw [Forest.bleuOf, Sample.uses_repeated (hw.assigns hsize) hd] at hscore
  exact ⟨h, s, hb, hs, hscore⟩

end ForestRescoring
