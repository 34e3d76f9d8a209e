/-
# Only what the root can reach matters

A search visits all vertices of a forest, also those that no derivation of the root uses, and writes
what it finds into one table and one scorer.  Nothing of that shows in its result.

Two forests are compared that have as many vertices and say the same of each vertex that can be reached
from the root (`Forest.SameReachable`): the same part of the source, and the same edges in the same
order, though perhaps under other numbers.  Of the other vertices nothing is assumed, but that both
searches have a result.

The finished tables then have an edge of the same content and the same score for each vertex that can
be reached, and the finished scorers the same summary (`Search.SameAt`).  This goes from the children
of a vertex to the vertex (`Search.sameAt_of_children`): its edges are rated by what the children have,
and the winners go together where the ratings do.  Text and features come from the derivations that
follow the tables, and these differ in the numbers of edges only (`Forest.Unfolds.sameAt`).

Main statement: `Forest.best_eq_of_sameReachable`.
-/
import Mathlib
import ForestRescoring.Proofs.Search.Chosen
import ForestRescoring.Proofs.Search.Offences

namespace ForestRescoring

/-! ## 1. What can be reached -/

section Reach

variable {K : Type} {f g : Forest K}

/-- The vertices that the root can use: the root, and the children of any edge of such a vertex. -/
inductive Forest.Reachable (f : Forest K) : VertexId → Prop where
  | root {v : VertexId} (h : f.root? = some v) : f.Reachable v
  | child {v c : VertexId} {x : Vertex} {id : EdgeId} {e : Edge K} (hv : f.Reachable v)
      (hx : f.vertex? v = some x) (hid : id ∈ x.incoming) (he : f.edge? id = some e)
      (hc : c ∈ e.children) : f.Reachable c

/-- What a forest says of a vertex: how much of the source it covers, and its edges in order, by their
content rather than by number. -/
def Forest.content? (f : Forest K) (v : VertexId) : Option (ℕ × List (Option (Edge K))) :=
  (f.vertex? v).map fun x => (x.sourceCovered, x.incoming.map f.edge?)

/-- Two forests of one size that say the same of every vertex that the root of the first can use. -/
structure Forest.SameReachable (f g : Forest K) : Prop where
  size : g.vertices.size = f.vertices.size
  content : ∀ v, f.Reachable v → g.content? v = f.content? v

/-- Vertices of the same content cover as much, and their edges go together. -/
theorem Forest.of_content?_eq {v : VertexId} {x : Vertex} (h : g.content? v = f.content? v)
    (hx : f.vertex? v = some x) :
    ∃ y, g.vertex? v = some y ∧ y.sourceCovered = x.sourceCovered ∧
      List.Forall₂ (fun id id' => g.edge? id' = f.edge? id) x.incoming y.incoming := by
  rw [content?, content?, hx, Option.map_some, Option.map_eq_some_iff] at h
  obtain ⟨y, hy, hsame⟩ := h
  obtain ⟨hcovered, hedges⟩ := Prod.ext_iff.mp hsame
  refine ⟨y, hy, hcovered, ?_⟩
  have hall : List.Forall₂ (· = ·) (y.incoming.map g.edge?) (x.incoming.map f.edge?) :=
    List.forall₂_eq_eq_eq.symm ▸ hedges
  rw [List.forall₂_map_left_iff, List.forall₂_map_right_iff] at hall
  exact hall.flip

theorem Forest.SameReachable.root?_eq (h : f.SameReachable g) : g.root? = f.root? := by
  rw [root?, root?, h.size]

/-- The roots cover the same source. -/
theorem Forest.SameReachable.sourceLength_eq (h : f.SameReachable g) :
    g.sourceLength = f.sourceLength := by
  have hback : ∀ f : Forest K, f.sourceLength =
      ((f.vertex? (f.vertices.size - 1)).map Vertex.sourceCovered).getD 0 := fun f => by
    rw [sourceLength, Array.back?_eq_getElem?, vertex?]
  rw [hback f, hback g, h.size]
  by_cases hempty : f.vertices.size = 0
  · have hf : f.vertex? (f.vertices.size - 1) = none := by simp [vertex?, hempty]
    have hg : g.vertex? (f.vertices.size - 1) = none := by simp [vertex?, h.size, hempty]
    rw [hf, hg]
  · have hroot : f.root? = some (f.vertices.size - 1) := by rw [root?, if_neg hempty]
    have hlt := Nat.sub_lt (Nat.pos_of_ne_zero hempty) Nat.one_pos
    have hx : f.vertex? (f.vertices.size - 1) = some f.vertices[f.vertices.size - 1] :=
      Array.getElem?_eq_getElem hlt
    obtain ⟨y, hy, hcovered, -⟩ := of_content?_eq (h.content _ (.root hroot)) hx
    rw [hx, hy, Option.map_some, Option.map_some, hcovered]

end Reach

variable {K : Type} [Scalar K] {f g : Forest K}

/-! ## 2. One outcome -/

/-- A leaf has the empty summary, also behind later vertices. -/
theorem Forest.FixedBy.summary_of_leaf {a : Assignment} {start s : Scorer K} {n : ℕ}
    (h : f.FixedBy a start n s) {v : VertexId} (hv : v < n) (hnone : a v = none) :
    s.summary v = .ok .empty := by
  induction h with
  | start => exact absurd hv (Nat.not_lt_zero v)
  | @leaf u s t hs hu ht ih =>
    rw [Scorer.summary_fix ht]
    split
    · rfl
    · next hne => exact ih (Nat.lt_of_le_of_ne (Nat.le_of_lt_succ hv) hne)
  | @edge u x id e s t bleu statistics hs hx hu he hscore ht ih =>
    have hne : v ≠ u := by
      rintro rfl
      rw [hnone] at hu
      cases hu
    obtain ⟨left, right, length, -, -, -, hfix⟩ := Scorer.fixEdge_eq_ok_iff.mp ht
    rw [Scorer.summary_fix hfix, if_neg hne]
    exact ih (Nat.lt_of_le_of_ne (Nat.le_of_lt_succ hv) hne)

/-- An edge makes one summary. -/
theorem Scorer.Summarizes.eq {s : Scorer K} {e : Edge K} {covered : ℕ} {found found' : Summary}
    (h : s.Summarizes e covered found) (h' : s.Summarizes e covered found') : found' = found := by
  obtain ⟨left, right, statistics, length⟩ := found
  obtain ⟨left', right', statistics', length'⟩ := found'
  obtain ⟨bleu, hbleu⟩ := h.statistics
  obtain ⟨bleu', hbleu'⟩ := h'.statistics
  cases h.left.symm.trans h'.left
  cases h.right.symm.trans h'.right
  cases h.length.symm.trans h'.length
  cases hbleu.symm.trans hbleu'
  rfl

/-- An edge has one rating. -/
theorem Search.Rates.eq {o : Objective K} {scorer : Option (Scorer K)} {σ : VertexId → K}
    {covered : ℕ} {e : Edge K} {score score' : K} {statistics statistics' : Statistics}
    (h : Rates o scorer σ covered e score statistics)
    (h' : Rates o scorer σ covered e score' statistics') :
    score' = score ∧ statistics' = statistics := by
  cases scorer with
  | none =>
    obtain ⟨rfl, rfl⟩ := h
    exact h'
  | some scorer =>
    obtain ⟨bleu, hbleu, rfl⟩ := h
    obtain ⟨bleu', hbleu', rfl⟩ := h'
    cases hbleu.symm.trans hbleu'
    exact ⟨rfl, rfl⟩

/-! ## 3. The same at a vertex -/

namespace Search

variable {o : Objective K} {references : SentenceReferences} {s : Sweep f} {t : Sweep g}
  {v : VertexId} {x y : Vertex}

/-- Two sweeps have the same for a vertex: the content of its edge, its score, and its summary if there
are scorers. -/
structure SameAt (s : Sweep f) (t : Sweep g) (v : VertexId) : Prop where
  edge : (t.table.chosen v).map g.edge? = (s.table.chosen v).map f.edge?
  score : t.table.score v = s.table.score v
  summary : ∀ a b, s.scorer = some a → t.scorer = some b → b.summary v = a.summary v

/-- Scorers that measure the same have the same summaries where the sweeps have the same. -/
theorem agreeOn_of_sameAt {vertices : List VertexId}
    (hframe : Option.Rel (Scorer.AgreeOn []) s.scorer t.scorer)
    (h : ∀ c ∈ vertices, SameAt s t c) :
    Option.Rel (Scorer.AgreeOn vertices) s.scorer t.scorer := by
  generalize ha : s.scorer = a at hframe
  generalize hb : t.scorer = b at hframe
  cases hframe with
  | none => exact .none
  | some hab =>
    exact .some ⟨hab.references, hab.sourceLength, hab.smoothing,
      fun c hc => (h c hc).summary _ _ ha hb⟩

/-- **Edges of the same content are rated the same**, if the sweeps have the same for the children. -/
theorem rate_eq_of_sameAt (hframe : Option.Rel (Scorer.AgreeOn []) s.scorer t.scorer)
    (hcovered : y.sourceCovered = x.sourceCovered) {id id' : EdgeId} {r r' : Rating K}
    (hids : g.edge? id' = f.edge? id)
    (hchildren : ∀ e, f.edge? id = some e → ∀ c ∈ e.children, SameAt s t c)
    (hr : rate o s x id = some r) (hr' : rate o t y id' = some r') :
    r'.edge = r.edge ∧ r'.score = r.score ∧ r'.statistics = r.statistics := by
  obtain ⟨-, he, hrates⟩ := rate_eq_some_iff.mp hr
  obtain ⟨-, he', hrates'⟩ := rate_eq_some_iff.mp hr'
  have hedge : r'.edge = r.edge := Option.some.inj (he'.symm.trans (hids.trans he))
  have hsame := hchildren _ he
  rw [hedge, hcovered] at hrates'
  exact ⟨hedge, (hrates.congr (fun c hc => (hsame c hc).score)
    (agreeOn_of_sameAt hframe hsame)).eq hrates'⟩

/-- The ratings of two vertices of the same content go together. -/
theorem ratings_rel_of_sameAt (hframe : Option.Rel (Scorer.AgreeOn []) s.scorer t.scorer)
    (hcovered : y.sourceCovered = x.sourceCovered)
    (hids : List.Forall₂ (fun id id' => g.edge? id' = f.edge? id) x.incoming y.incoming)
    (hchildren : ∀ id ∈ x.incoming, ∀ e, f.edge? id = some e → ∀ c ∈ e.children, SameAt s t c)
    {rs rs' : List (Rating K)}
    (hrs : List.Forall₂ (fun id r => rate o s x id = some r) x.incoming rs)
    (hrs' : List.Forall₂ (fun id r => rate o t y id = some r) y.incoming rs') :
    List.Forall₂ (fun r r' => r'.edge = r.edge ∧ r'.score = r.score ∧
      r'.statistics = r.statistics) rs rs' := by
  have hrated := (List.forall₂_and_left _ _).mpr ⟨hchildren, hrs⟩
  have hothers : List.Forall₂ (fun id' r => ∀ r', rate o t y id' = some r' →
      r'.edge = r.edge ∧ r'.score = r.score ∧ r'.statistics = r.statistics) y.incoming rs :=
    forall₂_of_forall₂ hids hrated fun id id' r hid hr r' hr' =>
      rate_eq_of_sameAt hframe hcovered hid hr.1 hr.2 hr'
  exact forall₂_of_forall₂ hothers hrs' fun id' r r' hr hr' => hr r' hr'

section Vertices

variable (hs : Swept o references s) (hsize : s.table.size = f.vertices.size)
  (ht : Swept o references t) (tsize : t.table.size = g.vertices.size)
  (hx : f.vertex? v = some x) (hy : g.vertex? v = some y)

include hs hsize ht tsize hx hy

theorem sameAt_of_leaf (hleaf : x.incoming = []) (hleaf' : y.incoming = []) : SameAt s t v := by
  have hnone := ((hs.assigns hsize).eq_none_iff v x hx).mpr hleaf
  have hnone' := ((ht.assigns tsize).eq_none_iff v y hy).mpr hleaf'
  have hscore := ((hs.settled_vertex hsize hx).leaf hnone).2
  have hscore' := ((ht.settled_vertex tsize hy).leaf hnone').2
  have hfix := hs.scorerFor hsize
  have hfix' := ht.scorerFor tsize
  refine ⟨by rw [hnone, hnone']; rfl, hscore'.trans hscore.symm, fun a b ha hb => ?_⟩
  rw [ha] at hfix
  rw [hb] at hfix'
  rw [hfix.fixedBy.summary_of_leaf (Array.getElem?_eq_some_iff.mp hx).1 hnone,
    hfix'.fixedBy.summary_of_leaf (Array.getElem?_eq_some_iff.mp hy).1 hnone']

/-- Vertices that have edges of the same content have the same summary, if its children do. -/
theorem sameAt_of_edge (hcovered : y.sourceCovered = x.sourceCovered) {id id' : EdgeId} {e : Edge K}
    (hchosen : s.table.chosen v = some id) (he : f.edge? id = some e)
    (hchosen' : t.table.chosen v = some id') (he' : g.edge? id' = some e)
    (hscore : t.table.score v = s.table.score v)
    (hagree : Option.Rel (Scorer.AgreeOn e.children) s.scorer t.scorer) : SameAt s t v := by
  have hfix := hs.scorerFor hsize
  have hfix' := ht.scorerFor tsize
  refine ⟨?_, hscore, fun a b ha hb => ?_⟩
  · rw [hchosen, hchosen', Option.map_some, Option.map_some, he, he']
  · rw [ha, hb] at hagree
    rw [ha] at hfix
    rw [hb] at hfix'
    obtain ⟨found, hfound, hmade⟩ := hfix.fixedBy.summarizes (hs.assigns hsize)
      (Array.getElem?_eq_some_iff.mp hx).1 hx hchosen he
    obtain ⟨found', hfound', hmade'⟩ := hfix'.fixedBy.summarizes (ht.assigns tsize)
      (Array.getElem?_eq_some_iff.mp hy).1 hy hchosen' he'
    cases hagree with
    | some hagree =>
      rw [hcovered] at hmade'
      rw [hfound, hfound', (hmade.congr hagree).eq hmade']

/-- **From the children to the vertex.**  Of two vertices of the same content the sweeps have the same,
if they do for all children of its edges. -/
theorem sameAt_of_children (hframe : Option.Rel (Scorer.AgreeOn []) s.scorer t.scorer)
    (hcovered : y.sourceCovered = x.sourceCovered)
    (hids : List.Forall₂ (fun id id' => g.edge? id' = f.edge? id) x.incoming y.incoming)
    (hchildren : ∀ id ∈ x.incoming, ∀ e, f.edge? id = some e → ∀ c ∈ e.children, SameAt s t c) :
    SameAt s t v := by
  by_cases hleaf : x.incoming = []
  · rw [hleaf] at hids
    exact sameAt_of_leaf hs hsize ht tsize hx hy hleaf (List.forall₂_nil_left_iff.mp hids)
  · have hleaf' : y.incoming ≠ [] := by
      intro hnil
      rw [hnil] at hids
      exact hleaf (List.forall₂_nil_right_iff.mp hids)
    obtain ⟨rs, won, hrs, hwon, hchosen, hscore⟩ :=
      (hs.settled_vertex hsize hx).exists_winner hleaf
    obtain ⟨rs', won', hrs', hwon', hchosen', hscore'⟩ :=
      (ht.settled_vertex tsize hy).exists_winner hleaf'
    have hwinner := winner_rel (fun r r' h => h.2.1)
      (ratings_rel_of_sameAt hframe hcovered hids hchildren hrs hrs')
    rw [hwon, hwon'] at hwinner
    cases hwinner with
    | some hsame =>
      obtain ⟨hedge, hscores, -⟩ := hsame
      obtain ⟨id, hid, hrate⟩ := exists_mem_of_forall₂ hrs (mem_of_winner_eq hwon)
      obtain ⟨id', -, hrate'⟩ := exists_mem_of_forall₂ hrs' (mem_of_winner_eq hwon')
      obtain ⟨rfl, he, -⟩ := rate_eq_some_iff.mp hrate
      obtain ⟨rfl, he', -⟩ := rate_eq_some_iff.mp hrate'
      rw [hedge] at he'
      exact sameAt_of_edge hs hsize ht tsize hx hy hcovered hchosen he hchosen' he'
        (hscore'.trans (hscores.trans hscore.symm)) (agreeOn_of_sameAt hframe (hchildren _ hid _ he))

end Vertices

/-! ## 4. All that can be reached -/

/-- Scorers of the two forests measure the same, whatever was fixed. -/
theorem agreeOn_nil_of_scorerFor (h : f.SameReachable g) {a b : Assignment}
    {p q : Option (Scorer K)} (hp : f.ScorerFor o references a p) (hq : g.ScorerFor o references b q) :
    Option.Rel (Scorer.AgreeOn []) p q := by
  rw [Forest.ScorerFor] at hp hq
  split at hp
  · next hzero =>
    rw [if_pos hzero] at hq
    rw [hp, hq]
    exact .none
  · next hzero =>
    rw [if_neg hzero] at hq
    obtain ⟨p, rfl, hfixed⟩ := hp
    obtain ⟨q, rfl, hfixed'⟩ := hq
    have hstart := hfixed.agreeOn_nil
    have hstart' := hfixed'.agreeOn_nil
    exact .some ⟨hstart'.references.trans hstart.references.symm,
      hstart'.sourceLength.trans (h.sourceLength_eq.trans hstart.sourceLength.symm),
      hstart'.smoothing.trans hstart.smoothing.symm, fun c hc => absurd hc List.not_mem_nil⟩

section Bounds

omit [Scalar K]

theorem lt_of_reachable (hup : f.BottomUp) (hv : f.Reachable v) : v < f.vertices.size := by
  induction hv with
  | root h => exact Forest.lt_of_root?_eq h
  | child _ hx hid he hc ih =>
    obtain ⟨e', he', hchildren⟩ := hup _ _ hx _ hid
    cases he.symm.trans he'
    exact (hchildren _ hc).trans ih

theorem exists_vertex_of_reachable (hup : f.BottomUp) (hv : f.Reachable v) :
    ∃ x, f.vertex? v = some x :=
  ⟨_, Array.getElem?_eq_getElem (lt_of_reachable hup hv)⟩

end Bounds

/-- **The sweeps have the same for all that can be reached.** -/
theorem sameAt_of_reachable (h : f.SameReachable g) (hup : f.BottomUp) (hs : Swept o references s)
    (hsize : s.table.size = f.vertices.size) (ht : Swept o references t)
    (tsize : t.table.size = g.vertices.size) (hv : f.Reachable v) : SameAt s t v := by
  induction v using Nat.strongRecOn with
  | ind v ih =>
    obtain ⟨x, hx⟩ := exists_vertex_of_reachable hup hv
    obtain ⟨y, hy, hcovered, hids⟩ := Forest.of_content?_eq (h.content v hv) hx
    have hframe := agreeOn_nil_of_scorerFor h (hs.scorerFor hsize) (ht.scorerFor tsize)
    refine sameAt_of_children hs hsize ht tsize hx hy hframe hcovered hids ?_
    intro id hid e he c hc
    obtain ⟨e', he', hchildren⟩ := hup v x hx id hid
    cases he.symm.trans he'
    exact ih c (hchildren c hc) (.child hv hx hid he hc)

end Search

/-! ## 5. Derivations -/

section Walks

open Search

variable {s : Sweep f} {t : Sweep g}

mutual

/-- **The derivations that follow the tables have one text and one set of features.**  Only the numbers
of their edges may differ. -/
theorem Forest.Unfolds.sameAt (ha : f.Assigns s.table.chosen) (hup : f.BottomUp)
    (hall : ∀ v, f.Reachable v → SameAt s t v) {v : VertexId} {d d' : Derivation K}
    (hv : f.Reachable v) (hd : f.Unfolds s.table.chosen v d) (hd' : g.Unfolds t.table.chosen v d') :
    d'.yield = d.yield ∧ ∀ w, d'.addFeatures w = d.addFeatures w := by
  have hedge := (hall v hv).edge
  cases hd with
  | leaf hnone =>
    cases hd' with
    | leaf hnone' => exact ⟨rfl, fun w => rfl⟩
    | node hsome' =>
      rw [hnone, hsome'] at hedge
      cases hedge
  | @node _ id e target hsome he ht =>
    cases hd' with
    | leaf hnone' =>
      rw [hsome, hnone'] at hedge
      cases hedge
    | @node _ id' e' target' hsome' he' ht' =>
      rw [hsome, hsome', Option.map_some, Option.map_some, he, he'] at hedge
      cases hedge
      obtain ⟨x, hx⟩ := exists_vertex_of_reachable hup hv
      have hchildren : ∀ c ∈ e.children, f.Reachable c :=
        fun c hc => .child hv hx (ha.edge v x id hx hsome).1 he hc
      obtain ⟨hyield, hfeatures⟩ := ht.sameAt ha hup hall (Edge.forall_gap_iff.mpr hchildren) ht'
      exact ⟨hyield, fun w => hfeatures (w.add e.features)⟩

theorem Forest.UnfoldsSlots.sameAt (ha : f.Assigns s.table.chosen) (hup : f.BottomUp)
    (hall : ∀ v, f.Reachable v → SameAt s t v) {slots : List Slot} {target target' : Target K}
    (hv : ∀ c ∈ slots.filterMap Slot.child?, f.Reachable c)
    (hd : f.UnfoldsSlots s.table.chosen slots target)
    (hd' : g.UnfoldsSlots t.table.chosen slots target') :
    target'.yield = target.yield ∧ ∀ w, target'.addFeatures w = target.addFeatures w := by
  cases hd with
  | done =>
    cases hd'
    exact ⟨rfl, fun w => rfl⟩
  | @word w slots rest hd =>
    cases hd' with
    | word hd' =>
      have hrest : ∀ c ∈ slots.filterMap Slot.child?, f.Reachable c := hv
      obtain ⟨hyield, hfeatures⟩ := hd.sameAt ha hup hall hrest hd'
      exact ⟨congrArg (w :: ·) hyield, hfeatures⟩
  | @part c inner slots rest hinner hd =>
    cases hd' with
    | part hinner' hd' =>
      obtain ⟨hyield, hfeatures⟩ := hinner.sameAt ha hup hall (hv c List.mem_cons_self) hinner'
      have hrest : ∀ b ∈ slots.filterMap Slot.child?, f.Reachable b :=
        fun b hb => hv b (List.mem_cons_of_mem c hb)
      obtain ⟨hyield', hfeatures'⟩ := hd.sameAt ha hup hall hrest hd'
      refine ⟨congrArg₂ (· ++ ·) hyield hyield', fun w => ?_⟩
      rw [Target.addFeatures, Target.addFeatures, hfeatures, hfeatures']

end

end Walks

/-! ## 6. The main result -/

/-- **What the root cannot reach does not matter.**  Two forests with as many vertices, which say the
same of every vertex that the root can reach, have the same result under every objective and against
all references, where both have one: text, score, features and statistics are equal. -/
theorem Forest.best_eq_of_sameReachable (h : f.SameReachable g) {o : Objective K}
    {references : SentenceReferences} {d d' : Decoding K} (hf : f.best o references = .ok d)
    (hg : g.best o references = .ok d') : d' = d := by
  obtain ⟨root, s, hroot, hs⟩ := Forest.of_best_eq_ok hf
  obtain ⟨root', t, hroot', ht⟩ := Forest.of_best_eq_ok hg
  obtain rfl : root' = root := Option.some.inj (hroot'.symm.trans (h.root?_eq.trans hroot))
  obtain ⟨hw, hsize⟩ := Search.swept_of_sweep_eq_ok hs
  obtain ⟨hw', hsize'⟩ := Search.swept_of_sweep_eq_ok ht
  have hup : f.BottomUp := Search.bottomUp_of_sweep_eq_ok hs
  have hall : ∀ v, f.Reachable v → Search.SameAt s t v :=
    fun v hv => Search.sameAt_of_reachable h hup hw hsize hw' hsize' hv
  obtain ⟨tree, htree, hbest⟩ := Forest.best_eq_of_sweep hroot hs
  obtain ⟨tree', htree', hbest'⟩ := Forest.best_eq_of_sweep hroot' ht
  cases hbest.symm.trans hf
  cases hbest'.symm.trans hg
  obtain ⟨hyield, hfeatures⟩ := htree.sameAt (hw.assigns hsize) hup hall (.root hroot) htree'
  rw [hyield, (hall _ (.root hroot)).score, Derivation.features, hfeatures, Derivation.features]

namespace Sample

/-- A phrase in a sentence, behind a vertex that nothing uses. -/
def crowded : Forest Float :=
  ⟨3, 3, #[⟨[0], 1⟩, ⟨[1], 1⟩, ⟨[2], 2⟩],
    #[scored [.word ⟨3⟩] 8.0, scored [.word ⟨2⟩] 1.5, scored [.word ⟨3⟩, .gap 1] 0.5]⟩

/-- The same sentence with its edges under other numbers, and a leaf in the place of the vertex that
nothing uses. -/
def cleared : Forest Float :=
  ⟨3, 3, #[⟨[], 7⟩, ⟨[1], 1⟩, ⟨[0], 2⟩],
    #[scored [.word ⟨3⟩, .gap 1] 0.5, scored [.word ⟨2⟩] 1.5]⟩

theorem reachable_crowded {v : VertexId} (h : crowded.Reachable v) : v = 1 ∨ v = 2 := by
  induction h with
  | root h => exact .inr (Option.some.inj h).symm
  | @child v c x id e hv hx hid he hc ih =>
    rcases ih with rfl | rfl
    · cases hx
      obtain rfl := List.mem_singleton.mp hid
      cases he
      cases hc
    · cases hx
      obtain rfl := List.mem_singleton.mp hid
      cases he
      exact .inl (List.mem_singleton.mp hc)

theorem sameReachable_crowded : crowded.SameReachable cleared where
  size := rfl
  content := by
    intro v hv
    rcases reachable_crowded hv with rfl | rfl
    · rfl
    · rfl

end Sample

/-- A vertex that nothing uses may be another one, and take its edge with it. -/
theorem Forest.best_eq_of_sameReachable_crowded :
    ∃ d, Sample.crowded.SameReachable Sample.cleared ∧
      Sample.crowded.vertex? 0 ≠ Sample.cleared.vertex? 0 ∧
      Sample.crowded.best Sample.guided (Scorer.Sample.corpus.sentence 0) = .ok d ∧
      Sample.cleared.best Sample.guided (Scorer.Sample.corpus.sentence 0) = .ok d ∧
      d.text = [⟨3⟩, ⟨2⟩] := by
  have hf : ((Sample.crowded.best Sample.guided (Scorer.Sample.corpus.sentence 0)).toOption.map
      Decoding.text) = some [⟨3⟩, ⟨2⟩] := by decide +kernel
  have hg : ((Sample.cleared.best Sample.guided (Scorer.Sample.corpus.sentence 0)).toOption.map
      Decoding.text) = some [⟨3⟩, ⟨2⟩] := by decide +kernel
  obtain ⟨d, hd, htext⟩ := toOption_map_eq_some_iff.mp hf
  obtain ⟨d', hd', -⟩ := toOption_map_eq_some_iff.mp hg
  obtain rfl := Forest.best_eq_of_sameReachable Sample.sameReachable_crowded hd hd'
  exact ⟨d', Sample.sameReachable_crowded, by decide, hd, hd', htext⟩

end ForestRescoring
