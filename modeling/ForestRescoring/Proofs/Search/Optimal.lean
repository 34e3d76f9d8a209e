/-
# The best derivation is the best

Without a BLEU term a search finds the best of all derivations of the root, also of those that
derive a vertex in different ways at different places (`Forest.best_optimal`).  The table keeps one
score for each vertex, and that is enough: whatever stands in a gap, putting the best derivation of
the gap's vertex in its place does not make the whole worse, since addition respects the order.

Addition may round, and two infinities may have no sum.  So the argument takes no sum apart and
compares sums only where all of them can be compared.  That all scores of derivations of the root can
be compared is enough for this: every derivation of a vertex that is used at all is a part of
one of the root.
-/
import Mathlib
import ForestRescoring.Proofs.Scalar.Addition
import ForestRescoring.Proofs.Search.BestDerivation

namespace ForestRescoring

variable {K : Type} [Scalar K] {f : Forest K} {o : Objective K}

/-! ## 1. Scores of derivations -/

theorem addScores_fillSlots (weights : FeatureVector K) (pick : VertexId → Derivation K)
    (slots : List Slot) (score : K) :
    (fillSlots pick slots).addScores weights score =
      (slots.filterMap Slot.child?).foldl (fun x c => x + (pick c).modelScore weights) score := by
  induction slots generalizing score with
  | nil => rfl
  | cons slot slots ih =>
    cases slot with
    | word w => exact ih score
    | gap c => exact ih (score + (pick c).modelScore weights)

variable {a : Assignment} {σ : VertexId → K}

mutual

/-- Without a BLEU term, the scores that belong to an assignment are those of the derivations. -/
theorem Forest.Unfolds.modelScore_eq (ha : f.Assigns a) (hσ : f.Scored o a none σ) {v : VertexId}
    {d : Derivation K} (hv : v < f.vertices.size) (h : f.Unfolds a v d) :
    d.modelScore o.weights = σ v := by
  have hx : f.vertex? v = some f.vertices[v] := Array.getElem?_eq_getElem hv
  have hscored := hσ v _ hx
  cases h with
  | leaf hnone =>
    rw [hnone] at hscored
    exact hscored.symm
  | node hedge he ht =>
    obtain ⟨-, e', he', hchildren⟩ := ha.edge v _ _ hx hedge
    rw [he] at he'
    cases he'
    rw [hedge] at hscored
    obtain ⟨e', statistics, he', hscore, -⟩ := hscored
    rw [he] at he'
    cases he'
    rw [hscore, Search.edgeScore, ← Edge.filterMap_child?_slots]
    exact ht.addScores_eq ha hσ (Edge.forall_gap_iff.mpr fun c hc => (hchildren c hc).trans hv) _

theorem Forest.UnfoldsSlots.addScores_eq (ha : f.Assigns a) (hσ : f.Scored o a none σ)
    {slots : List Slot} {target : Target K}
    (hv : ∀ c ∈ slots.filterMap Slot.child?, c < f.vertices.size)
    (h : f.UnfoldsSlots a slots target) (score : K) :
    target.addScores o.weights score =
      (slots.filterMap Slot.child?).foldl (fun x c => x + σ c) score := by
  cases h with
  | done => rfl
  | @word w slots rest h =>
    have hrest : ∀ c ∈ slots.filterMap Slot.child?, c < f.vertices.size := hv
    exact h.addScores_eq ha hσ hrest score
  | @part c inner slots rest hd h =>
    have hinner := hd.modelScore_eq ha hσ (hv c List.mem_cons_self)
    have hrest := h.addScores_eq ha hσ (fun b hb => hv b (List.mem_cons_of_mem c hb))
      (score + inner.modelScore o.weights)
    rw [hinner] at hrest
    rw [Target.addScores, hinner]
    exact hrest

end

/-! ## 2. Exchange -/

variable [Scalar.Ordered K]

/-- A target side has a score that can be compared only if what its scores are added to has. -/
theorem Target.comparable_of_addScores {weights : FeatureVector K} {score : K} (target : Target K)
    (h : Scalar.Comparable (target.addScores weights score)) : Scalar.Comparable score := by
  match target with
  | .done => exact h
  | .word w rest => exact rest.comparable_of_addScores h
  | .part inner rest =>
    have hsum := rest.comparable_of_addScores h
    exact (Scalar.Ordered.comparable_of_add hsum).1

/-- **The winner is at least as good as every alternative**, if all can be compared. -/
theorem Search.atLeast_of_winner_eq {α : Type} {score : α → K} {cs : List α} {c : α}
    (hall : ∀ b ∈ cs, Scalar.Comparable (score b)) (h : Search.winner score cs = some c) :
    ∀ b ∈ cs, Scalar.atLeast (score c) (score b) = true := by
  obtain ⟨-, -, -, hbest, -⟩ := Search.isLastBest_of_winner_eq hall h
  exact hbest

/-- **Better parts make a better whole.**  The derivations in the gaps are exchanged one by one, from
left to right, for scores that are at least theirs. -/
theorem Forest.Fills.atLeast_foldl {weights : FeatureVector K} {slots : List Slot}
    {target : Target K} {score score' : K} (ht : f.Fills slots target)
    (hσ : ∀ c ∈ slots.filterMap Slot.child?, ∀ d, f.Derives c d →
      Scalar.atLeast (σ c) (d.modelScore weights) = true)
    (hscore : Scalar.atLeast score' score = true)
    (htarget : Scalar.Comparable (target.addScores weights score))
    (hfold : Scalar.Comparable ((slots.filterMap Slot.child?).foldl (fun x c => x + σ c) score')) :
    Scalar.atLeast ((slots.filterMap Slot.child?).foldl (fun x c => x + σ c) score')
      (target.addScores weights score) = true := by
  induction slots generalizing target score score' with
  | nil =>
    cases ht
    exact hscore
  | cons slot slots ih =>
    cases slot with
    | word w =>
      cases ht with
      | word ht =>
        have hrest := ih ht hσ hscore htarget hfold
        exact hrest
    | gap c =>
      cases ht with
      | @part _ inner _ rest hd ht =>
        have hrest : ∀ b ∈ slots.filterMap Slot.child?, ∀ d, f.Derives b d →
            Scalar.atLeast (σ b) (d.modelScore weights) = true :=
          fun b hb => hσ b (List.mem_cons_of_mem c hb)
        have hinner := hσ c List.mem_cons_self inner hd
        have hsum : Scalar.Comparable (score + inner.modelScore weights) :=
          rest.comparable_of_addScores htarget
        have hfold' : Scalar.Comparable
            ((slots.filterMap Slot.child?).foldl (fun x c => x + σ c) (score' + σ c)) := hfold
        have hsum' : Scalar.Comparable (score' + σ c) := (Scalar.comparable_of_foldl_add hfold').1
        have hmono := Scalar.Ordered.add_mono hscore hinner hsum hsum'
        have hwhole := ih ht hrest hmono htarget hfold'
        exact hwhole

/-! ## 3. Optimal tables -/

/-- All scores of derivations of a vertex can be compared. -/
def Forest.Usable (f : Forest K) (weights : FeatureVector K) (v : VertexId) : Prop :=
  ∀ d, f.Derives v d → Scalar.Comparable (d.modelScore weights)

/-- The children of an edge of a usable vertex are usable: what derives one is a part of what derives
the vertex, however the other gaps are filled. -/
theorem Forest.Usable.child {weights : FeatureVector K} {v : VertexId} {x : Vertex} {id : EdgeId}
    {e : Edge K} (hu : f.Usable weights v) (hx : f.vertex? v = some x) (hid : id ∈ x.incoming)
    (he : f.edge? id = some e) (hderived : ∀ c ∈ e.children, ∃ d, f.Derives c d) {c : VertexId}
    (hc : c ∈ e.children) : f.Usable weights c := by
  intro d hd
  choose! pick hpick using hderived
  have hfill : ∀ b ∈ e.children, f.Derives b (Function.update pick c d b) := by
    intro b hb
    by_cases h : b = c
    · subst h
      rwa [Function.update_self]
    · rw [Function.update_of_ne h]
      exact hpick b hb
  have hwhole := hu _ (.node hx hid he (Forest.fills_fillSlots (Edge.forall_gap_iff.mpr hfill)))
  rw [Derivation.modelScore, addScores_fillSlots, Edge.filterMap_child?_slots] at hwhole
  have hpart := (Scalar.comparable_of_foldl_add hwhole).2 c hc
  rwa [Function.update_self] at hpart

namespace Search

variable {references : SentenceReferences} {s : Sweep f} (hw : Swept o references s)
  (hsize : s.table.size = f.vertices.size) (hnone : s.scorer = none)

include hw hsize hnone

omit [Scalar.Ordered K] in
/-- The score of a vertex in the table is that of one of its derivations. -/
theorem Swept.exists_derives {v : VertexId} (hv : v < f.vertices.size) :
    ∃ d, f.Derives v d ∧ d.modelScore o.weights = s.table.score v := by
  have ha := hw.assigns hsize
  have hσ := hw.scored hsize
  rw [hnone] at hσ
  obtain ⟨d, hd⟩ := ha.exists_unfolds hv
  exact ⟨d, hd.derives ha hv, hd.modelScore_eq ha hσ hv⟩

omit [Scalar.Ordered K] in
/-- What an edge offers to a usable vertex can be compared, since it is the score of the derivation
that takes the edge and then follows the table. -/
theorem Swept.comparable_offer {v : VertexId} {x : Vertex} {id : EdgeId} {score : K}
    (hu : f.Usable o.weights v) (hx : f.vertex? v = some x) (hid : id ∈ x.incoming)
    (hoffer : Offer o s v x id score) : Scalar.Comparable score := by
  obtain ⟨e, statistics, he, hchildren, hrates⟩ := hoffer
  rw [hnone] at hrates
  obtain ⟨rfl, -⟩ := hrates
  have hv : v < f.vertices.size := (Array.getElem?_eq_some_iff.mp hx).1
  have hderives : ∀ c ∈ e.children, ∃ d, f.Derives c d ∧ d.modelScore o.weights = s.table.score c :=
    fun c hc => hw.exists_derives hsize hnone ((hchildren c hc).trans hv)
  choose! pick hpick hscore using hderives
  have hwhole := hu _ (.node hx hid he (Forest.fills_fillSlots (Edge.forall_gap_iff.mpr hpick)))
  rw [Derivation.modelScore, addScores_fillSlots, Edge.filterMap_child?_slots] at hwhole
  have hfold : edgeScore o.weights s.table.score e =
      e.children.foldl (fun x c => x + (pick c).modelScore o.weights) (e.score o.weights) :=
    List.foldl_ext _ _ _ fun x c hc => by rw [hscore c hc]
  rw [hfold]
  exact hwhole

/-- **The score of a usable vertex is at least that of all its derivations.** -/
theorem Swept.atLeast_score {v : VertexId} (hu : f.Usable o.weights v) (d : Derivation K)
    (hd : f.Derives v d) : Scalar.atLeast (s.table.score v) (d.modelScore o.weights) = true := by
  induction v using Nat.strongRecOn generalizing d with
  | ind v ih =>
    cases hd with
    | leaf hx hleaf =>
      have hedge := ((hw.assigns hsize).eq_none_iff v _ hx).mpr hleaf
      have hzero := ((hw.settled_vertex hsize hx).leaf hedge).2
      have hcomp := hu _ (.leaf hx hleaf)
      rw [hzero]
      exact hcomp
    | @node _ x id e target hx hid he ht =>
      have hv : v < f.vertices.size := (Array.getElem?_eq_some_iff.mp hx).1
      rcases hw.settled_vertex hsize hx with
        ⟨hleaf, -⟩ | ⟨offers, won, hids, hoffers, hwon, -, hscore⟩
      · rw [hleaf] at hid
        cases hid
      · have hcomp : ∀ c ∈ offers, Scalar.Comparable c.2 := fun c hc =>
          hw.comparable_offer hsize hnone hu hx (hids ▸ List.mem_map_of_mem hc) (hoffers c hc)
        rw [← hids] at hid
        obtain ⟨offer, hoffer, rfl⟩ := List.mem_map.mp hid
        have hwins := atLeast_of_winner_eq hcomp hwon offer hoffer
        obtain ⟨e', statistics, he', hchildren, hrates⟩ := hoffers offer hoffer
        rw [he] at he'
        cases he'
        rw [hnone] at hrates
        obtain ⟨hedge, -⟩ := hrates
        have hderived : ∀ c ∈ e.children, ∃ d, f.Derives c d := fun c hc => by
          obtain ⟨d, hd, -⟩ := hw.exists_derives hsize hnone ((hchildren c hc).trans hv)
          exact ⟨d, hd⟩
        have hinner : ∀ c ∈ e.children, ∀ d, f.Derives c d →
            Scalar.atLeast (s.table.score c) (d.modelScore o.weights) = true := by
          intro c hc d hd
          exact ih c (hchildren c hc) (hu.child hx (hids ▸ hid) he hderived hc) d hd
        have hnode := hu _ (.node hx (hids ▸ hid) he ht)
        have hstart : Scalar.Comparable (e.score o.weights) := target.comparable_of_addScores hnode
        have hoffered := hcomp offer hoffer
        rw [hedge, edgeScore, ← Edge.filterMap_child?_slots] at hoffered hwins
        have hbetter := ht.atLeast_foldl (Edge.forall_gap_iff.mpr hinner) hstart hnode hoffered
        rw [hscore]
        exact Scalar.Ordered.trans hwins hbetter

end Search

/-! ## 4. The main result -/

/-- **Without a BLEU term a search finds the best derivation.**  If the scores of all derivations of
the root can be compared, the score that the search returns is at least each of them, and it is
that of the derivation with the text and the features that the search returns. -/
theorem Forest.best_optimal {references : SentenceReferences} {h : Decoding K}
    (hzero : Scalar.isZero o.bleuWeight = true) (hb : f.best o references = .ok h)
    (hu : ∀ root, f.root? = some root → ∀ d, f.Derives root d →
      Scalar.Comparable (d.modelScore o.weights)) :
    ∃ root, f.root? = some root ∧
      (∀ d, f.Derives root d → Scalar.atLeast h.score (d.modelScore o.weights) = true) ∧
      ∃ d, f.Derives root d ∧ h.score = d.modelScore o.weights ∧ h.text = d.yield ∧
        h.features = d.features := by
  obtain ⟨root, s, hroot, hs⟩ := Forest.of_best_eq_ok hb
  obtain ⟨d, hd, hbest⟩ := Forest.best_eq_of_sweep hroot hs
  obtain ⟨hw, hsize⟩ := Search.swept_of_sweep_eq_ok hs
  have hnone : s.scorer = none := by
    have hscores := hw.scores
    rw [Search.Scores, if_pos hzero] at hscores
    exact hscores
  have ha := hw.assigns hsize
  have hσ := hw.scored hsize
  rw [hnone] at hσ
  have hlt := Forest.lt_of_root?_eq hroot
  rw [hbest] at hb
  cases hb
  refine ⟨root, hroot, fun d' hd' => hw.atLeast_score hsize hnone (hu root hroot) d' hd', d,
    hd.derives ha hlt, (hd.modelScore_eq ha hσ hlt).symm, rfl, rfl⟩

namespace Sample

def scored (slots : List Slot) (score : Float) : Edge Float :=
  (Edge.ofSlots slots .empty).setFeature "model" score

/-- A phrase of one of two words, and a sentence that uses it twice. -/
def twice : Forest Float :=
  ⟨2, 3, #[⟨[0, 1], 1⟩, ⟨[2], 2⟩],
    #[scored [.word ⟨2⟩] 1.5, scored [.word ⟨3⟩] 4.0, scored [.gap 0, .gap 0] (-2.0)]⟩

def weights : FeatureVector Float := FeatureVector.empty.set "model" 1.0

theorem modelScore_phrase {d : Derivation Float} (h : twice.Derives 0 d) :
    d.modelScore weights = 1.5 ∨ d.modelScore weights = 4.0 := by
  cases h with
  | leaf hv hx =>
    cases hv
    cases hx
  | node hv hid he ht =>
    cases hv
    rcases List.mem_pair.mp hid with rfl | rfl
    · cases he
      have hfills : twice.Fills [.word ⟨2⟩] _ := ht
      cases hfills with
      | word hrest =>
        cases hrest
        exact .inl (by decide +kernel)
    · cases he
      have hfills : twice.Fills [.word ⟨3⟩] _ := ht
      cases hfills with
      | word hrest =>
        cases hrest
        exact .inr (by decide +kernel)

theorem comparable_sentence {d : Derivation Float} (h : twice.Derives 1 d) :
    Scalar.Comparable (d.modelScore weights) := by
  cases h with
  | leaf hv hx =>
    cases hv
    cases hx
  | node hv hid he ht =>
    cases hv
    cases List.mem_singleton.mp hid
    cases he
    have hfills : twice.Fills [.gap 0, .gap 0] _ := ht
    cases hfills with
    | part hd hrest =>
      cases hrest with
      | part hd' hdone =>
        cases hdone
        rw [Derivation.modelScore, Target.addScores, Target.addScores, Target.addScores]
        rcases modelScore_phrase hd with h | h <;> rcases modelScore_phrase hd' with h' | h' <;>
          rw [h, h', Scalar.Comparable] <;> decide +kernel

end Sample

/-- The better word is used at both places, though the derivations range over all four choices. -/
theorem Forest.best_optimal_twice :
    ∃ h, Sample.twice.best ⟨Sample.weights, 0.0, 0.01⟩ .empty = .ok h ∧
      Scalar.isZero (0.0 : Float) = true ∧ h.score = 6.0 ∧
      ∀ d, Sample.twice.Derives 1 d →
        Scalar.atLeast h.score (d.modelScore Sample.weights) = true := by
  have hdone : ((Sample.twice.best ⟨Sample.weights, 0.0, 0.01⟩ .empty).toOption.map
      Decoding.score) = some 6.0 := by
    decide +kernel
  cases hb : Sample.twice.best ⟨Sample.weights, 0.0, 0.01⟩ .empty with
  | error e =>
    rw [hb] at hdone
    cases hdone
  | ok h =>
    rw [hb] at hdone
    have hcomparable : ∀ root, Sample.twice.root? = some root → ∀ d,
        Sample.twice.Derives root d → Scalar.Comparable (d.modelScore Sample.weights) := by
      intro root hroot d hd
      cases hroot
      exact Sample.comparable_sentence hd
    have hzero : Scalar.isZero (0.0 : Float) = true := by decide +kernel
    obtain ⟨root, hroot, hbest, -⟩ := Forest.best_optimal hzero hb hcomparable
    cases hroot
    exact ⟨h, rfl, hzero, Option.some.inj hdone, hbest⟩

end ForestRescoring
