/-
# Histories of a scorer

A scorer is used by calls: edges are scored, and vertices are fixed, as leaves or by an edge, in any
order that succeeds.  Each fixed vertex has a text: the empty one if it was fixed as a leaf, and
else the text of its edge, built from the texts that its children had (`History.texts`).

A history is what such calls lead to (`Reached`).  What may be passed as the statistics of an edge
is left to a policy; under `answered` they must be an answer that scoring that edge gave before.

Two invariants hold of every history.  Under any policy the summary of a fixed vertex describes its
text (`Reached.describes`).  Under `answered`, whatever holds of the statistics of an edge
whenever it holds of those of its children, holds of all answers and all summaries
(`Reached.sound`).  Both rest on the fact that a vertex is fixed once: no text that an answer was
built from changes later (`text_update`).
-/
import Mathlib
import ForestRescoring.Proofs.Scoring.Calls

namespace ForestRescoring

namespace Scorer

variable {K : Type}

/-! ## 1. What is fixed stays -/

/-- Nothing is fixed at the start. -/
theorem not_fixed_start (references : SentenceReferences) (smoothing : K) (f : Forest K)
    (v : VertexId) : ¬ (Scorer.start references smoothing f).Fixed v := by
  rintro ⟨found, hfound⟩
  rw [summary, start] at hfound
  by_cases hv : v < f.vertices.size
  · rw [Array.getElem?_replicate, if_pos hv] at hfound
    cases hfound
  · rw [Array.getElem?_replicate, if_neg hv] at hfound
    cases hfound

/-- Fixing a vertex fixes that vertex and no other. -/
theorem fixed_fix_iff {s t : Scorer K} {v c : VertexId} {found : Summary}
    (hv : s.fix v found = .ok t) : t.Fixed c ↔ c = v ∨ s.Fixed c := by
  rw [Fixed, summary_fix hv]
  by_cases h : c = v
  · exact ⟨fun _ => Or.inl h, fun _ => ⟨found, if_pos h⟩⟩
  · rw [if_neg h]
    exact ⟨Or.inr, fun hc => hc.resolve_left h⟩

theorem Fixed.of_fix {s t : Scorer K} {v c : VertexId} {found : Summary}
    (hv : s.fix v found = .ok t) (hc : s.Fixed c) : t.Fixed c :=
  (fixed_fix_iff hv).mpr (Or.inr hc)

/-- **Fixing a new vertex leaves the texts of edges alone**, as long as their children are all fixed
before. -/
theorem text_update {s : Scorer K} {v : VertexId} (hv : ¬ s.Fixed v) {e : Edge K}
    (hc : ∀ c ∈ e.children, s.Fixed c) (texts : VertexId → List WordId) (ws : List WordId) :
    e.text (Function.update texts v ws) = e.text texts := by
  refine Edge.text_congr fun c hmem => ?_
  have hne : c ≠ v := fun heq => hv (heq ▸ hc c hmem)
  exact Function.update_of_ne hne ws texts

/-! ## 2. Invariants -/

/-- A scorer in use. -/
structure History (K : Type) where
  scorer : Scorer K
  /-- The text of each vertex that is fixed. -/
  texts : VertexId → List WordId
  /-- The statistics that scoring has found for edges. -/
  answers : List (Edge K × Statistics)

variable {h h' : History K} {v : VertexId} {found : Summary} {t : Scorer K}

/-- Fixing a vertex writes one summary and one text, so what holds of both at that vertex, and held
of all others, holds of all. -/
theorem forall_summary_update {P : Summary → List WordId → Prop}
    (hP : ∀ w found, h.scorer.summary w = .ok found → P found (h.texts w))
    (hv : h.scorer.fix v found = .ok t) {ws : List WordId} (hf : P found ws) :
    ∀ w found, t.summary w = .ok found → P found (Function.update h.texts v ws w) := by
  intro w found' hw
  rw [summary_fix hv] at hw
  by_cases h : w = v
  · subst h
    rw [if_pos rfl] at hw
    cases hw
    rwa [Function.update_self]
  · rw [if_neg h] at hw
    rw [Function.update_of_ne h]
    exact hP w found' hw

/-- The summary of every fixed vertex describes its text. -/
def Described (h : History K) : Prop :=
  ∀ v found, h.scorer.summary v = .ok found → found.Describes (h.texts v)

theorem Described.knows (hd : Described h) (hv : h.scorer.Fixed v) :
    h.scorer.Knows h.texts v := by
  obtain ⟨found, hfound⟩ := hv
  exact ⟨found, hfound, hd v found hfound⟩

/-- The summary that fixing an edge writes describes the text of the edge. -/
theorem Described.exists_fix (hd : Described h) {e : Edge K} {statistics : Statistics}
    (hv : h.scorer.fixEdge v e statistics = .ok t) :
    ∃ found, h.scorer.fix v found = .ok t ∧ found.Describes (e.text h.texts) ∧
      found.statistics = statistics :=
  exists_fix_of_fixEdge (fun c hc => hd.knows (fixed_of_fixEdge hv c hc)) hv

/-- A property of statistics and the text that they belong to holds of all that is known: of the
summaries, and of the answers, whose children are all fixed. -/
structure Sound (good : Statistics → List WordId → Prop) (h : History K) : Prop where
  summaries : ∀ v found, h.scorer.summary v = .ok found → good found.statistics (h.texts v)
  answers : ∀ e statistics, (e, statistics) ∈ h.answers →
    (∀ c ∈ e.children, h.scorer.Fixed c) ∧ good statistics (e.text h.texts)

variable {good : Statistics → List WordId → Prop}

/-- Fixing a vertex with good statistics keeps all good that was good before. -/
theorem Sound.update (hg : Sound good h) (hv : h.scorer.fix v found = .ok t)
    {ws : List WordId} (hf : good found.statistics ws) :
    Sound good { h with scorer := t, texts := Function.update h.texts v ws } where
  summaries := forall_summary_update (P := fun found ws => good found.statistics ws)
    hg.summaries hv hf
  answers := by
    intro e statistics he
    obtain ⟨hc, hgood⟩ := hg.answers e statistics he
    refine ⟨fun c hmem => (hc c hmem).of_fix hv, ?_⟩
    show good statistics (e.text (Function.update h.texts v ws))
    rw [text_update (of_fix_eq_ok hv).1 hc]
    exact hgood

/-! ## 3. Calls -/

/-- What may be passed as the statistics of an edge, after some answers. -/
abbrev Policy (K : Type) := List (Edge K × Statistics) → Edge K → Statistics → Prop

/-- The statistics of an edge are an answer for that edge. -/
def answered : Policy K := fun answers e statistics => (e, statistics) ∈ answers

variable [Scalar K]

/-- One call that succeeds. -/
inductive Step (policy : Policy K) : History K → History K → Prop
  | score {h : History K} {e : Edge K} {covered : ℕ} {bleu : K} {statistics : Statistics}
      (hs : h.scorer.score e covered = .ok (bleu, statistics)) :
      Step policy h { h with answers := (e, statistics) :: h.answers }
  | fixLeaf {h : History K} {v : VertexId} {t : Scorer K} (hv : h.scorer.fixLeaf v = .ok t) :
      Step policy h { h with scorer := t, texts := Function.update h.texts v [] }
  | fixEdge {h : History K} {v : VertexId} {e : Edge K} {statistics : Statistics} {t : Scorer K}
      (hp : policy h.answers e statistics) (hv : h.scorer.fixEdge v e statistics = .ok t) :
      Step policy h { h with scorer := t, texts := Function.update h.texts v (e.text h.texts) }

/-- What calls lead to from a scorer that nothing was asked of. -/
inductive Reached (policy : Policy K) (s : Scorer K) : History K → Prop
  | start : Reached policy s ⟨s, fun _ => [], []⟩
  | step {h h' : History K} : Reached policy s h → Step policy h h' → Reached policy s h'

variable {policy : Policy K} {s : Scorer K}

/-- No call changes what is scored against. -/
theorem Step.references_eq (hs : Step policy h h') :
    h'.scorer.references = h.scorer.references := by
  cases hs with
  | score hs => rfl
  | fixLeaf hv => exact (of_fix_eq_ok hv).2.1
  | fixEdge hp hv =>
    obtain ⟨left, right, length, -, -, -, hfix⟩ := fixEdge_eq_ok_iff.mp hv
    exact (of_fix_eq_ok hfix).2.1

theorem Reached.references_eq (hr : Reached policy s h) :
    h.scorer.references = s.references := by
  induction hr with
  | start => rfl
  | step _ hs ih => exact hs.references_eq.trans ih

/-! ## 4. What holds of every history -/

theorem Step.described (hs : Step policy h h') (hd : Described h) : Described h' := by
  cases hs with
  | score hs => exact hd
  | fixLeaf hv => exact forall_summary_update hd hv Summary.describes_empty
  | fixEdge hp hv =>
    obtain ⟨found, hfix, hf, -⟩ := hd.exists_fix hv
    exact forall_summary_update hd hfix hf

/-- **Summaries describe the texts they stand for**, whatever was called and whatever statistics
were passed. -/
theorem Reached.describes (hr : Reached policy s h) (hs : ∀ v, ¬ s.Fixed v) : Described h := by
  induction hr with
  | start => exact fun v found hv => absurd ⟨found, hv⟩ (hs v)
  | step _ hstep ih => exact hstep.described ih

/-- The property is passed on from the children of an edge to the edge. -/
def PassedOn (references : SentenceReferences) (good : Statistics → List WordId → Prop) : Prop :=
  ∀ (s : Scorer K) (texts : VertexId → List WordId) (e : Edge K) (covered : ℕ) (bleu : K)
    (statistics : Statistics), s.references = references →
    (∀ c ∈ e.children, s.Knows texts c) →
    (∀ c found, s.summary c = .ok found → good found.statistics (texts c)) →
    s.score e covered = .ok (bleu, statistics) → good statistics (e.text texts)

theorem Step.sound (hs : Step answered h h') (hd : Described h) (hg : Sound good h)
    (hzero : good .zero []) (hpass : PassedOn (K := K) h.scorer.references good) :
    Sound good h' := by
  cases hs with
  | score hs =>
    refine ⟨hg.summaries, ?_⟩
    intro e statistics hmem
    rcases List.mem_cons.mp hmem with heq | hmem
    · cases heq
      have hc := fixed_of_score hs
      exact ⟨hc, hpass _ _ _ _ _ _ rfl (fun c hmem => hd.knows (hc c hmem)) hg.summaries hs⟩
    · exact hg.answers e statistics hmem
  | fixLeaf hv => exact hg.update hv hzero
  | fixEdge hp hv =>
    obtain ⟨found, hfix, -, hstat⟩ := hd.exists_fix hv
    exact hg.update hfix (hstat ▸ (hg.answers _ _ hp).2)

/-- **What edges take over from their children holds throughout**, if only answers are passed as
statistics. -/
theorem Reached.sound (hr : Reached answered s h) (hs : ∀ v, ¬ s.Fixed v)
    (hzero : good .zero []) (hpass : PassedOn (K := K) s.references good) : Sound good h := by
  induction hr with
  | start =>
    exact ⟨fun v found hv => absurd ⟨found, hv⟩ (hs v), fun e statistics he => by cases he⟩
  | step hr hstep ih =>
    exact hstep.sound (hr.describes hs) ih hzero (hr.references_eq ▸ hpass)

/-- So it holds of the next answer. -/
theorem Reached.sound_score (hr : Reached answered s h) (hs : ∀ v, ¬ s.Fixed v)
    (hzero : good .zero []) (hpass : PassedOn (K := K) s.references good) {e : Edge K} {covered : ℕ}
    {bleu : K} {statistics : Statistics} (hscore : h.scorer.score e covered = .ok (bleu, statistics)) :
    good statistics (e.text h.texts) := by
  have hc := fixed_of_score hscore
  have hd := hr.describes hs
  exact hpass _ _ _ _ _ _ hr.references_eq (fun c hmem => hd.knows (hc c hmem))
    (hr.sound hs hzero hpass).summaries hscore

end Scorer

end ForestRescoring
