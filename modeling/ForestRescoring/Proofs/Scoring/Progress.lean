/-
# When the scorer answers

A call of the scorer reads summaries of children, adds up what they have, and may write one summary.
It has no other reasons to fail: an edge has a score if and only if all its children are fixed and
machine words hold its length and its statistics (`Scorer.exists_score_iff`), and a vertex can be
fixed by an edge if and only if the children are fixed, the length fits, and the vertex has a place of
its own that is still free (`Scorer.exists_fixEdge_iff`).

A call that fails has met a child that is not fixed, or a sum that does not fit, or a place that is
not free.  Which of them it reports depends on the order in which it looks.  A score looks at the
children first (`Scorer.of_score_eq_error`).  The contexts of an edge ask for children only as long as
they have room, but its length asks for all of them, and the vertex itself is looked at last
(`Scorer.of_fixEdge_eq_error`).
-/
import Mathlib
import ForestRescoring.Proofs.Scoring.Calls

namespace ForestRescoring

namespace Scorer

variable {K : Type} {s t : Scorer K} {e : Edge K} {v : VertexId} {cause : SearchError}

/-! ## 1. Exact sums -/

/-- What is known of a vertex: its summary, or that of an empty text if it is not fixed. -/
def known (s : Scorer K) (v : VertexId) : Summary := (s.summary v).toOption.getD .empty

/-- What is known of a vertex that is fixed is its summary. -/
theorem known_eq {found : Summary} (h : s.summary v = .ok found) : s.known v = found := by
  rw [known, h]
  rfl

/-- What is known changes for a fixed vertex only. -/
theorem known_fix {found : Summary} (h : s.fix v found = .ok t) (w : VertexId) :
    t.known w = if w = v then found else s.known w := by
  rw [known, summary_fix h]
  split
  · rfl
  · rfl

/-- The number of words on an edge and of those that are known of its children, whether or not a
machine word holds it. -/
def exactLength (s : Scorer K) (e : Edge K) : ℕ :=
  e.literalCount + (e.children.map fun c => (s.known c).length).sum

/-- The statistics of an edge, whether or not machine words hold them. -/
def exactStatistics (s : Scorer K) (e : Edge K) : Statistics :=
  joinStatistics (s.ownStatistics ((s.newNgrams .fresh e.slots).toOption.getD []))
    (e.children.map s.known)

/-- A machine word holds the length of an edge, if anything is added up for it. -/
def LengthFits (s : Scorer K) (e : Edge K) : Prop :=
  e.children = [] ∨ s.exactLength e < Text.countBound

/-- Machine words hold the statistics of an edge, if anything is added up for them. -/
def StatisticsFit (s : Scorer K) (e : Edge K) : Prop :=
  e.children = [] ∨ (s.exactStatistics e).Fits

/-- Summaries that were read are what is known. -/
theorem eq_map_known {vs : List VertexId} {inner : List Summary}
    (h : vs.mapM s.summary = .ok inner) : inner = vs.map s.known := by
  have hknown := map_eq_of_forall₂ (f := s.known) (g := id) (mapM_eq_ok_iff.mp h)
    fun c found hc => (known_eq hc).symm
  rwa [List.map_id] at hknown

/-- The summaries of fixed vertices can be read. -/
theorem mapM_summary_of_fixed {vs : List VertexId} (h : ∀ c ∈ vs, s.Fixed c) :
    vs.mapM s.summary = .ok (vs.map s.known) := by
  obtain ⟨inner, hinner⟩ := exists_forall₂_iff.mpr h
  have hread := mapM_eq_ok_iff.mpr hinner
  rw [hread, eq_map_known hread]

/-- The length of an edge is the exact one, if it is there at all. -/
theorem targetLength_eq_ok_iff_exact {length : ℕ} :
    s.targetLength e = .ok length ↔
      length = s.exactLength e ∧ (∀ c ∈ e.children, s.Fixed c) ∧ s.LengthFits e := by
  have hexact : (e.children.map s.known).foldl (fun n c => n + c.length) e.literalCount =
      s.exactLength e := by
    rw [foldl_add_length, exactLength, List.map_map]
    rfl
  rw [targetLength, gather_eq_ok_iff checks_addCounts?]
  constructor
  · rintro ⟨inner, hinner, rfl, hfits⟩
    have hfixed := fixed_of_childSummaries hinner
    obtain rfl := eq_map_known hinner
    rw [hexact] at hfits ⊢
    exact ⟨rfl, hfixed, hfits⟩
  · rintro ⟨rfl, hfixed, hfits⟩
    exact ⟨_, mapM_summary_of_fixed hfixed, hexact.symm, hfits⟩

theorem exists_targetLength_iff : (∃ length, s.targetLength e = .ok length) ↔
    (∀ c ∈ e.children, s.Fixed c) ∧ s.LengthFits e := by
  simp only [targetLength_eq_ok_iff_exact, exists_eq_left]

/-! ## 2. Reading summaries -/

/-- A context is found if the children are fixed. -/
theorem exists_context {side : Summary → List WordId} {slots : List Slot}
    (h : ∀ c ∈ slots.filterMap Slot.child?, s.Fixed c) (room : ℕ) :
    ∃ ws, s.context side room slots = .ok ws := by
  induction slots generalizing room with
  | nil => exact ⟨[], rfl⟩
  | cons slot slots ih =>
    unfold context
    split
    · exact ⟨[], rfl⟩
    · cases slot with
      | word w =>
        obtain ⟨later, hlater⟩ := ih h (room - 1)
        exact ⟨w :: later, bind_eq_ok_iff.mpr ⟨later, hlater, rfl⟩⟩
      | gap c =>
        obtain ⟨found, hfound⟩ := h c List.mem_cons_self
        obtain ⟨later, hlater⟩ := ih (fun d hd => h d (List.mem_cons_of_mem c hd))
          (room - ((side found).take room).length)
        exact ⟨_, bind_eq_ok_iff.mpr ⟨found, hfound, bind_eq_ok_iff.mpr ⟨later, hlater, rfl⟩⟩⟩

/-- New n-grams are found if the children are fixed. -/
theorem exists_newNgrams_of_fixed {slots : List Slot}
    (h : ∀ c ∈ slots.filterMap Slot.child?, s.Fixed c) (win : Window) :
    ∃ gs, s.newNgrams win slots = .ok gs := by
  induction slots generalizing win with
  | nil => exact ⟨[], rfl⟩
  | cons slot slots ih =>
    cases slot with
    | word w =>
      unfold newNgrams
      split
      · exact ih h win
      · obtain ⟨later, hlater⟩ := ih h (win.push w)
        exact ⟨_, bind_eq_ok_iff.mpr ⟨later, hlater, rfl⟩⟩
    | gap c =>
      obtain ⟨found, hfound⟩ := h c List.mem_cons_self
      obtain ⟨later, hlater⟩ := ih (fun d hd => h d (List.mem_cons_of_mem c hd))
        (if found.left.length = contextSize then seed .fresh found.right
          else (crossing win 0 found.left).2)
      exact ⟨_, bind_eq_ok_iff.mpr ⟨found, hfound, bind_eq_ok_iff.mpr ⟨later, hlater, rfl⟩⟩⟩

/-! ## 3. Writing summaries -/

/-- A vertex can be fixed if it has a place and is not fixed yet. -/
theorem exists_fix_iff {found : Summary} :
    (∃ t, s.fix v found = .ok t) ↔ v < s.summaries.size ∧ ¬ s.Fixed v := by
  unfold Fixed fix summary
  cases hv : s.summaries[v]? with
  | none =>
    have hsize := Array.getElem?_eq_none_iff.mp hv
    simp [Nat.not_lt.mpr hsize]
  | some place =>
    obtain ⟨hlt, -⟩ := Array.getElem?_eq_some_iff.mp hv
    cases place with
    | none => simp [hlt]
    | some old => simp

/-- **Fixing fails only for a child or a place that is not there, or for a length that does not
fit.** -/
theorem exists_fixEdge_iff {statistics : Statistics} :
    (∃ t, s.fixEdge v e statistics = .ok t) ↔
      (∀ c ∈ e.children, s.Fixed c) ∧ s.LengthFits e ∧ v < s.summaries.size ∧ ¬ s.Fixed v := by
  constructor
  · rintro ⟨t, ht⟩
    obtain ⟨left, right, length, -, -, hlength, hfix⟩ := fixEdge_eq_ok_iff.mp ht
    obtain ⟨hfixed, hfits⟩ := exists_targetLength_iff.mp ⟨length, hlength⟩
    exact ⟨hfixed, hfits, exists_fix_iff.mp ⟨t, hfix⟩⟩
  · rintro ⟨hchildren, hfits, hplace⟩
    obtain ⟨left, hleft⟩ := exists_context (Edge.forall_gap_iff.mpr hchildren) contextSize
    have hback : ∀ c ∈ e.slots.reverse.filterMap Slot.child?, s.Fixed c := by
      intro c hc
      rw [List.filterMap_reverse, List.mem_reverse, Edge.filterMap_child?_slots] at hc
      exact hchildren c hc
    obtain ⟨backwards, hbackwards⟩ := exists_context hback contextSize
    obtain ⟨length, hlength⟩ := exists_targetLength_iff.mpr ⟨hchildren, hfits⟩
    have hright : s.rightContext e = .ok backwards.reverse :=
      bind_eq_ok_iff.mpr ⟨backwards, hbackwards, rfl⟩
    obtain ⟨t, ht⟩ := exists_fix_iff.mpr hplace
    exact ⟨t, fixEdge_eq_ok_iff.mpr ⟨left, _, length, hleft, hright, hlength, ht⟩⟩

/-! ## 4. Scores -/

section Score

variable [Scalar K] {covered : ℕ}

/-- The statistics that come with a score are the exact ones. -/
theorem exactStatistics_of_score {bleu : K} {statistics : Statistics}
    (h : s.score e covered = .ok (bleu, statistics)) : statistics = s.exactStatistics e := by
  obtain ⟨gs, inner, length, hgs, hinner, -, rfl, -⟩ := score_eq_ok_iff.mp h
  rw [exactStatistics, hgs, eq_map_known hinner]
  rfl

/-- **Scoring fails only for a child that is not fixed, or for a length or statistics that do not
fit.** -/
theorem exists_score_iff : (∃ found, s.score e covered = .ok found) ↔
    (∀ c ∈ e.children, s.Fixed c) ∧ s.LengthFits e ∧ s.StatisticsFit e := by
  constructor
  · rintro ⟨⟨bleu, statistics⟩, hfound⟩
    obtain ⟨gs, inner, length, -, -, hlength, -, -, hfits⟩ := score_eq_ok_iff.mp hfound
    obtain ⟨hfixed, hlong⟩ := exists_targetLength_iff.mp ⟨length, hlength⟩
    rw [exactStatistics_of_score hfound] at hfits
    exact ⟨hfixed, hlong, hfits⟩
  · rintro ⟨h, hlong, hfits⟩
    obtain ⟨gs, hgs⟩ := exists_newNgrams_of_fixed (Edge.forall_gap_iff.mpr h) .fresh
    obtain ⟨length, hlength⟩ := exists_targetLength_iff.mpr ⟨h, hlong⟩
    rw [StatisticsFit, exactStatistics, hgs] at hfits
    exact ⟨(_, _), score_eq_ok_iff.mpr
      ⟨gs, _, length, hgs, mapM_summary_of_fixed h, hlength, rfl, rfl, hfits⟩⟩

end Score

/-! ## 5. Why a call fails -/

/-- A child that was asked for before it was fixed. -/
def Misses (s : Scorer K) (children : List VertexId) (cause : SearchError) : Prop :=
  ∃ c ∈ children, ¬ s.Fixed c ∧ cause = .notFixed c

/-- Nothing is missed where all children are fixed. -/
theorem not_misses_of_fixed {children : List VertexId} (h : ∀ c ∈ children, s.Fixed c) :
    ¬ s.Misses children cause := by
  rintro ⟨c, hc, hnot, -⟩
  exact hnot (h c hc)

/-- Only a summary that is not fixed cannot be read. -/
theorem of_summary_eq_error (h : s.summary v = .error cause) :
    ¬ s.Fixed v ∧ cause = .notFixed v := by
  refine ⟨?_, ?_⟩
  · rintro ⟨found, hfound⟩
    rw [h] at hfound
    cases hfound
  · unfold summary at h
    split at h
    · cases h
    · cases h
      rfl

theorem misses_of_context {side : Summary → List WordId} {room : ℕ} {slots : List Slot}
    (h : s.context side room slots = .error cause) :
    s.Misses (slots.filterMap Slot.child?) cause := by
  induction slots generalizing room with
  | nil => cases h
  | cons slot slots ih =>
    unfold context at h
    split at h
    · cases h
    · cases slot with
      | word w =>
        rcases bind_eq_error_iff.mp h with h | ⟨later, -, ⟨⟩⟩
        exact ih h
      | gap c =>
        rcases bind_eq_error_iff.mp h with h | ⟨inner, -, h⟩
        · exact ⟨c, List.mem_cons_self, of_summary_eq_error h⟩
        · rcases bind_eq_error_iff.mp h with h | ⟨later, -, ⟨⟩⟩
          obtain ⟨d, hd, hmiss⟩ := ih h
          exact ⟨d, List.mem_cons_of_mem c hd, hmiss⟩

theorem misses_of_leftContext (h : s.leftContext e = .error cause) :
    s.Misses e.children cause := e.filterMap_child?_slots ▸ misses_of_context h

theorem misses_of_rightContext (h : s.rightContext e = .error cause) :
    s.Misses e.children cause := by
  rcases bind_eq_error_iff.mp h with h | ⟨backwards, -, ⟨⟩⟩
  obtain ⟨c, hc, hmiss⟩ := misses_of_context h
  rw [List.filterMap_reverse, List.mem_reverse, Edge.filterMap_child?_slots] at hc
  exact ⟨c, hc, hmiss⟩

theorem misses_of_newNgrams {win : Window} {slots : List Slot}
    (h : s.newNgrams win slots = .error cause) :
    s.Misses (slots.filterMap Slot.child?) cause := by
  induction slots generalizing win with
  | nil => cases h
  | cons slot slots ih =>
    cases slot with
    | word w =>
      unfold newNgrams at h
      split at h
      · exact ih h
      · rcases bind_eq_error_iff.mp h with h | ⟨later, -, ⟨⟩⟩
        exact ih h
    | gap c =>
      rcases bind_eq_error_iff.mp h with h | ⟨inner, -, h⟩
      · exact ⟨c, List.mem_cons_self, of_summary_eq_error h⟩
      · rcases bind_eq_error_iff.mp h with h | ⟨later, -, ⟨⟩⟩
        obtain ⟨d, hd, hmiss⟩ := ih h
        exact ⟨d, List.mem_cons_of_mem c hd, hmiss⟩

/-- A sum over children that is not there lacks a child, or does not fit. -/
theorem of_gather_eq_error {α : Type} {add? : α → α → Option α} {part : Summary → α} {total : α}
    {vs : List VertexId} (h : s.gather add? part total vs = .error cause) :
    s.Misses vs cause ∨ cause = .overflow := by
  induction vs generalizing total with
  | nil => cases h
  | cons c vs ih =>
    rcases bind_eq_error_iff.mp h with h | ⟨inner, -, h⟩
    · exact .inl ⟨c, List.mem_cons_self, of_summary_eq_error h⟩
    · split at h
      · cases h
        exact .inr rfl
      · rcases ih h with ⟨d, hd, hmiss⟩ | hover
        · exact .inl ⟨d, List.mem_cons_of_mem c hd, hmiss⟩
        · exact .inr hover

/-- The sum of lengths overflows only if it is too large, even without the children that are not
fixed. -/
theorem of_gather_lengths_eq_overflow {total : ℕ} {vs : List VertexId}
    (h : s.gather Text.addCounts? Summary.length total vs = .error .overflow) :
    vs ≠ [] ∧ Text.countBound ≤ total + (vs.map fun c => (s.known c).length).sum := by
  induction vs generalizing total with
  | nil => cases h
  | cons c vs ih =>
    refine ⟨List.cons_ne_nil c vs, ?_⟩
    rw [List.map_cons, List.sum_cons, ← Nat.add_assoc]
    rcases bind_eq_error_iff.mp h with h | ⟨inner, hinner, h⟩
    · cases (of_summary_eq_error h).2
    · have hknown := known_eq hinner
      rw [hknown]
      cases hadd : Text.addCounts? total inner.length with
      | none =>
        have hlarge : Text.countBound ≤ total + inner.length := by
          unfold Text.addCounts? at hadd
          split at hadd
          · cases hadd
          · next hlarge => exact Nat.le_of_not_lt hlarge
        exact hlarge.trans (Nat.le_add_right _ _)
      | some sum =>
        rw [hadd] at h
        obtain ⟨rfl, -⟩ := checks_addCounts?.add?_eq_some_iff.mp hadd
        exact (ih h).2

/-- A length that is not there lacks a child, or does not fit. -/
theorem of_targetLength_eq_error (h : s.targetLength e = .error cause) :
    s.Misses e.children cause ∨ cause = .overflow ∧ ¬ s.LengthFits e := by
  rcases of_gather_eq_error h with hmiss | rfl
  · exact .inl hmiss
  · obtain ⟨hne, hlarge⟩ := of_gather_lengths_eq_overflow h
    exact .inr ⟨rfl, not_or.mpr ⟨hne, Nat.not_lt.mpr hlarge⟩⟩

/-- A vertex is not fixed if it has no place, or is fixed already. -/
theorem fix_eq_error_iff {found : Summary} :
    s.fix v found = .error cause ↔
      s.summaries.size ≤ v ∧ cause = .notFixed v ∨ s.Fixed v ∧ cause = .alreadyFixed v := by
  unfold Fixed fix summary
  cases hv : s.summaries[v]? with
  | none => simp [Array.getElem?_eq_none_iff.mp hv, eq_comm]
  | some place =>
    have hlt := (Array.getElem?_eq_some_iff.mp hv).1
    cases place with
    | none => simp [Nat.not_le.mpr hlt]
    | some old => simp [Nat.not_le.mpr hlt, eq_comm]

/-- **Children come first.**  Fixing a vertex by an edge fails for a child of the edge that is not
fixed, or for a length that does not fit; and only if there is neither, for the vertex itself. -/
theorem of_fixEdge_eq_error {statistics : Statistics}
    (h : s.fixEdge v e statistics = .error cause) :
    s.Misses e.children cause ∨ (cause = .overflow ∧ ¬ s.LengthFits e) ∨
      (∀ c ∈ e.children, s.Fixed c) ∧ s.LengthFits e ∧
        (s.summaries.size ≤ v ∧ cause = .notFixed v ∨ s.Fixed v ∧ cause = .alreadyFixed v) := by
  rcases bind_eq_error_iff.mp h with h | ⟨left, -, h⟩
  · exact .inl (misses_of_leftContext h)
  rcases bind_eq_error_iff.mp h with h | ⟨right, -, h⟩
  · exact .inl (misses_of_rightContext h)
  rcases bind_eq_error_iff.mp h with h | ⟨length, hlength, h⟩
  · exact (of_targetLength_eq_error h).imp_right .inl
  obtain ⟨hfixed, hfits⟩ := exists_targetLength_iff.mp ⟨length, hlength⟩
  exact .inr (.inr ⟨hfixed, hfits, fix_eq_error_iff.mp h⟩)

/-- A length that does not fit is found before the vertex is looked at. -/
theorem fixEdge_eq_overflow (hfixed : ∀ c ∈ e.children, s.Fixed c) (hlong : ¬ s.LengthFits e)
    (v : VertexId) (statistics : Statistics) :
    s.fixEdge v e statistics = .error .overflow := by
  cases h : s.fixEdge v e statistics with
  | ok t => exact absurd (exists_fixEdge_iff.mp ⟨t, h⟩).2.1 hlong
  | error cause =>
    rcases of_fixEdge_eq_error h with hmiss | ⟨rfl, -⟩ | ⟨-, hfits, -⟩
    · exact absurd hmiss (not_misses_of_fixed hfixed)
    · rfl
    · exact absurd hfits hlong

/-- N-grams that are not there lack a child. -/
theorem misses_of_edgeNgrams (h : s.edgeNgrams e = .error cause) : s.Misses e.children cause := by
  rcases bind_eq_error_iff.mp h with h | ⟨gs, -, ⟨⟩⟩
  exact e.filterMap_child?_slots ▸ misses_of_newNgrams h

/-- **A score lacks a child, or overflows.**  It overflows only where all children are fixed. -/
theorem of_score_eq_error [Scalar K] {covered : ℕ} (h : s.score e covered = .error cause) :
    s.Misses e.children cause ∨ (∀ c ∈ e.children, s.Fixed c) ∧ cause = .overflow ∧
      ¬ (s.LengthFits e ∧ s.StatisticsFit e) := by
  by_cases hfixed : ∀ c ∈ e.children, s.Fixed c
  · right
    refine ⟨hfixed, ?_, fun hfits => ?_⟩
    · rcases bind_eq_error_iff.mp h with h | ⟨counts, -, h⟩
      · exact absurd (misses_of_edgeNgrams h) (not_misses_of_fixed hfixed)
      rcases bind_eq_error_iff.mp h with h | ⟨sum, -, h⟩
      · exact (of_gather_eq_error h).resolve_left (not_misses_of_fixed hfixed)
      rcases bind_eq_error_iff.mp h with h | ⟨length, -, ⟨⟩⟩
      exact (of_gather_eq_error h).resolve_left (not_misses_of_fixed hfixed)
    · obtain ⟨found, hfound⟩ := exists_score_iff.mpr ⟨hfixed, hfits⟩
      cases h.symm.trans hfound
  · left
    rcases bind_eq_error_iff.mp h with h | ⟨counts, hcounts, h⟩
    · exact misses_of_edgeNgrams h
    · obtain ⟨gs, hgs, -⟩ := bind_eq_ok_iff.mp hcounts
      exact absurd (Edge.forall_gap_iff.mp (fixed_of_newNgrams hgs)) hfixed

end Scorer

end ForestRescoring
