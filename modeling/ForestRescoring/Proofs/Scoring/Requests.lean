/-
# A scorer writes once

Whoever uses a scorer may ask for scores and for vertices to be fixed in any order, with edges and
statistics of any kind, and may go on after a request that failed.  What such a caller can rely on
does not depend on the order.  A summary that is there stays as it is; a score changes nothing; a
request to fix a vertex writes one new summary, or nothing (`Scorer.write_once`).

Why a request fails is settled by the scorer as it is at that time.  The contexts of an edge ask for
children only as long as they have room, but its length asks for all of them, so a child that is not
fixed is found in any case, and found before the vertex itself is looked at
(`Scorer.of_fixEdge_eq_error`).  Only a sum that overflows can come before it.  That all children are
fixed is not all that a score needs: the statistics that were passed for them are added up, and need
not fit together (`Scorer.score_overflows_of_fixed`).
-/
import Mathlib
import ForestRescoring.Proofs.Scoring.Boundaries
import ForestRescoring.Proofs.Scoring.Progress

namespace ForestRescoring

namespace Scorer

variable {K : Type} {s t : Scorer K} {e : Edge K} {v : VertexId} {cause : SearchError}

/-! ## 1. Why a request fails -/

/-- A child that is not fixed is reported, whatever is known of the vertex, unless the length of the
other children overflows before. -/
theorem fixEdge_of_not_fixed (h : ∃ c ∈ e.children, ¬ s.Fixed c) (v : VertexId)
    (statistics : Statistics) :
    (∃ c ∈ e.children, ¬ s.Fixed c ∧ s.fixEdge v e statistics = .error (.notFixed c)) ∨
      ¬ s.LengthFits e ∧ s.fixEdge v e statistics = .error .overflow := by
  obtain ⟨d, hd, hnot⟩ := h
  cases hfix : s.fixEdge v e statistics with
  | ok t => exact absurd (fixed_of_fixEdge hfix d hd) hnot
  | error cause =>
    rcases of_fixEdge_eq_error hfix with ⟨c, hc, hmiss, rfl⟩ | ⟨rfl, hlong⟩ | ⟨hall, -⟩
    · exact .inl ⟨c, hc, hmiss, rfl⟩
    · exact .inr ⟨hlong, rfl⟩
    · exact absurd (hall d hd) hnot

/-- A fixed vertex has a place. -/
theorem Fixed.lt_size (h : s.Fixed v) : v < s.summaries.size := by
  by_contra hlt
  obtain ⟨found, hfound⟩ := h
  rw [summary, Array.getElem?_eq_none (Nat.le_of_not_lt hlt)] at hfound
  cases hfound

/-- A vertex is reported as fixed already if that is the only thing in the way. -/
theorem fixEdge_eq_alreadyFixed_iff {statistics : Statistics} {w : VertexId} :
    s.fixEdge v e statistics = .error (.alreadyFixed w) ↔
      (∀ c ∈ e.children, s.Fixed c) ∧ s.LengthFits e ∧ s.Fixed v ∧ w = v := by
  constructor
  · intro h
    rcases of_fixEdge_eq_error h with ⟨c, -, -, ⟨⟩⟩ | ⟨⟨⟩, -⟩ | ⟨hall, hfits, ⟨-, ⟨⟩⟩ | ⟨hv, ⟨⟩⟩⟩
    exact ⟨hall, hfits, hv, rfl⟩
  · rintro ⟨hall, hfits, hv, rfl⟩
    cases hfix : s.fixEdge w e statistics with
    | ok t => exact absurd hv (exists_fixEdge_iff.mp ⟨t, hfix⟩).2.2.2
    | error cause =>
      rcases of_fixEdge_eq_error hfix with
        ⟨c, hc, hmiss, -⟩ | ⟨-, hlong⟩ | ⟨-, -, ⟨hsize, -⟩ | ⟨-, rfl⟩⟩
      · exact absurd (hall c hc) hmiss
      · exact absurd hfits hlong
      · exact absurd hv.lt_size (Nat.not_lt.mpr hsize)
      · rfl

/-- A score whose sums do not fit overflows, where the children are fixed. -/
theorem score_eq_overflow [Scalar K] {covered : ℕ} (hfixed : ∀ c ∈ e.children, s.Fixed c)
    (hlong : ¬ (s.LengthFits e ∧ s.StatisticsFit e)) :
    s.score e covered = .error .overflow := by
  cases h : s.score e covered with
  | ok found => exact absurd (exists_score_iff.mp ⟨found, h⟩).2 hlong
  | error cause =>
    rcases of_score_eq_error h with hmiss | ⟨-, rfl, -⟩
    · exact absurd hmiss (not_misses_of_fixed hfixed)
    · rfl

/-! ## 2. Requests -/

section

variable [Scalar K]

/-- What a scorer may be asked for. -/
inductive Request (K : Type) where
  /-- The score of an edge that covers so many source words. -/
  | score (e : Edge K) (covered : ℕ)
  /-- That a vertex be fixed. -/
  | fix (c : Call K)

/-- The scorer that a request gives, if it does not fail. -/
def Request.run (s : Scorer K) : Request K → Except SearchError (Scorer K)
  | .score e covered => (s.score e covered).map fun _ => s
  | .fix c => c.run s

/-- The scorer behind a request.  One that fails leaves it as it was. -/
def after (s : Scorer K) (r : Request K) : Scorer K :=
  match r.run s with
  | .ok t => t
  | .error _ => s

/-- The scorer behind a row of requests. -/
def afterAll (s : Scorer K) (rs : List (Request K)) : Scorer K := rs.foldl after s

variable {r : Request K} {c : Call K}

theorem after_of_ok (h : r.run s = .ok t) : s.after r = t := by
  rw [after, h]

theorem after_of_error (h : r.run s = .error cause) : s.after r = s := by
  rw [after, h]

/-- A score changes nothing, whether there is one or not. -/
theorem after_score (s : Scorer K) (e : Edge K) (covered : ℕ) : s.after (.score e covered) = s := by
  cases h : Request.run s (.score e covered) with
  | error cause => exact after_of_error h
  | ok t =>
    obtain ⟨found, -, rfl⟩ := map_eq_ok_iff.mp h
    exact after_of_ok h

/-- One place is written, which was free, and nothing else is different. -/
def Writes (s t : Scorer K) (v : VertexId) : Prop :=
  ∃ found, s.summaries[v]? = some none ∧
    t = { s with summaries := s.summaries.setIfInBounds v (some found) }

omit [Scalar K] in
theorem writes_of_fix {found : Summary} (h : s.fix v found = .ok t) : s.Writes t v := by
  unfold fix at h
  split at h
  · cases h
  · cases h
  · next hv =>
    cases h
    exact ⟨found, hv, rfl⟩

omit [Scalar K] in
/-- A vertex that was fixed by a call has a new summary, and every other vertex keeps its own. -/
theorem of_call_eq_ok (h : c.run s = .ok t) :
    s.Writes t c.vertex ∧ ¬ s.Fixed c.vertex ∧ t.Fixed c.vertex ∧
      ∀ w, w ≠ c.vertex → t.summary w = s.summary w := by
  obtain ⟨⟨found, hfix⟩, -⟩ := Call.of_run_eq_ok h
  refine ⟨writes_of_fix hfix, (of_fix_eq_ok hfix).1, (fixed_fix_iff hfix).mpr (.inl rfl),
    fun w hw => ?_⟩
  rw [summary_fix hfix, if_neg hw]

/-- **One request keeps what was written.** -/
theorem summary_after {found : Summary} (h : s.summary v = .ok found) (r : Request K) :
    (s.after r).summary v = .ok found := by
  cases r with
  | score e covered => rw [after_score, h]
  | fix c =>
    cases hr : c.run s with
    | error cause => rw [after_of_error (r := .fix c) hr, h]
    | ok t =>
      obtain ⟨-, hnot, -, hkeep⟩ := of_call_eq_ok hr
      have hne : v ≠ c.vertex := fun heq => hnot (heq ▸ ⟨found, h⟩)
      rw [after_of_ok (r := .fix c) hr, hkeep v hne, h]

/-- So do all that follow. -/
theorem summary_afterAll {found : Summary} (h : s.summary v = .ok found) (rs : List (Request K)) :
    (s.afterAll rs).summary v = .ok found := by
  induction rs generalizing s with
  | nil => exact h
  | cons r rs ih => exact ih (summary_after h r)

/-- No request makes a place. -/
theorem size_after (s : Scorer K) (r : Request K) :
    (s.after r).summaries.size = s.summaries.size := by
  cases r with
  | score e covered => rw [after_score]
  | fix c =>
    cases hr : c.run s with
    | error cause => rw [after_of_error (r := .fix c) hr]
    | ok t =>
      obtain ⟨⟨found, hfix⟩, -⟩ := Call.of_run_eq_ok hr
      rw [after_of_ok (r := .fix c) hr, size_fix hfix]

theorem size_afterAll (s : Scorer K) (rs : List (Request K)) :
    (s.afterAll rs).summaries.size = s.summaries.size := by
  induction rs generalizing s with
  | nil => rfl
  | cons r rs ih => exact (ih (s.after r)).trans (size_after s r)

/-! ## 3. The main result -/

variable {references : SentenceReferences} {smoothing : K} {f : Forest K}

/-- **Summaries are written once, and every request is done or not done.**  After any requests, and
before any others:

* a summary that is there stays, for good;
* a score changes nothing, and a request that fails changes nothing;
* a request to fix a vertex that succeeds writes the summary of this vertex, which it did not have,
  and nothing else;
* a leaf can be fixed if it is a vertex of the forest that is not fixed, and by an edge a vertex can be
  fixed if all children of the edge are fixed too and its length fits;
* if some child is not, one that is not is reported, unless the length of the others overflows; and if
  all are, an overflow is reported if the length does not fit, and else the vertex is reported as fixed
  already if that is what it is;
* an edge has a score if all its children are fixed and its length and its statistics fit, and if they
  do not fit, an overflow is reported. -/
theorem write_once {earlier : List (Request K)}
    (hs : s = (start references smoothing f).afterAll earlier) :
    (∀ (later : List (Request K)) v found, s.summary v = .ok found →
      (s.afterAll later).summary v = .ok found) ∧
    (∀ e covered, s.after (.score e covered) = s) ∧
    (∀ (r : Request K) cause, r.run s = .error cause → s.after r = s) ∧
    (∀ c t, Request.run s (.fix c) = .ok t → s.after (.fix c) = t ∧ s.Writes t c.vertex ∧
      ¬ s.Fixed c.vertex ∧ t.Fixed c.vertex ∧ ∀ w, w ≠ c.vertex → t.summary w = s.summary w) ∧
    (∀ v, (∃ t, s.fixLeaf v = .ok t) ↔ v < f.vertices.size ∧ ¬ s.Fixed v) ∧
    (∀ v e statistics, (∃ t, s.fixEdge v e statistics = .ok t) ↔
      v < f.vertices.size ∧ ¬ s.Fixed v ∧ (∀ c ∈ e.children, s.Fixed c) ∧ s.LengthFits e) ∧
    (∀ v e statistics, (∃ c ∈ e.children, ¬ s.Fixed c) →
      (∃ c ∈ e.children, ¬ s.Fixed c ∧ s.fixEdge v e statistics = .error (.notFixed c)) ∨
        ¬ s.LengthFits e ∧ s.fixEdge v e statistics = .error .overflow) ∧
    (∀ v e statistics, (∀ c ∈ e.children, s.Fixed c) →
      (s.fixEdge v e statistics = .error (.alreadyFixed v) ↔ s.Fixed v ∧ s.LengthFits e) ∧
        (¬ s.LengthFits e → s.fixEdge v e statistics = .error .overflow)) ∧
    (∀ e covered, (∃ found, s.score e covered = .ok found) ↔
      (∀ c ∈ e.children, s.Fixed c) ∧ s.LengthFits e ∧ s.StatisticsFit e) ∧
    ∀ e covered, (∀ c ∈ e.children, s.Fixed c) → ¬ (s.LengthFits e ∧ s.StatisticsFit e) →
      s.score e covered = .error .overflow := by
  have hsize : s.summaries.size = f.vertices.size := by
    rw [hs, size_afterAll, start, Array.size_replicate]
  refine ⟨fun later v found hv => summary_afterAll hv later, after_score s,
    fun r cause => after_of_error, fun c t hc => ?_, fun v => ?_, fun v e statistics => ?_,
    fun v e statistics h => fixEdge_of_not_fixed h v statistics,
    fun v e statistics hall => ⟨?_, fun hlong => fixEdge_eq_overflow hall hlong v statistics⟩,
    fun e covered => exists_score_iff, fun e covered => score_eq_overflow⟩
  · exact ⟨after_of_ok hc, of_call_eq_ok (show c.run s = .ok t from hc)⟩
  · rw [← hsize]
    exact exists_fix_iff
  · rw [exists_fixEdge_iff, hsize]
    constructor
    · rintro ⟨hall, hfits, hlt, hnot⟩
      exact ⟨hlt, hnot, hall, hfits⟩
    · rintro ⟨hlt, hnot, hall, hfits⟩
      exact ⟨hall, hfits, hlt, hnot⟩
  · rw [fixEdge_eq_alreadyFixed_iff]
    exact ⟨fun h => ⟨h.2.2.1, h.2.1⟩, fun h => ⟨hall, h.2, h.1, rfl⟩⟩

/-- The requests of a caller who fixes a leaf, and then wants the sentence to be scored and fixed
before its phrase is. -/
def earlyRequests : List (Request Float) :=
  [.fix (.leaf 1), .score Sample.sentence 3, .fix (.edge 2 Sample.sentence .zero)]

/-- Of the early requests only the first has an effect.  Its leaf stays empty, and asking to fix it
by the sentence fails for the phrase, though the leaf is fixed already. -/
theorem write_once_earlyRequests :
    ((start (Sample.corpus.sentence 0) 0 Sample.forest).afterAll earlyRequests).summary 1 =
      .ok .empty ∧
    (((start (Sample.corpus.sentence 0) 0 Sample.forest).afterAll earlyRequests).afterAll
      [.fix (.edge 1 Sample.phrase .zero)]).summary 1 = .ok .empty ∧
    ((start (Sample.corpus.sentence 0) 0 Sample.forest).afterAll earlyRequests).fixEdge 1
      Sample.sentence .zero = .error (.notFixed 0) ∧
    ((start (Sample.corpus.sentence 0) 0 Sample.forest).afterAll earlyRequests).fixEdge 1
      Sample.phrase .zero = .error (.alreadyFixed 1) := by
  have hs : (start (Sample.corpus.sentence 0) 0 Sample.forest).afterAll earlyRequests =
      (start (Sample.corpus.sentence 0) 0 Sample.forest).afterAll earlyRequests := rfl
  obtain ⟨hkeep, -, -, -, -, -, hmiss, hfixed, -⟩ := write_once hs
  have hleaf : ((start (Sample.corpus.sentence 0) 0 Sample.forest).afterAll
      earlyRequests).summary 1 = .ok .empty := rfl
  have hphrase : ¬ ((start (Sample.corpus.sentence 0) 0 Sample.forest).afterAll
      earlyRequests).Fixed 0 := by
    rintro ⟨found, ⟨⟩⟩
  have hshort : ((start (Sample.corpus.sentence 0) 0 Sample.forest).afterAll
      earlyRequests).LengthFits Sample.sentence := .inr (by decide +kernel)
  have hwords : ∀ c ∈ Sample.phrase.children, ((start (Sample.corpus.sentence 0) 0
      Sample.forest).afterAll earlyRequests).Fixed c := List.forall_mem_nil _
  refine ⟨hleaf, hkeep _ 1 _ hleaf, ?_,
    (hfixed 1 Sample.phrase .zero hwords).1.mpr ⟨⟨_, hleaf⟩, .inl rfl⟩⟩
  rcases hmiss 1 Sample.sentence .zero ⟨0, by decide, hphrase⟩ with
    ⟨c, hc, hnot, herror⟩ | ⟨hlong, -⟩
  · have hcases : c = 0 ∨ c = 1 ∨ c = 0 := by
      simpa [show Sample.sentence.children = [0, 1, 0] from rfl] using hc
    rcases hcases with rfl | rfl | rfl
    · exact herror
    · exact absurd ⟨_, hleaf⟩ hnot
    · exact herror
  · exact absurd hshort hlong

/-- The largest statistics of one kind, passed for an edge without words. -/
def largestRequests : List (Request Float) :=
  [.fix (.edge 0 .empty ⟨⟨0, Text.countBound - 1⟩, .zero, .zero, .zero⟩)]

/-- **That all children are fixed is not enough for a score.**  An edge with two gaps for one vertex
adds up what was passed for that vertex. -/
theorem score_overflows_of_fixed :
    (∀ c ∈ (Edge.ofSlots [.gap 0, .gap 0] .empty : Edge Float).children,
      ((start .empty 0.01 Sample.forest).afterAll largestRequests).Fixed c) ∧
    ((start .empty 0.01 Sample.forest).afterAll largestRequests).score
      (.ofSlots [.gap 0, .gap 0] .empty) 1 = .error .overflow := by
  have hsummary : ((start .empty 0.01 Sample.forest).afterAll largestRequests).summary 0 =
      .ok ⟨[], [], ⟨⟨0, Text.countBound - 1⟩, .zero, .zero, .zero⟩, 0⟩ := rfl
  have hfixed : ∀ c ∈ (Edge.ofSlots [.gap 0, .gap 0] .empty : Edge Float).children,
      ((start .empty 0.01 Sample.forest).afterAll largestRequests).Fixed c := by
    intro c hc
    have hmem : c ∈ [0, 0] := hc
    rcases List.mem_pair.mp hmem with rfl | rfl
    · exact ⟨_, hsummary⟩
    · exact ⟨_, hsummary⟩
  refine ⟨hfixed, score_eq_overflow hfixed fun hfits => ?_⟩
  have hlarge := hfits.2.resolve_left (List.cons_ne_nil 0 [0])
  exact absurd hlarge (by decide +kernel)

end

end Scorer

end ForestRescoring
