/-
# Where sums fit

The sums that a scorer takes over the children of an edge overflow where a machine word does not hold
them.  In a history in which only answers are passed as statistics the length of the text decides: an
edge with fixed children has a score if that length fits, and overflows if it does not
(`Scorer.Reached.score_outcome`).  So a scorer of texts that fit in memory never overflows, and neither
does counting such a text as a whole (`SentenceReferences.foldlM_record?_eq`).

The reason is that statistics stay below the length (`Scorer.WithinText`).  They have no more matches
than n-grams; and at each word of the text at most one n-gram of a length ends, and at the first words
none, as there is no room in front of them.  The scorer counts some places of a child's text twice,
once inside the child and once across its beginning, but never for one length: where an n-gram of that
length crosses, the place is one of the first in the child, at which none ends inside
(`Scorer.countP_newNgrams_add_le`).
-/
import Mathlib
import ForestRescoring.Proofs.Ngram.Pieces
import ForestRescoring.Proofs.Scoring.History
import ForestRescoring.Proofs.Scoring.Progress

namespace ForestRescoring

/-! ## 1. Counts of a row of n-grams -/

namespace Statistics

/-- Statistics of n-grams fit if machine words can count the n-grams of each length. -/
theorem fits_ofCounts (limit : Ngram → ℕ) {gs : List Ngram}
    (h : ∀ n, 1 ≤ n → n ≤ maxOrder → (gs.countP fun g => g.length = n) < Text.countBound) :
    (ofCounts limit (.ofList gs)).Fits := by
  have htotal : ∀ n, (ofCounts limit (.ofList gs)).total n < Text.countBound := by
    intro n
    by_cases hn : 1 ≤ n ∧ n ≤ maxOrder
    · rw [total_ofCounts hn.1 hn.2]
      exact h n hn.1 hn.2
    · rw [total_eq_zero hn]
      exact Nat.pow_pos (by decide)
  exact fits_iff.mpr fun n =>
    ⟨Nat.lt_of_le_of_lt (matched_le_total_ofCounts limit gs n) (htotal n), htotal n⟩

/-- **What fits in the end can be recorded entry by entry.**  The machine's additions agree with the
exact ones. -/
theorem foldlM_record?_eq (limit : Ngram → ℕ) {entries : List (Ngram × ℕ)} {s : Statistics}
    (h : (entries.foldl (fun s g => s.record ⟨min g.2 (limit g.1), g.2⟩ g.1.length) s).Fits) :
    entries.foldlM (fun s g => s.record? ⟨min g.2 (limit g.1), g.2⟩ g.1.length) s =
      some (entries.foldl (fun s g => s.record ⟨min g.2 (limit g.1), g.2⟩ g.1.length) s) := by
  induction entries using List.reverseRecOn with
  | nil => rfl
  | append_singleton entries g ih =>
    rw [List.foldl_append, List.foldl_cons, List.foldl_nil] at h ⊢
    have hfront := Fits.of_record h
    rw [List.foldlM_append, ih hfront]
    simp only [Option.bind_eq_bind, Option.bind_some, List.foldlM_cons, List.foldlM_nil, record?,
      if_pos h]
    rfl

end Statistics

/-- **The statistics of a row of words are counted without an overflow**, if a machine word can count
the words. -/
theorem SentenceReferences.foldlM_record?_eq (references : SentenceReferences) {ws : List WordId}
    (h : ws.length < Text.countBound) :
    (countNgrams (content ws)).toList.foldlM (fun s g =>
      s.record? ⟨min g.2 (references.count g.1).clipped, g.2⟩ g.1.length) .zero =
        some (references.statistics ws) := by
  have hcontent : (content ws).length ≤ ws.length := List.length_filter_le _ _
  have hfits : Statistics.Fits (.ofCounts (fun g => (references.count g).clipped)
      (countNgrams (content ws))) :=
    Statistics.fits_ofCounts _ fun n h1 h4 => by
      rw [countP_ngrams h1 h4]
      omega
  exact Statistics.foldlM_record?_eq (fun g => (references.count g).clipped) hfits

/-! ## 2. Places where an n-gram can end -/

variable {K : Type} {texts : VertexId → List WordId} {n m place : ℕ} {win : Window}

/-- A word closes one n-gram of each length that there is room for. -/
theorem Window.countP_closing (h1 : 1 ≤ n) (win : Window) (w : WordId) :
    (win.closing w).countP (fun g => g.length = n) = if n ≤ win.recent.length + 1 then 1 else 0 := by
  rw [List.countP_eq_length_filter, closing, filter_length_suffixes h1, List.length_append,
    List.length_singleton]
  split
  · rfl
  · rfl

namespace Scorer

/-- **Into a child few n-grams cross.**  One of `m + 1` words crosses to none but the first `m` places,
and to none before the window is `m` words long. -/
theorem countP_crossing_le (hm : m ≤ contextSize) (win : Window) (place : ℕ) (ws : List WordId) :
    (crossing win place ws).1.countP (fun g => g.length = m + 1) ≤
      min ws.length (m - place) - (m - win.recent.length) := by
  induction ws generalizing win place with
  | nil => exact Nat.zero_le _
  | cons w ws ih =>
    by_cases hw : w.isBoundary = true
    · rw [crossing, if_pos hw, List.length_cons]
      have hrest := ih win (place + 1)
      omega
    · have hacross : ((win.closing w).filter fun g => place + 1 < g.length).countP
          (fun g => g.length = m + 1) ≤ if m ≤ win.recent.length ∧ place < m then 1 else 0 := by
        rw [List.countP_filter]
        by_cases hplace : place < m
        · have hall := Window.countP_closing (Nat.succ_pos m) win w
          simp only [Nat.succ_le_succ_iff] at hall
          rw [if_congr (and_iff_left hplace) rfl rfl, ← hall]
          exact List.countP_mono_left fun g _ hg => (Bool.and_eq_true_iff.mp hg).1
        · rw [if_neg fun h => hplace h.2, Nat.le_zero, List.countP_eq_zero]
          intro g _ hg
          simp only [Bool.and_eq_true, decide_eq_true_eq] at hg
          omega
      have hrest := ih (win.push w) (place + 1)
      rw [Window.length_push] at hrest
      rw [crossing, if_neg hw, List.length_cons]
      simp only [List.countP_append]
      split at hacross
      · omega
      · omega

/-- Behind a child the window has grown by no more than the child's text. -/
theorem length_behind_le (win : Window) (text : List WordId) :
    (behind win text).recent.length ≤ win.recent.length + text.length := by
  by_cases hfull : contextSize ≤ text.length
  · exact (behind win text).length_le.trans (hfull.trans (Nat.le_add_left _ _))
  · rw [behind_of_short win hfull, Window.recent_pushAll, length_rtake, List.length_append]
    have hcontent : (content text).length ≤ text.length := List.length_filter_le _ _
    omega

/-- **No place is counted twice for one length.**  The children have `m` n-grams of `m + 1` words fewer
than words, and what crosses into them makes up for that at most; in front of the slots `m` places
are wanting where the window is fresh. -/
theorem countP_newNgrams_add_le {s : Scorer K} {slots : List Slot} {gs : List Ngram}
    (hm : m ≤ contextSize) (hk : ∀ c ∈ slots.filterMap Slot.child?, s.Knows texts c)
    (hsum : ∀ c ∈ slots.filterMap Slot.child?,
      (s.known c).statistics.total (m + 1) ≤ (texts c).length - m)
    (hgs : s.newNgrams win slots = .ok gs) :
    gs.countP (fun g => g.length = m + 1) + ((slots.filterMap Slot.child?).map fun c =>
        (s.known c).statistics.total (m + 1)).sum ≤
      (slotsText texts slots).length - (m - win.recent.length) := by
  induction slots generalizing win gs with
  | nil =>
    cases hgs
    exact Nat.zero_le _
  | cons slot slots ih =>
    cases slot with
    | word w =>
      rw [slotsText_word, List.length_cons]
      by_cases hw : w.isBoundary = true
      · rw [newNgrams, if_pos hw] at hgs
        have hrest := ih hk hsum hgs
        simp only [List.filterMap_cons, Slot.child?]
        omega
      · rw [newNgrams, if_neg hw] at hgs
        obtain ⟨later, hlater, hgs⟩ := bind_eq_ok_iff.mp hgs
        cases hgs
        have hrest := ih hk hsum hlater
        rw [Window.length_push] at hrest
        rw [List.countP_append, Window.countP_closing (Nat.succ_pos m)]
        simp only [List.filterMap_cons, Slot.child?]
        split
        · omega
        · omega
    | gap c =>
      simp only [List.filterMap_cons, Slot.child?, List.forall_mem_cons] at hk hsum
      rw [newNgrams_gap hk.1] at hgs
      obtain ⟨later, hlater, hgs⟩ := bind_eq_ok_iff.mp hgs
      cases hgs
      have hrest := ih hk.2 hsum.2 hlater
      have hcross := countP_crossing_le hm win 0 ((texts c).take contextSize)
      have hbehind := length_behind_le win (texts c)
      have hchild := hsum.1
      rw [List.length_take] at hcross
      rw [List.countP_append, slotsText_gap, List.length_append]
      simp only [List.filterMap_cons, Slot.child?, List.map_cons, List.sum_cons]
      omega

/-! ## 3. Statistics within a text -/

/-- Statistics that a text can have: no more matches than n-grams, and no more n-grams of a length than
words at which one can end. -/
def WithinText (statistics : Statistics) (ws : List WordId) : Prop :=
  ∀ n, statistics.matched n ≤ statistics.total n ∧ statistics.total n ≤ ws.length - (n - 1)

theorem withinText_zero : WithinText .zero [] := by
  intro n
  rw [Statistics.matched_zero, Statistics.total_zero]
  exact ⟨Nat.le_refl 0, Nat.zero_le _⟩

/-- Machine words hold the statistics of a text if they hold its length. -/
theorem WithinText.fits {statistics : Statistics} {ws : List WordId}
    (h : WithinText statistics ws) (hlength : ws.length < Text.countBound) : statistics.Fits := by
  refine Statistics.fits_iff.mpr fun n => ?_
  obtain ⟨hmatched, htotal⟩ := h n
  have hbound := Nat.lt_of_le_of_lt (htotal.trans (Nat.sub_le _ _)) hlength
  exact ⟨Nat.lt_of_le_of_lt hmatched hbound, hbound⟩

variable {s : Scorer K} {e : Edge K}

/-- **The statistics of an edge are within its text** if those of its children are. -/
theorem withinText_exactStatistics (hk : ∀ c ∈ e.children, s.Knows texts c)
    (hsum : ∀ c ∈ e.children, WithinText (s.known c).statistics (texts c)) :
    WithinText (s.exactStatistics e) (e.text texts) := by
  have hfixed : ∀ c ∈ e.children, s.Fixed c := fun c hc => (hk c hc).imp fun _ h => h.1
  obtain ⟨gs, hgs⟩ := exists_newNgrams_of_fixed (Edge.forall_gap_iff.mpr hfixed) .fresh
  have hexact : s.exactStatistics e = joinStatistics (s.ownStatistics gs)
      (e.children.map s.known) := by
    rw [exactStatistics, hgs]
    rfl
  intro n
  rw [hexact, matched_joinStatistics, total_joinStatistics, List.map_map, List.map_map]
  constructor
  · refine Nat.add_le_add (Statistics.matched_le_total_ofCounts _ gs n) ?_
    exact List.sum_le_sum fun c hc => (hsum c hc n).1
  · by_cases hn : 1 ≤ n ∧ n ≤ maxOrder
    · obtain ⟨m, rfl⟩ := Nat.exists_eq_add_of_le' hn.1
      have hm : m ≤ contextSize := Nat.le_sub_one_of_lt hn.2
      have hplaces := countP_newNgrams_add_le hm (Edge.forall_gap_iff.mpr hk)
        (Edge.forall_gap_iff.mpr fun c hc => (hsum c hc (m + 1)).2) hgs
      rw [Edge.filterMap_child?_slots] at hplaces
      rw [ownStatistics, Statistics.total_ofCounts hn.1 hn.2]
      exact hplaces
    · have hnone : ∀ c ∈ e.children, (s.known c).statistics.total n = 0 :=
        fun c _ => Statistics.total_eq_zero hn _
      rw [Statistics.total_eq_zero hn, Nat.zero_add, List.sum_eq_zero]
      · exact Nat.zero_le _
      · intro k hk
        obtain ⟨c, hc, rfl⟩ := List.mem_map.mp hk
        exact hnone c hc

/-- The length of an edge with known children is that of its text. -/
theorem exactLength_eq (hk : ∀ c ∈ e.children, s.Knows texts c) :
    s.exactLength e = (e.text texts).length := by
  rw [exactLength, length_text]
  refine congrArg (_ + List.sum ·) (List.map_congr_left fun c hc => ?_)
  obtain ⟨found, hfound, hd⟩ := hk c hc
  rw [known_eq hfound, hd.length]

theorem lengthFits_iff (hk : ∀ c ∈ e.children, s.Knows texts c) :
    s.LengthFits e ↔ e.Countable texts := by
  rw [LengthFits, exactLength_eq hk, Edge.Countable]

/-! ## 4. The main result -/

variable [Scalar K]

/-- **The length decides.**  Where the statistics of the children are within their texts, an edge has
a score if its text can be counted, and overflows if not. -/
theorem score_outcome (hk : ∀ c ∈ e.children, s.Knows texts c)
    (hsum : ∀ c ∈ e.children, WithinText (s.known c).statistics (texts c)) (covered : ℕ) :
    (e.Countable texts → ∃ bleu statistics, s.score e covered = .ok (bleu, statistics)) ∧
    (¬ e.Countable texts → s.score e covered = .error .overflow) := by
  have hfixed : ∀ c ∈ e.children, s.Fixed c := fun c hc => (hk c hc).imp fun _ h => h.1
  constructor
  · intro hcount
    have hstatistics : s.StatisticsFit e :=
      hcount.imp_right (withinText_exactStatistics hk hsum).fits
    obtain ⟨⟨bleu, statistics⟩, hscore⟩ :=
      exists_score_iff.mpr ⟨hfixed, (lengthFits_iff hk).mpr hcount, hstatistics⟩
    exact ⟨bleu, statistics, hscore⟩
  · intro hcount
    cases hscore : s.score e covered with
    | ok found =>
      obtain ⟨-, hlong, -⟩ := exists_score_iff.mp ⟨found, hscore⟩
      exact absurd ((lengthFits_iff hk).mp hlong) hcount
    | error cause =>
      obtain ⟨-, rfl, -⟩ := (of_score_eq_error hscore).resolve_left (not_misses_of_fixed hfixed)
      rfl

/-- What edges take over from their children stays within the texts. -/
theorem passedOn_withinText (references : SentenceReferences) :
    PassedOn (K := K) references WithinText := by
  intro s texts e covered bleu statistics _ hk hsum hs
  rw [exactStatistics_of_score hs]
  refine withinText_exactStatistics hk fun c hc => ?_
  obtain ⟨found, hfound, -⟩ := hk c hc
  rw [known_eq hfound]
  exact hsum c found hfound

variable {references : SentenceReferences} {smoothing : K} {f : Forest K} {h : History K}

/-- **An edge has a score if and only if its text can be counted**, after any calls, each passing on
an answer for the edge that it fixes. -/
theorem Reached.score_outcome (hr : Reached answered (Scorer.start references smoothing f) h)
    (hc : ∀ c ∈ e.children, h.scorer.Fixed c) (covered : ℕ) :
    (e.Countable h.texts → ∃ bleu statistics,
      h.scorer.score e covered = .ok (bleu, statistics)) ∧
    (¬ e.Countable h.texts → h.scorer.score e covered = .error .overflow) := by
  have hstart := not_fixed_start references smoothing f
  have hsound := hr.sound hstart withinText_zero (passedOn_withinText _)
  refine Scorer.score_outcome (fun c hmem => (hr.describes hstart).knows (hc c hmem))
    (fun c hmem => ?_) covered
  obtain ⟨found, hfound⟩ := hc c hmem
  rw [known_eq hfound]
  exact hsound.summaries c found hfound

end Scorer

end ForestRescoring
