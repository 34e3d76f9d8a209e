/-
# What the scorer answers

The calls of a scorer look at the children of an edge, and where the summaries of these describe the
children's texts, each call answers for the text of the edge: its first words, its last words,
and its length (`Scorer.leftContext_eq`, `Scorer.rightContext_eq`, `Scorer.targetLength_eq`).  The
statistics are those of the n-grams that the edge adds and those of the children
(`Scorer.score_eq_ok_iff`).

Lengths and statistics are sums over the children, which are there if machine words hold them
(`Scorer.gather_eq_ok_iff`).  Where no sum is to be taken, as an edge has no children, nothing can
overflow.

A call that succeeds has seen all children of its edge (`Scorer.fixed_of_fixEdge`,
`Scorer.fixed_of_score`), also where it needed only some of them, because the length is taken over
all.  It has seen nothing else (`Scorer.AgreeOn.score_eq`).
-/
import Mathlib
import ForestRescoring.Proofs.Ngram.Matching
import ForestRescoring.Proofs.Outcome
import ForestRescoring.Proofs.Scoring.NewNgrams

namespace ForestRescoring

/-- The length of the text of an edge is small enough for a machine word, or there is nothing to be
added up for it, as the edge has no children. -/
def Edge.Countable {K : Type} (e : Edge K) (texts : VertexId → List WordId) : Prop :=
  e.children = [] ∨ (e.text texts).length < Text.countBound

namespace Scorer

variable {K : Type}

/-- A vertex has its summary. -/
def Fixed (s : Scorer K) (v : VertexId) : Prop := ∃ found, s.summary v = .ok found

/-! ## 1. Contexts -/

/-- **A context is the front of the text.**  `side` is one side of a summary, and `full` the whole of
what that side begins; a child that is cut off leaves no room. -/
theorem context_eq {s : Scorer K} {side : Summary → List WordId} {full : VertexId → List WordId}
    {slots : List Slot} (hk : ∀ c ∈ slots.filterMap Slot.child?, ∃ found, s.summary c = .ok found ∧
      side found = (full c).take contextSize) {room : ℕ} (hroom : room ≤ contextSize) :
    s.context side room slots = .ok ((slotsText full slots).take room) := by
  induction slots generalizing room with
  | nil => rw [context, slotsText_nil, List.take_nil]
  | cons slot slots ih =>
    by_cases h0 : room = 0
    · subst h0
      cases slot <;> rfl
    · cases slot with
      | word w =>
        have hlater := ih hk (Nat.le_trans (Nat.sub_le room 1) hroom)
        obtain ⟨n, rfl⟩ := Nat.exists_eq_succ_of_ne_zero h0
        rw [context, if_neg h0, hlater, slotsText_word, List.take_succ_cons]
        rfl
      | gap c =>
        obtain ⟨found, hfound, hside⟩ := hk c (by simp [Slot.child?])
        have htaken : (side found).take room = (full c).take room := by
          rw [hside, List.take_take, Nat.min_eq_left hroom]
        have hleft : room - ((full c).take room).length = room - (full c).length := by
          rw [List.length_take]
          omega
        have hlater := ih (fun d hd => hk d (by simp [Slot.child?, hd]))
          (Nat.le_trans (Nat.sub_le room (full c).length) hroom)
        rw [context, if_neg h0, slotsText_gap, List.take_append, ← htaken]
        refine bind_eq_ok_iff.mpr ⟨found, hfound, bind_eq_ok_iff.mpr ⟨_, ?_, rfl⟩⟩
        rw [htaken, hleft, hlater]

variable {s : Scorer K} {texts : VertexId → List WordId} {e : Edge K}

/-- The left context of an edge is the front of its text. -/
theorem leftContext_eq (hk : ∀ c ∈ e.children, s.Knows texts c) :
    s.leftContext e = .ok ((e.text texts).take contextSize) := by
  refine context_eq (Edge.forall_gap_iff.mpr fun c hc => ?_) (Nat.le_refl _)
  obtain ⟨found, hfound, hd⟩ := hk c hc
  exact ⟨found, hfound, hd.left⟩

/-- Slots from the right give the text from the right. -/
theorem slotsText_reverse (texts : VertexId → List WordId) (slots : List Slot) :
    slotsText (fun c => (texts c).reverse) slots.reverse = (slotsText texts slots).reverse := by
  rw [slotsText, slotsText, List.reverse_flatMap]
  refine congrArg (List.flatMap · slots.reverse) (funext fun slot => ?_)
  cases slot with
  | word w => rfl
  | gap c => rfl

/-- The right context of an edge is the end of its text. -/
theorem rightContext_eq (hk : ∀ c ∈ e.children, s.Knows texts c) :
    s.rightContext e = .ok ((e.text texts).rtake contextSize) := by
  have hback : s.context (fun inner => inner.right.reverse) contextSize e.slots.reverse =
      .ok ((slotsText (fun c => (texts c).reverse) e.slots.reverse).take contextSize) := by
    refine context_eq (fun c hc => ?_) (Nat.le_refl _)
    rw [List.filterMap_reverse, List.mem_reverse, Edge.filterMap_child?_slots] at hc
    obtain ⟨found, hfound, hd⟩ := hk c hc
    refine ⟨found, hfound, ?_⟩
    rw [hd.right, List.rtake_eq_reverse_take_reverse, List.reverse_reverse]
  rw [rightContext, hback, slotsText_reverse, List.rtake_eq_reverse_take_reverse]
  rfl

/-! ## 2. Sums over children -/

/-- An addition that has a result where the sum fits.  What fits as a part of a sum fits alone. -/
structure Checks {α : Type} [Add α] (add? : α → α → Option α) (fits : α → Prop) : Prop where
  add?_eq_some_iff : ∀ {a b sum : α}, add? a b = some sum ↔ sum = a + b ∧ fits (a + b)
  of_add : ∀ {a b : α}, fits (a + b) → fits a

/-- What fits behind further additions fitted before them. -/
theorem Checks.of_foldl {α : Type} [Add α] {add? : α → α → Option α} {fits : α → Prop}
    (h : Checks add? fits) {part : Summary → α} {inner : List Summary} {total : α}
    (hfits : fits (inner.foldl (fun t c => t + part c) total)) : fits total := by
  induction inner generalizing total with
  | nil => exact hfits
  | cons c inner ih => exact h.of_add (ih hfits)

/-- **A sum over children is there if each child is fixed and the sum fits.**  Without children nothing
is added, and it need not fit. -/
theorem gather_eq_ok_iff {α : Type} [Add α] {add? : α → α → Option α} {fits : α → Prop}
    (h : Checks add? fits) {s : Scorer K} {part : Summary → α} {total sum : α}
    {vs : List VertexId} :
    s.gather add? part total vs = .ok sum ↔ ∃ inner, vs.mapM s.summary = .ok inner ∧
      sum = inner.foldl (fun t c => t + part c) total ∧ (vs = [] ∨ fits sum) := by
  induction vs generalizing total with
  | nil =>
    rw [gather, List.mapM_nil]
    constructor
    · rintro ⟨⟩
      exact ⟨[], rfl, rfl, .inl rfl⟩
    · rintro ⟨inner, ⟨⟩, rfl, -⟩
      rfl
  | cons v vs ih =>
    rw [gather, List.mapM_cons]
    constructor
    · intro hsum
      obtain ⟨found, hfound, hsum⟩ := bind_eq_ok_iff.mp hsum
      cases hnext : add? total (part found) with
      | none =>
        rw [hnext] at hsum
        cases hsum
      | some next =>
        rw [hnext] at hsum
        obtain ⟨rfl, hfits⟩ := h.add?_eq_some_iff.mp hnext
        obtain ⟨inner, hinner, rfl, hrest⟩ := ih.mp hsum
        refine ⟨found :: inner, ?_, rfl, .inr ?_⟩
        · exact bind_eq_ok_iff.mpr ⟨found, hfound, bind_eq_ok_iff.mpr ⟨inner, hinner, rfl⟩⟩
        · rcases hrest with rfl | hrest
          · cases hinner
            exact hfits
          · exact hrest
    · rintro ⟨all, hall, rfl, hrest⟩
      obtain ⟨found, hfound, hlater⟩ := bind_eq_ok_iff.mp hall
      obtain ⟨inner, hinner, hcons⟩ := bind_eq_ok_iff.mp hlater
      cases hcons
      have hfits := hrest.resolve_left (List.cons_ne_nil v vs)
      have hnext := h.add?_eq_some_iff.mpr ⟨rfl, h.of_foldl hfits⟩
      refine bind_eq_ok_iff.mpr ⟨found, hfound, ?_⟩
      rw [hnext]
      exact ih.mpr ⟨inner, hinner, rfl, .inr hfits⟩

/-- Counts are added by a checked addition. -/
theorem checks_addCounts? : Checks Text.addCounts? (· < Text.countBound) where
  add?_eq_some_iff := by
    intro a b sum
    unfold Text.addCounts?
    split
    · next h => simp [h, eq_comm]
    · next h => simp [h]
  of_add := Nat.lt_of_le_of_lt (Nat.le_add_right _ _)

/-- Statistics are added by a checked addition. -/
theorem checks_add? : Checks Statistics.add? Statistics.Fits where
  add?_eq_some_iff := by
    intro a b sum
    unfold Statistics.add?
    split
    · next h => simp [h, eq_comm]
    · next h => simp [h]
  of_add := Statistics.Fits.of_add

/-! ## 3. Lengths -/

/-- A text is as long as the words of its slots and the texts of its gaps together. -/
theorem length_slotsText (texts : VertexId → List WordId) (slots : List Slot) :
    (slotsText texts slots).length = slots.countP (fun slot => slot.child?.isNone) +
      ((slots.filterMap Slot.child?).map fun c => (texts c).length).sum := by
  induction slots with
  | nil => rfl
  | cons slot slots ih =>
    cases slot with
    | word w =>
      rw [slotsText_word, List.length_cons, ih, List.countP_cons_of_pos rfl]
      simp only [List.filterMap_cons, Slot.child?]
      omega
    | gap c =>
      rw [slotsText_gap, List.length_append, ih, List.countP_cons_of_neg (by simp [Slot.child?])]
      simp only [List.filterMap_cons, Slot.child?, List.map_cons, List.sum_cons]
      omega

/-- The length of an edge is that of its words and of its children. -/
theorem length_text (e : Edge K) (texts : VertexId → List WordId) :
    (e.text texts).length =
      e.literalCount + (e.children.map fun c => (texts c).length).sum := by
  rw [Edge.text, length_slotsText, Edge.filterMap_child?_slots, Edge.literalCount]

/-- The summaries of the children of an edge, from left to right. -/
def childSummaries (s : Scorer K) (e : Edge K) : Except SearchError (List Summary) :=
  e.children.mapM s.summary

/-- The children of an edge that are known have their summaries, one for each. -/
theorem exists_childSummaries (hk : ∀ c ∈ e.children, s.Knows texts c) :
    ∃ inner, s.childSummaries e = .ok inner ∧ List.Forall₂
      (fun c found => s.summary c = .ok found ∧ found.Describes (texts c)) e.children inner := by
  obtain ⟨inner, hinner⟩ := exists_forall₂_iff.mpr hk
  exact ⟨inner, mapM_eq_ok_iff.mpr (hinner.imp fun _ _ h => h.1), hinner⟩

/-- Numbers added up one by one. -/
theorem foldl_add_length (inner : List Summary) (n : ℕ) :
    inner.foldl (fun n c => n + c.length) n = n + (inner.map Summary.length).sum := by
  induction inner generalizing n with
  | nil => rfl
  | cons c inner ih => rw [List.foldl_cons, ih, List.map_cons, List.sum_cons, Nat.add_assoc]

/-- The length of an edge is that of its text, if that is a count. -/
theorem targetLength_eq_ok_iff (hk : ∀ c ∈ e.children, s.Knows texts c) {length : ℕ} :
    s.targetLength e = .ok length ↔ length = (e.text texts).length ∧ e.Countable texts := by
  obtain ⟨inner, hok, hinner⟩ := exists_childSummaries hk
  have hlengths : inner.map Summary.length = e.children.map fun c => (texts c).length :=
    map_eq_of_forall₂ hinner fun _ _ h => h.2.length
  have hsum : inner.foldl (fun n c => n + c.length) e.literalCount = (e.text texts).length := by
    rw [foldl_add_length, hlengths, length_text]
  rw [targetLength, gather_eq_ok_iff checks_addCounts?]
  constructor
  · rintro ⟨inner', hinner', rfl, hfits⟩
    obtain rfl : inner = inner' := Except.ok.inj (hok.symm.trans hinner')
    exact ⟨hsum, hfits.imp_right (hsum ▸ ·)⟩
  · rintro ⟨rfl, hfits⟩
    exact ⟨inner, hok, hsum.symm, hfits⟩

/-! ## 4. What a call that succeeds has seen -/

/-- All children of an edge whose summaries were read are fixed. -/
theorem fixed_of_childSummaries {inner : List Summary} (h : s.childSummaries e = .ok inner) :
    ∀ c ∈ e.children, s.Fixed c := by
  intro c hc
  exact exists_forall₂_iff.mp ⟨inner, mapM_eq_ok_iff.mp h⟩ c hc

/-- **Fixing an edge needs all children**, and fixes the contexts and the length of the edge. -/
theorem fixEdge_eq_ok_iff {t : Scorer K} {v : VertexId} {statistics : Statistics} :
    s.fixEdge v e statistics = .ok t ↔
      ∃ left right length, s.leftContext e = .ok left ∧ s.rightContext e = .ok right ∧
        s.targetLength e = .ok length ∧ s.fix v ⟨left, right, statistics, length⟩ = .ok t := by
  constructor
  · intro h
    obtain ⟨left, hleft, h⟩ := bind_eq_ok_iff.mp h
    obtain ⟨right, hright, h⟩ := bind_eq_ok_iff.mp h
    obtain ⟨length, hlength, h⟩ := bind_eq_ok_iff.mp h
    exact ⟨left, right, length, hleft, hright, hlength, h⟩
  · rintro ⟨left, right, length, hleft, hright, hlength, h⟩
    refine bind_eq_ok_iff.mpr ⟨left, hleft, bind_eq_ok_iff.mpr ⟨right, hright, ?_⟩⟩
    exact bind_eq_ok_iff.mpr ⟨length, hlength, h⟩

/-- The summary that fixing an edge writes describes the text of the edge. -/
theorem exists_fix_of_fixEdge {t : Scorer K} {v : VertexId} {statistics : Statistics}
    (hk : ∀ c ∈ e.children, s.Knows texts c) (h : s.fixEdge v e statistics = .ok t) :
    ∃ found, s.fix v found = .ok t ∧ found.Describes (e.text texts) ∧
      found.statistics = statistics := by
  obtain ⟨left, right, length, hleft, hright, hlength, hfix⟩ := fixEdge_eq_ok_iff.mp h
  rw [leftContext_eq hk] at hleft
  rw [rightContext_eq hk] at hright
  obtain ⟨rfl, -⟩ := (targetLength_eq_ok_iff hk).mp hlength
  cases hleft
  cases hright
  exact ⟨_, hfix, ⟨rfl, rfl, rfl⟩, rfl⟩

/-- All children of slots whose n-grams were found are fixed. -/
theorem fixed_of_newNgrams {win : Window} {slots : List Slot} {gs : List Ngram}
    (h : s.newNgrams win slots = .ok gs) : ∀ c ∈ slots.filterMap Slot.child?, s.Fixed c := by
  induction slots generalizing win gs with
  | nil => exact List.forall_mem_nil _
  | cons slot slots ih =>
    cases slot with
    | word w =>
      unfold newNgrams at h
      split at h
      · exact ih h
      · obtain ⟨later, hlater, -⟩ := bind_eq_ok_iff.mp h
        exact ih hlater
    | gap c =>
      obtain ⟨inner, hinner, h⟩ := bind_eq_ok_iff.mp h
      obtain ⟨later, hlater, -⟩ := bind_eq_ok_iff.mp h
      exact List.forall_mem_cons.mpr ⟨⟨inner, hinner⟩, ih hlater⟩

/-- All children of an edge that was measured are fixed. -/
theorem fixed_of_targetLength {length : ℕ} (h : s.targetLength e = .ok length) :
    ∀ c ∈ e.children, s.Fixed c := by
  obtain ⟨inner, hinner, -⟩ := (gather_eq_ok_iff checks_addCounts?).mp h
  exact fixed_of_childSummaries hinner

/-- All children of an edge that was fixed are fixed. -/
theorem fixed_of_fixEdge {t : Scorer K} {v : VertexId} {statistics : Statistics}
    (h : s.fixEdge v e statistics = .ok t) : ∀ c ∈ e.children, s.Fixed c := by
  obtain ⟨left, right, length, -, -, hlength, -⟩ := fixEdge_eq_ok_iff.mp h
  exact fixed_of_targetLength hlength

/-- A vertex that could be fixed was not fixed before, and nothing but summaries changes. -/
theorem of_fix_eq_ok {t : Scorer K} {v : VertexId} {found : Summary} (h : s.fix v found = .ok t) :
    ¬ s.Fixed v ∧ t.references = s.references ∧ t.sourceLength = s.sourceLength ∧
      t.smoothing = s.smoothing := by
  unfold fix at h
  split at h
  · cases h
  · cases h
  · next hv =>
    cases h
    refine ⟨?_, rfl, rfl, rfl⟩
    rintro ⟨found', hfound'⟩
    rw [summary, hv] at hfound'
    cases hfound'

/-- Fixing makes no place. -/
theorem size_fix {t : Scorer K} {v : VertexId} {found : Summary} (h : s.fix v found = .ok t) :
    t.summaries.size = s.summaries.size := by
  unfold fix at h
  split at h
  · cases h
  · cases h
  · cases h
    exact Array.size_setIfInBounds

/-! ## 5. What a call reads -/

/-- Two scorers of one sentence that have the same summaries for some vertices. -/
structure AgreeOn (vertices : List VertexId) (s t : Scorer K) : Prop where
  references : t.references = s.references
  sourceLength : t.sourceLength = s.sourceLength
  smoothing : t.smoothing = s.smoothing
  summary : ∀ c ∈ vertices, t.summary c = s.summary c

theorem AgreeOn.trans {vertices : List VertexId} {t u : Scorer K}
    (hst : AgreeOn vertices s t) (htu : AgreeOn vertices t u) : AgreeOn vertices s u where
  references := htu.references.trans hst.references
  sourceLength := htu.sourceLength.trans hst.sourceLength
  smoothing := htu.smoothing.trans hst.smoothing
  summary := fun c hc => (htu.summary c hc).trans (hst.summary c hc)

/-- Fixing a vertex leaves the others alone. -/
theorem agreeOn_of_fix {t : Scorer K} {v : VertexId} {found : Summary} (h : s.fix v found = .ok t)
    {vertices : List VertexId} (hv : v ∉ vertices) : AgreeOn vertices s t := by
  obtain ⟨-, href, hlen, hsm⟩ := of_fix_eq_ok h
  refine ⟨href, hlen, hsm, fun c hc => ?_⟩
  have hne : c ≠ v := fun heq => hv (heq ▸ hc)
  rw [summary_fix h, if_neg hne]

theorem newNgrams_congr {t : Scorer K} {slots : List Slot}
    (h : ∀ c ∈ slots.filterMap Slot.child?, t.summary c = s.summary c) (win : Window) :
    t.newNgrams win slots = s.newNgrams win slots := by
  induction slots generalizing win with
  | nil => rfl
  | cons slot slots ih =>
    cases slot with
    | word w =>
      have hrest := ih h
      rw [newNgrams, newNgrams, hrest, hrest]
    | gap c =>
      have hc := h c (by simp [Slot.child?])
      have hrest := ih fun d hd => h d (by simp [Slot.child?, hd])
      rw [newNgrams, newNgrams, hc]
      simp only [hrest]

theorem gather_congr {α : Type} {t : Scorer K} {vs : List VertexId}
    (h : ∀ c ∈ vs, t.summary c = s.summary c) (add? : α → α → Option α) (part : Summary → α)
    (total : α) : t.gather add? part total vs = s.gather add? part total vs := by
  induction vs generalizing total with
  | nil => rfl
  | cons c vs ih =>
    have hc := h c List.mem_cons_self
    have hrest := ih fun d hd => h d (List.mem_cons_of_mem c hd)
    simp only [gather, hc, hrest]

theorem context_congr {t : Scorer K} {slots : List Slot}
    (h : ∀ c ∈ slots.filterMap Slot.child?, t.summary c = s.summary c)
    (side : Summary → List WordId) (room : ℕ) :
    t.context side room slots = s.context side room slots := by
  induction slots generalizing room with
  | nil => rfl
  | cons slot slots ih =>
    cases slot with
    | word w =>
      have hrest := ih h
      simp only [context, hrest]
    | gap c =>
      have hc := h c (by simp [Slot.child?])
      have hrest := ih fun d hd => h d (by simp [Slot.child?, hd])
      simp only [context, hc, hrest]

/-- **The contexts of an edge depend on its children only**, and so does its length. -/
theorem AgreeOn.leftContext_eq {t : Scorer K} (h : AgreeOn e.children s t) :
    t.leftContext e = s.leftContext e :=
  context_congr (Edge.forall_gap_iff.mpr h.summary) _ _

theorem AgreeOn.rightContext_eq {t : Scorer K} (h : AgreeOn e.children s t) :
    t.rightContext e = s.rightContext e := by
  have hback : ∀ c ∈ e.slots.reverse.filterMap Slot.child?, t.summary c = s.summary c := by
    intro c hc
    rw [List.filterMap_reverse, List.mem_reverse, Edge.filterMap_child?_slots] at hc
    exact h.summary c hc
  rw [rightContext, rightContext, context_congr hback]

theorem AgreeOn.targetLength_eq {t : Scorer K} (h : AgreeOn e.children s t) :
    t.targetLength e = s.targetLength e := by
  rw [targetLength, targetLength, gather_congr h.summary]

/-! ## 6. The statistics of an edge -/

/-- The statistics of the n-grams that an edge adds. -/
def ownStatistics (s : Scorer K) (gs : List Ngram) : Statistics :=
  .ofCounts (fun g => (s.references.count g).total) (.ofList gs)

/-- The statistics of an edge: those of the n-grams that it adds, and those of its children. -/
def joinStatistics (own : Statistics) (inner : List Summary) : Statistics :=
  inner.foldl (fun t c => t + c.statistics) own

/-- A child has all its matches in the statistics of the edge. -/
theorem matched_joinStatistics (own : Statistics) (inner : List Summary) (n : ℕ) :
    (joinStatistics own inner).matched n =
      own.matched n + (inner.map fun c => c.statistics.matched n).sum := by
  induction inner generalizing own with
  | nil => rfl
  | cons c inner ih =>
    have hcons : joinStatistics own (c :: inner) = joinStatistics (own + c.statistics) inner := rfl
    rw [hcons, ih, Statistics.matched_add, List.map_cons, List.sum_cons, Nat.add_assoc]

/-- A child has all its n-grams in the statistics of the edge. -/
theorem total_joinStatistics (own : Statistics) (inner : List Summary) (n : ℕ) :
    (joinStatistics own inner).total n =
      own.total n + (inner.map fun c => c.statistics.total n).sum := by
  induction inner generalizing own with
  | nil => rfl
  | cons c inner ih =>
    have hcons : joinStatistics own (c :: inner) = joinStatistics (own + c.statistics) inner := rfl
    rw [hcons, ih, Statistics.total_add, List.map_cons, List.sum_cons, Nat.add_assoc]

/-- The n-grams of an edge are counted once all are found. -/
theorem edgeNgrams_eq {gs : List Ngram} (h : s.newNgrams .fresh e.slots = .ok gs) :
    s.edgeNgrams e = .ok (.ofList gs) := by
  rw [edgeNgrams, h]
  rfl

variable [Scalar K]

/-- **A score has seen all there is to see**: the n-grams that the edge adds, the summary of each
child, and the length. -/
theorem score_eq_ok_iff {covered : ℕ} {bleu : K} {statistics : Statistics} :
    s.score e covered = .ok (bleu, statistics) ↔
      ∃ gs inner length, s.newNgrams .fresh e.slots = .ok gs ∧ s.childSummaries e = .ok inner ∧
        s.targetLength e = .ok length ∧ statistics = joinStatistics (s.ownStatistics gs) inner ∧
        bleu = Scorer.bleu s.smoothing (s.effectiveReference covered) statistics length ∧
        (e.children = [] ∨ statistics.Fits) := by
  constructor
  · intro h
    obtain ⟨counts, hcounts, h⟩ := bind_eq_ok_iff.mp h
    obtain ⟨gs, hgs, hof⟩ := bind_eq_ok_iff.mp hcounts
    cases hof
    obtain ⟨sum, hsum, h⟩ := bind_eq_ok_iff.mp h
    obtain ⟨inner, hinner, rfl, hfits⟩ := (gather_eq_ok_iff checks_add?).mp hsum
    obtain ⟨length, hlength, h⟩ := bind_eq_ok_iff.mp h
    cases h
    exact ⟨gs, inner, length, hgs, hinner, hlength, rfl, rfl, hfits⟩
  · rintro ⟨gs, inner, length, hgs, hinner, hlength, rfl, rfl, hfits⟩
    have hsum := (gather_eq_ok_iff checks_add?).mpr ⟨inner, hinner, rfl, hfits⟩
    refine bind_eq_ok_iff.mpr ⟨_, edgeNgrams_eq hgs, bind_eq_ok_iff.mpr ⟨_, hsum, ?_⟩⟩
    exact bind_eq_ok_iff.mpr ⟨length, hlength, rfl⟩

/-- **Scoring needs all children.** -/
theorem fixed_of_score {covered : ℕ} {found : K × Statistics}
    (h : s.score e covered = .ok found) : ∀ c ∈ e.children, s.Fixed c := by
  obtain ⟨gs, inner, length, -, hinner, -⟩ := score_eq_ok_iff.mp h
  exact fixed_of_childSummaries hinner

/-- **The score of an edge depends on its children only.** -/
theorem AgreeOn.score_eq {t : Scorer K} (h : AgreeOn e.children s t) (covered : ℕ) :
    t.score e covered = s.score e covered := by
  rw [score, score, edgeNgrams, edgeNgrams, newNgrams_congr (Edge.forall_gap_iff.mpr h.summary),
    h.targetLength_eq, h.references, h.smoothing, effectiveReference, effectiveReference,
    h.sourceLength, h.references]
  simp only [gather_congr h.summary]

end Scorer

end ForestRescoring
