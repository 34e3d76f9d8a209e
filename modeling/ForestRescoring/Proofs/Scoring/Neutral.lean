/-
# Sentence boundaries and scores

The statistics of a whole text do not count sentence boundaries, so dropping them changes nothing
(`SentenceReferences.statistics_content`).  The scorer does not count them either, but they take
places in the texts of vertices and room in their contexts.  So a forest may lose n-grams to its
boundaries: scored bottom-up along the same edges, it has other statistics than the forest that
has them dropped from its edges (`Forest.boundary_hides_bigram`).

Main statement: the two have the same statistics if and only if in each edge that is used all
boundaries in the texts of children are out of the way (`Forest.same_statistics_iff`).  A boundary may
stand in front of all content and behind all content, as in a whole sentence, and in some other
places, but not in front of a word that n-grams cross to, or among the last words of a child's text
that has content behind it.

The two runs are followed side by side.  A vertex has in the one its text, in the other the content of
it, and its children are the same.  Where the children have the same statistics, an edge has the
same if it adds as many n-grams, and then there is nothing in the way.
-/
import Mathlib
import ForestRescoring.Proofs.Scoring.Counting
import ForestRescoring.Proofs.Scoring.Missing
import ForestRescoring.Proofs.Search.Assignment

namespace ForestRescoring

open scoped List

variable {K : Type}

/-! ## 1. Forests without boundaries -/

/-- The slot holds a sentence boundary. -/
def Slot.isBoundary : Slot → Bool
  | .word w => w.isBoundary
  | .gap _ => false

/-- The edge without boundaries. -/
def Edge.bare (e : Edge K) : Edge K := .ofSlots (e.slots.filter fun s => !s.isBoundary) e.features

/-- The forest without boundaries on its edges. -/
def Forest.bare (f : Forest K) : Forest K := { f with edges := f.edges.map Edge.bare }

variable {f : Forest K} {e : Edge K} {texts : VertexId → List WordId}

theorem Forest.edge?_bare (f : Forest K) (id : EdgeId) :
    f.bare.edge? id = (f.edge? id).map Edge.bare := Array.getElem?_map

theorem slotsText_bare (texts : VertexId → List WordId) (slots : List Slot) :
    slotsText (fun v => content (texts v)) (slots.filter fun s => !s.isBoundary) =
      content (slotsText texts slots) := by
  induction slots with
  | nil => rfl
  | cons slot slots ih =>
    cases slot with
    | word w =>
      by_cases hw : w.isBoundary = true
      · rw [slotsText_word, content_cons_of_boundary hw, ← ih,
          List.filter_cons_of_neg (by simpa [Slot.isBoundary] using hw)]
      · rw [slotsText_word, content_cons_of_word hw, ← ih,
          List.filter_cons_of_pos (by simpa [Slot.isBoundary] using hw), slotsText_word]
    | gap c =>
      rw [slotsText_gap, content_append, ← ih, List.filter_cons_of_pos rfl, slotsText_gap]

/-- **Without boundaries, an edge has the content of its text**, if its children have that of theirs. -/
theorem Edge.text_bare (e : Edge K) (texts : VertexId → List WordId) :
    e.bare.text (fun v => content (texts v)) = content (e.text texts) := by
  rw [text, bare, slots_ofSlots]
  exact slotsText_bare texts e.slots

theorem Edge.children_bare (e : Edge K) : e.bare.children = e.children := by
  rw [bare, children_ofSlots, ← filterMap_child?_slots e]
  induction e.slots with
  | nil => rfl
  | cons slot slots ih =>
    cases slot with
    | word w =>
      by_cases hw : w.isBoundary = true
      · rw [List.filter_cons_of_neg (by simpa [Slot.isBoundary] using hw), ih]
        rfl
      · rw [List.filter_cons_of_pos (by simpa [Slot.isBoundary] using hw)]
        exact ih
    | gap c => exact congrArg (c :: ·) ih

/-- Without boundaries, a text that can be counted still can. -/
theorem Edge.Countable.bare (h : e.Countable texts) :
    e.bare.Countable fun v => content (texts v) := by
  rw [Countable, e.children_bare, e.text_bare]
  exact h.imp_right (Nat.lt_of_le_of_lt (List.length_filter_le _ _))

/-- A text without boundaries is framed. -/
theorem framed_content (ws : List WordId) : Framed (content ws) := by
  intro l s r hws hs
  have hmem : s ∈ content ws := by
    rw [hws]
    exact List.mem_append_right l List.mem_cons_self
  exact absurd hs (content_eq_self_iff.mp (content_content ws) s hmem)

/-- The statistics of a text are those of its content. -/
theorem SentenceReferences.statistics_content (references : SentenceReferences)
    (ws : List WordId) : references.statistics (content ws) = references.statistics ws := by
  show Statistics.ofCounts _ (countNgrams (content (content ws))) = _
  rw [content_content]
  rfl

/-! ## 2. One edge -/

namespace Scorer

variable {s t : Scorer K}

/-- A vertex is fixed in both scorers, with the same statistics. -/
def SameStatistics (s t : Scorer K) (v : VertexId) : Prop :=
  ∃ found found', s.summary v = .ok found ∧ t.summary v = .ok found' ∧
    found.statistics = found'.statistics

/-- The statistics of children are the same where those of each child are. -/
theorem statistics_children_eq {inner inner' : List Summary} {children : List VertexId}
    (h : List.Forall₂ (fun c found => s.summary c = .ok found) children inner)
    (h' : List.Forall₂ (fun c found => t.summary c = .ok found) children inner')
    (hsame : ∀ c ∈ children, SameStatistics s t c) :
    inner.map Summary.statistics = inner'.map Summary.statistics := by
  induction h generalizing inner' with
  | nil => rw [List.forall₂_nil_left_iff.mp h']
  | cons hc _ ih =>
    obtain ⟨found', rest', hc', hrest', rfl⟩ := List.forall₂_cons_left_iff.mp h'
    obtain ⟨hfirst, hrest⟩ := List.forall_mem_cons.mp hsame
    obtain ⟨u, u', hu, hu', heq⟩ := hfirst
    rw [hc] at hu
    rw [hc'] at hu'
    cases hu
    cases hu'
    rw [List.map_cons, List.map_cons, heq, ih hrest' hrest]

theorem joinStatistics_eq (own : Statistics) (inner : List Summary) :
    joinStatistics own inner = (inner.map Summary.statistics).foldl (· + ·) own := by
  rw [joinStatistics, List.foldl_map]

/-- Edges that add statistics with the same totals to the same children add as many n-grams. -/
theorem length_eq_of_joinStatistics_eq {limit limit' : Ngram → ℕ} {gs gs' : List Ngram}
    {inner inner' : List Summary} (hgs : ∀ g ∈ gs, 1 ≤ g.length ∧ g.length ≤ maxOrder)
    (hgs' : ∀ g ∈ gs', 1 ≤ g.length ∧ g.length ≤ maxOrder)
    (hinner : inner.map Summary.statistics = inner'.map Summary.statistics)
    (h : joinStatistics (.ofCounts limit (.ofList gs)) inner =
      joinStatistics (.ofCounts limit' (.ofList gs')) inner') : gs.length = gs'.length := by
  rw [length_eq_sum_countP hgs, length_eq_sum_countP hgs']
  refine congrArg List.sum (List.map_congr_left fun n hn => ?_)
  obtain ⟨h1, h4⟩ := List.mem_range'_1.mp hn
  have h4 : n ≤ maxOrder := by omega
  have hchildren : (inner.map fun c => c.statistics.total n).sum =
      (inner'.map fun c => c.statistics.total n).sum := by
    have hmap := congrArg (List.map fun u : Statistics => u.total n) hinner
    rw [List.map_map, List.map_map] at hmap
    exact congrArg List.sum hmap
  have htotal := congrArg (fun u : Statistics => u.total n) h
  simp only [total_joinStatistics, Statistics.total_ofCounts h1 h4, hchildren] at htotal
  exact Nat.add_right_cancel htotal

variable [Scalar K]

/-- **An edge has the same statistics without its boundaries if and only if they are out of the
way.**  Its children have the same statistics in both scorers, and in the one the content of the
texts that they have in the other. -/
theorem statistics_eq_iff (href : t.references = s.references)
    (hk : ∀ c ∈ e.children, s.Knows texts c)
    (hk' : ∀ c ∈ e.children, t.Knows (fun v => content (texts v)) c)
    (hsame : ∀ c ∈ e.children, SameStatistics s t c) {covered covered' : ℕ} {bleu bleu' : K}
    {statistics statistics' : Statistics} (hs : s.score e covered = .ok (bleu, statistics))
    (ht : t.score e.bare covered' = .ok (bleu', statistics')) :
    statistics = statistics' ↔ ClearSlots texts [] e.slots := by
  obtain ⟨gs, inner, -, hgs, hinner, -, rfl, -⟩ := score_eq_ok_iff.mp hs
  obtain ⟨gs', inner', -, hgs', hinner', -, rfl, -⟩ := score_eq_ok_iff.mp ht
  rw [childSummaries, e.children_bare] at hinner'
  rw [← e.children_bare] at hk'
  have hchildren := statistics_children_eq (mapM_eq_ok_iff.mp hinner) (mapM_eq_ok_iff.mp hinner')
    hsame
  -- without boundaries nothing is missing
  obtain ⟨gs'', hgs'', hperm'⟩ := exists_newNgrams hk' (e.text_bare texts ▸ framed_content _)
  rw [hgs'] at hgs''
  cases hgs''
  rw [e.text_bare, e.children_bare] at hperm'
  simp only [content_content] at hperm'
  constructor
  · intro h
    have hlength : gs.length = gs'.length := length_eq_of_joinStatistics_eq
      (length_of_mem_newNgrams hgs) (length_of_mem_newNgrams hgs') hchildren h
    refine clearSlots_of_length_le hk hgs (Nat.le_of_eq ?_)
    rw [← hperm'.length_eq, List.length_append, List.length_append, hlength]
  · intro hclear
    obtain ⟨gs'', hgs'', hperm⟩ := exists_newNgrams_of_clear hk hclear
    rw [hgs] at hgs''
    cases hgs''
    have hsamegs : gs ~ gs' := (List.perm_append_right_iff _).mp (hperm.trans hperm'.symm)
    rw [joinStatistics_eq, joinStatistics_eq, hchildren, ownStatistics, ownStatistics, href,
      Statistics.ofCounts_perm hsamegs]

end Scorer

/-! ## 3. Runs along an assignment -/

namespace Forest

/-- The text that an assignment gives a vertex, when those of other vertices are given. -/
def assignedText (f : Forest K) (a : Assignment) (texts : VertexId → List WordId) (v : VertexId) :
    List WordId :=
  match (a v).bind f.edge? with
  | none => []
  | some e => e.text texts

/-- Vertices in an order in which they can be fixed as assigned: each of them once, and behind the
children of its edge. -/
structure InOrder (f : Forest K) (a : Assignment) (vs : List VertexId) : Prop where
  nodup : vs.Nodup
  vertex : ∀ v ∈ vs, v < f.vertices.size
  edge : ∀ v ∈ vs, ∀ id, a v = some id → ∃ e, f.edge? id = some e
  children : ∀ before v after, vs = before ++ v :: after →
    ∀ e, (a v).bind f.edge? = some e → ∀ c ∈ e.children, c ∈ before

/-- The texts are those that the assignment gives the vertices. -/
def SpelledBy (f : Forest K) (a : Assignment) (vs : List VertexId)
    (texts : VertexId → List WordId) : Prop :=
  ∀ v ∈ vs, texts v = f.assignedText a texts v

/-- In the edge of a vertex, if it has one, boundaries are out of the way. -/
def ClearAt (f : Forest K) (a : Assignment) (texts : VertexId → List WordId) (v : VertexId) : Prop :=
  ∀ e, (a v).bind f.edge? = some e → Scorer.ClearSlots texts [] e.slots

/-- The edge of a vertex, if it has one, has a text that can be counted. -/
def CountableAt (f : Forest K) (a : Assignment) (texts : VertexId → List WordId) (v : VertexId) :
    Prop :=
  ∀ e, (a v).bind f.edge? = some e → e.Countable texts

variable {a : Assignment} {vs : List VertexId} {v : VertexId}

/-- **The vertices are in order.**  An assignment that leads only back can be followed from the first
vertex to the last. -/
theorem Assigns.inOrder (ha : f.Assigns a) : f.InOrder a (List.range f.vertices.size) where
  nodup := List.nodup_range
  vertex v hv := List.mem_range.mp hv
  edge v hv id hid := by
    obtain ⟨-, e, he, -⟩ := ha.edge v _ id (Array.getElem?_eq_getElem (List.mem_range.mp hv)) hid
    exact ⟨e, he⟩
  children before v after hsplit e he c hc := by
    have hmem : v ∈ List.range f.vertices.size := hsplit ▸ List.mem_append_right _ List.mem_cons_self
    have hlt := List.mem_range.mp hmem
    obtain ⟨id, hid, he⟩ := Option.bind_eq_some_iff.mp he
    obtain ⟨-, e', he', hback⟩ := ha.edge v _ id (Array.getElem?_eq_getElem hlt) hid
    cases he.symm.trans he'
    have hcv : c < v := hback c hc
    have hsorted : (before ++ v :: after).Pairwise (· < ·) := hsplit ▸ List.pairwise_lt_range
    have hlater := (List.pairwise_cons.mp (List.pairwise_append.mp hsorted).2.1).1
    have hc' : c ∈ before ++ v :: after := hsplit ▸ List.mem_range.mpr (hcv.trans hlt)
    rcases List.mem_append.mp hc' with hbefore | hnot
    · exact hbefore
    · rcases List.mem_cons.mp hnot with rfl | hafter
      · exact absurd hcv (lt_irrefl c)
      · exact absurd (hlater c hafter) (lt_asymm hcv)

theorem InOrder.init (h : f.InOrder a (vs ++ [v])) : f.InOrder a vs where
  nodup := (List.nodup_append.mp h.nodup).1
  vertex := fun u hu => h.vertex u (List.mem_append_left _ hu)
  edge := fun u hu => h.edge u (List.mem_append_left _ hu)
  children := by
    rintro before u after rfl e he
    exact h.children before u (after ++ [v]) (by simp) e he

theorem InOrder.notMem (h : f.InOrder a (vs ++ [v])) : v ∉ vs := fun hmem =>
  (List.nodup_append.mp h.nodup).2.2 v hmem v List.mem_cons_self rfl

theorem InOrder.children_last (h : f.InOrder a (vs ++ [v])) {e : Edge K}
    (he : (a v).bind f.edge? = some e) : ∀ c ∈ e.children, c ∈ vs :=
  h.children vs v [] rfl e he

/-- **An assignment gives texts.**  Each text is built from texts that are there already. -/
theorem exists_spelledBy (h : f.InOrder a vs) : ∃ texts, f.SpelledBy a vs texts := by
  induction vs using List.reverseRecOn with
  | nil => exact ⟨fun _ => [], fun v hv => by cases hv⟩
  | append_singleton vs v ih =>
    obtain ⟨texts, htexts⟩ := ih h.init
    refine ⟨Function.update texts v (f.assignedText a texts v), fun u hu => ?_⟩
    -- the new text is no child's
    have hkeeps : ∀ w before after, vs ++ [v] = before ++ w :: after →
        (∀ c ∈ before, c ≠ v) → f.assignedText a (Function.update texts v
          (f.assignedText a texts v)) w = f.assignedText a texts w := by
      intro w before after hw hbefore
      unfold assignedText
      split
      · rfl
      · next e he =>
        refine Edge.text_congr fun c hc => ?_
        exact Function.update_of_ne (hbefore c (h.children before w after hw e he c hc)) _ _
    rcases List.mem_append.mp hu with hu | hu
    · obtain ⟨before, after, rfl⟩ := List.append_of_mem hu
      have hne : ∀ c ∈ before ++ u :: after, c ≠ v := fun c hc heq => h.notMem (heq ▸ hc)
      rw [Function.update_of_ne (hne u hu), hkeeps u before (after ++ [v]) (by simp)
        fun c hc => hne c (List.mem_append_left _ hc)]
      exact htexts u hu
    · rw [List.mem_singleton.mp hu, Function.update_self, hkeeps v vs [] rfl
        fun c hc heq => h.notMem (heq ▸ hc)]

/-- In the edge of a vertex with a framed text all boundaries are out of the way. -/
theorem SpelledBy.clearAt_of_framed (h : f.SpelledBy a vs texts) (hv : v ∈ vs)
    (hf : Framed (texts v)) : f.ClearAt a texts v := by
  intro e he
  rw [h v hv, assignedText, he] at hf
  exact Scorer.clearSlots_of_framed hf

/-- A text that is short enough can be counted. -/
theorem SpelledBy.countableAt_of_lt (h : f.SpelledBy a vs texts) (hv : v ∈ vs)
    (hlt : (texts v).length < Text.countBound) : f.CountableAt a texts v := by
  intro e he
  rw [h v hv, assignedText, he] at hlt
  exact .inr hlt

/-! ## 4. Two scorers side by side -/

variable {s t u : Scorer K}

/-- The scorers of a forest and of the forest without boundaries, with the same vertices fixed. -/
structure Paired (f : Forest K) (texts : VertexId → List WordId) (vs : List VertexId)
    (s t : Scorer K) : Prop where
  references : t.references = s.references
  size : s.summaries.size = f.vertices.size ∧ t.summaries.size = f.vertices.size
  fixed_iff : ∀ v, (s.Fixed v ↔ v ∈ vs) ∧ (t.Fixed v ↔ v ∈ vs)
  knows : ∀ v ∈ vs, s.Knows texts v ∧ t.Knows (fun v => content (texts v)) v
  within : ∀ v ∈ vs, Scorer.WithinText (s.known v).statistics (texts v) ∧
    Scorer.WithinText (t.known v).statistics (content (texts v))

/-- Nothing is fixed in the beginning. -/
theorem paired_start (references : SentenceReferences) (smoothing : K) (f : Forest K)
    (texts : VertexId → List WordId) :
    f.Paired texts [] (.start references smoothing f) (.start references smoothing f.bare) where
  references := rfl
  size := ⟨Array.size_replicate, Array.size_replicate⟩
  fixed_iff v := by
    have hnone : ¬ v ∈ ([] : List VertexId) := List.not_mem_nil
    exact ⟨iff_of_false (Scorer.not_fixed_start references smoothing f v) hnone,
      iff_of_false (Scorer.not_fixed_start references smoothing f.bare v) hnone⟩
  knows v hv := absurd hv List.not_mem_nil
  within v hv := absurd hv List.not_mem_nil

/-- **One more vertex is fixed in both.** -/
theorem Paired.fix (h : f.Paired texts vs s t) {s' t' : Scorer K} {found found' : Summary}
    (hs : s.fix v found = .ok s') (ht : t.fix v found' = .ok t')
    (hfound : found.Describes (texts v) ∧ Scorer.WithinText found.statistics (texts v))
    (hfound' : found'.Describes (content (texts v)) ∧
      Scorer.WithinText found'.statistics (content (texts v))) :
    f.Paired texts (vs ++ [v]) s' t' where
  references := by
    rw [(Scorer.of_fix_eq_ok ht).2.1, (Scorer.of_fix_eq_ok hs).2.1, h.references]
  size := by
    rw [Scorer.size_fix hs, Scorer.size_fix ht]
    exact h.size
  fixed_iff w := by
    rw [Scorer.fixed_fix_iff hs, Scorer.fixed_fix_iff ht, (h.fixed_iff w).1, (h.fixed_iff w).2,
      List.mem_append, List.mem_singleton, or_comm, and_self]
  knows w hw := by
    by_cases hwv : w = v
    · subst hwv
      exact ⟨⟨found, by rw [Scorer.summary_fix hs, if_pos rfl], hfound.1⟩,
        found', by rw [Scorer.summary_fix ht, if_pos rfl], hfound'.1⟩
    · have hmem : w ∈ vs := (List.mem_append.mp hw).resolve_right fun hlast =>
        hwv (List.mem_singleton.mp hlast)
      obtain ⟨⟨u, hu, hdu⟩, u', hu', hdu'⟩ := h.knows w hmem
      exact ⟨⟨u, by rw [Scorer.summary_fix hs, if_neg hwv, hu], hdu⟩,
        u', by rw [Scorer.summary_fix ht, if_neg hwv, hu'], hdu'⟩
  within w hw := by
    rw [Scorer.known_fix hs, Scorer.known_fix ht]
    split
    · next heq =>
      subst heq
      exact ⟨hfound.2, hfound'.2⟩
    · next hwv =>
      exact h.within w ((List.mem_append.mp hw).resolve_right fun hlast =>
        hwv (List.mem_singleton.mp hlast))

/-- What is the same of two vertices stays the same. -/
theorem same_iff_of_fix {s' t' : Scorer K} {found found' : Summary} (hs : s.fix v found = .ok s')
    (ht : t.fix v found' = .ok t') (w : VertexId) : Scorer.SameStatistics s' t' w ↔
      if w = v then found.statistics = found'.statistics else Scorer.SameStatistics s t w := by
  unfold Scorer.SameStatistics
  rw [Scorer.summary_fix hs, Scorer.summary_fix ht]
  split
  · constructor
    · rintro ⟨u, u', hu, hu', heq⟩
      cases hu
      cases hu'
      exact heq
    · exact fun heq => ⟨found, found', rfl, rfl, heq⟩
  · exact Iff.rfl

variable [Scalar K]

/-- Fixes a vertex as assigned: as a leaf, or by its edge, with the statistics that the edge was
scored with. -/
def settle (f : Forest K) (a : Assignment) (s : Scorer K) (v : VertexId) :
    Except SearchError (Scorer K) :=
  match a v with
  | none => s.fixLeaf v
  | some id =>
    match f.vertex? v, f.edge? id with
    | some x, some e => do
      let scored ← s.score e x.sourceCovered
      s.fixEdge v e scored.2
    | _, _ => .error (.unknownEdge id)

/-- Fixes vertices one after the other. -/
def settleAll (f : Forest K) (a : Assignment) (s : Scorer K) (vs : List VertexId) :
    Except SearchError (Scorer K) := vs.foldlM (f.settle a) s

theorem settleAll_concat : f.settleAll a s (vs ++ [v]) = .ok u ↔
    ∃ t, f.settleAll a s vs = .ok t ∧ f.settle a t v = .ok u := by
  rw [settleAll, List.foldlM_append, bind_eq_ok_iff]
  refine exists_congr fun t => and_congr Iff.rfl ?_
  rw [List.foldlM_cons, bind_eq_ok_iff]
  constructor
  · rintro ⟨t', ht', h⟩
    cases h
    exact ht'
  · exact fun h => ⟨u, h, rfl⟩

/-- A vertex without an edge is settled as a leaf. -/
theorem exists_settle_leaf (hid : a v = none) (hfree : v < s.summaries.size ∧ ¬ s.Fixed v) :
    ∃ s', f.settle a s v = .ok s' ∧ s.fix v .empty = .ok s' := by
  obtain ⟨s', hs'⟩ : ∃ s', s.fix v .empty = .ok s' := Scorer.exists_fix_iff.mpr hfree
  refine ⟨s', ?_, hs'⟩
  rw [settle, hid]
  exact hs'

/-- A vertex with an edge is settled by it, once the children are, if its text can be counted, with a
summary of that text. -/
theorem exists_settle_edge {id : EdgeId} {x : Vertex} (hid : a v = some id)
    (hx : f.vertex? v = some x) (he : f.edge? id = some e)
    (hk : ∀ c ∈ e.children, s.Knows texts c)
    (hsum : ∀ c ∈ e.children, Scorer.WithinText (s.known c).statistics (texts c))
    (hcount : e.Countable texts) (hfree : v < s.summaries.size ∧ ¬ s.Fixed v) :
    ∃ s' found bleu, f.settle a s v = .ok s' ∧ s.fix v found = .ok s' ∧
      (found.Describes (e.text texts) ∧ Scorer.WithinText found.statistics (e.text texts)) ∧
      s.score e x.sourceCovered = .ok (bleu, found.statistics) := by
  obtain ⟨bleu, statistics, hscore⟩ := (Scorer.score_outcome hk hsum x.sourceCovered).1 hcount
  obtain ⟨hfixed, hlength, -⟩ := Scorer.exists_score_iff.mp ⟨_, hscore⟩
  obtain ⟨s', hs'⟩ : ∃ s', s.fixEdge v e statistics = .ok s' :=
    Scorer.exists_fixEdge_iff.mpr ⟨hfixed, hlength, hfree⟩
  obtain ⟨found, hfound, hdescribes, rfl⟩ := Scorer.exists_fix_of_fixEdge hk hs'
  have hwithin := Scorer.withinText_exactStatistics hk hsum
  rw [← Scorer.exactStatistics_of_score hscore] at hwithin
  refine ⟨s', found, bleu, ?_, hfound, ⟨hdescribes, hwithin⟩, hscore⟩
  rw [settle, hid]
  dsimp only
  rw [hx, he]
  exact bind_eq_ok_iff.mpr ⟨_, hscore, hs'⟩

/-- If its text cannot be counted, settling the vertex overflows. -/
theorem settle_eq_overflow {id : EdgeId} {x : Vertex} (hid : a v = some id)
    (hx : f.vertex? v = some x) (he : f.edge? id = some e)
    (hk : ∀ c ∈ e.children, s.Knows texts c)
    (hsum : ∀ c ∈ e.children, Scorer.WithinText (s.known c).statistics (texts c))
    (hcount : ¬ e.Countable texts) : f.settle a s v = .error .overflow := by
  rw [settle, hid]
  dsimp only
  rw [hx, he]
  exact bind_eq_error_iff.mpr (.inl ((Scorer.score_outcome hk hsum x.sourceCovered).2 hcount))

/-- **One more vertex is settled in both**, and it has the same statistics if and only if its edge has no
boundaries in the way, provided that those in front of it have. -/
theorem Paired.exists_settle (h : f.Paired texts vs s t) (hvs : f.InOrder a (vs ++ [v]))
    (hv : texts v = f.assignedText a texts v) (hcount : f.CountableAt a texts v) :
    ∃ s' t' found found', f.settle a s v = .ok s' ∧ f.bare.settle a t v = .ok t' ∧
      s.fix v found = .ok s' ∧ t.fix v found' = .ok t' ∧
      (found.Describes (texts v) ∧ Scorer.WithinText found.statistics (texts v)) ∧
      (found'.Describes (content (texts v)) ∧
        Scorer.WithinText found'.statistics (content (texts v))) ∧
      ((∀ c ∈ vs, Scorer.SameStatistics s t c) →
        (found.statistics = found'.statistics ↔ f.ClearAt a texts v)) := by
  have hlast : v ∈ vs ++ [v] := List.mem_append_right vs List.mem_cons_self
  have hlt := hvs.vertex v hlast
  have hfree : v < s.summaries.size ∧ ¬ s.Fixed v :=
    ⟨h.size.1 ▸ hlt, fun hfixed => hvs.notMem ((h.fixed_iff v).1.mp hfixed)⟩
  have hfree' : v < t.summaries.size ∧ ¬ t.Fixed v :=
    ⟨h.size.2 ▸ hlt, fun hfixed => hvs.notMem ((h.fixed_iff v).2.mp hfixed)⟩
  cases hid : a v with
  | none =>
    have htext : texts v = [] := by rw [hv, assignedText, hid]; rfl
    obtain ⟨s', hs, hs'⟩ := exists_settle_leaf hid hfree
    obtain ⟨t', ht, ht'⟩ := exists_settle_leaf hid hfree'
    rw [htext]
    refine ⟨s', t', .empty, .empty, hs, ht, hs', ht',
      ⟨Summary.describes_empty, Scorer.withinText_zero⟩,
      ⟨Summary.describes_empty, Scorer.withinText_zero⟩, fun _ => ⟨fun _ e he => ?_, fun _ => rfl⟩⟩
    rw [hid] at he
    cases he
  | some id =>
    obtain ⟨e, he⟩ := hvs.edge v hlast id hid
    have hedge : (a v).bind f.edge? = some e := by rw [hid]; exact he
    have he' : f.bare.edge? id = some e.bare := by rw [f.edge?_bare, he]; rfl
    have hx : f.vertex? v = some f.vertices[v] := Array.getElem?_eq_getElem hlt
    have htext : texts v = e.text texts := by rw [hv, assignedText, hedge]
    have hchildren := hvs.children_last hedge
    have hk : ∀ c ∈ e.children, s.Knows texts c := fun c hc => (h.knows c (hchildren c hc)).1
    have hk' : ∀ c ∈ e.children, t.Knows (fun v => content (texts v)) c :=
      fun c hc => (h.knows c (hchildren c hc)).2
    obtain ⟨s', found, bleu, hs, hs', hd, hscore⟩ := exists_settle_edge hid hx he hk
      (fun c hc => (h.within c (hchildren c hc)).1) (hcount e hedge) hfree
    obtain ⟨t', found', bleu', ht, ht', hd', hscore'⟩ := exists_settle_edge (f := f.bare) hid hx he'
      (e.children_bare ▸ hk') (e.children_bare ▸ fun c hc => (h.within c (hchildren c hc)).2)
      (hcount e hedge).bare hfree'
    rw [e.text_bare] at hd'
    rw [htext]
    refine ⟨s', t', found, found', hs, ht, hs', ht', hd, hd', fun hsame => ?_⟩
    rw [Scorer.statistics_eq_iff h.references hk hk' (fun c hc => hsame c (hchildren c hc)) hscore
      hscore']
    constructor
    · intro hclear e' he'
      rw [hedge] at he'
      cases he'
      exact hclear
    · exact fun hclear => hclear e hedge

/-- **Both runs come to their end**, if all texts can be counted. -/
theorem exists_settleAll (references : SentenceReferences) (smoothing : K) (f : Forest K)
    (hvs : f.InOrder a vs) (htexts : f.SpelledBy a vs texts)
    (hcount : ∀ v ∈ vs, f.CountableAt a texts v) :
    ∃ s t, f.settleAll a (.start references smoothing f) vs = .ok s ∧
      f.bare.settleAll a (.start references smoothing f.bare) vs = .ok t ∧
      f.Paired texts vs s t ∧
      ((∀ v ∈ vs, Scorer.SameStatistics s t v) ↔ ∀ v ∈ vs, f.ClearAt a texts v) := by
  induction vs using List.reverseRecOn with
  | nil =>
    exact ⟨_, _, rfl, rfl, paired_start references smoothing f texts,
      iff_of_true (List.forall_mem_nil _) (List.forall_mem_nil _)⟩
  | append_singleton vs v ih =>
    have hv : v ∈ vs ++ [v] := List.mem_append_right vs List.mem_cons_self
    obtain ⟨s, t, hs, ht, hpaired, hiff⟩ := ih hvs.init
      (fun u hu => htexts u (List.mem_append_left _ hu))
      fun u hu => hcount u (List.mem_append_left _ hu)
    obtain ⟨s', t', found, found', hs', ht', hfix, hfix', hd, hd', hlast⟩ :=
      hpaired.exists_settle hvs (htexts v hv) (hcount v hv)
    refine ⟨s', t', settleAll_concat.mpr ⟨s, hs, hs'⟩, settleAll_concat.mpr ⟨t, ht, ht'⟩,
      hpaired.fix hfix hfix' hd hd', ?_⟩
    have hold : ∀ u ∈ vs, (Scorer.SameStatistics s' t' u ↔ Scorer.SameStatistics s t u) := by
      intro u hu
      have hne : u ≠ v := fun heq => hvs.notMem (heq ▸ hu)
      rw [same_iff_of_fix hfix hfix', if_neg hne]
    have hnew : Scorer.SameStatistics s' t' v ↔ found.statistics = found'.statistics := by
      rw [same_iff_of_fix hfix hfix', if_pos rfl]
    rw [List.forall_mem_append, List.forall_mem_append, List.forall_mem_singleton,
      List.forall_mem_singleton, forall₂_congr hold, hnew, ← hiff]
    exact and_congr_right hlast

/-- **The first text that cannot be counted overflows.** -/
theorem settleAll_eq_overflow (references : SentenceReferences) (smoothing : K) (f : Forest K)
    (hvs : f.InOrder a vs) (htexts : f.SpelledBy a vs texts)
    (hcount : ¬ ∀ v ∈ vs, f.CountableAt a texts v) :
    f.settleAll a (.start references smoothing f) vs = .error .overflow := by
  induction vs using List.reverseRecOn with
  | nil => exact absurd (List.forall_mem_nil _) hcount
  | append_singleton vs v ih =>
    have htexts' : f.SpelledBy a vs texts := fun u hu => htexts u (List.mem_append_left _ hu)
    rw [settleAll, List.foldlM_append, ← settleAll]
    by_cases hfront : ∀ u ∈ vs, f.CountableAt a texts u
    · obtain ⟨s, t, hs, -, hpaired, -⟩ := exists_settleAll references smoothing f hvs.init htexts'
        hfront
      rw [List.forall_mem_append, List.forall_mem_singleton, and_iff_right hfront] at hcount
      obtain ⟨e, he⟩ := not_forall.mp hcount
      obtain ⟨hedge, hlong⟩ := Classical.not_imp.mp he
      obtain ⟨id, hid, hfound⟩ := Option.bind_eq_some_iff.mp hedge
      have hlt := hvs.vertex v (List.mem_append_right vs List.mem_cons_self)
      have hchildren := hvs.children_last hedge
      have hover : f.settle a s v = .error .overflow :=
        settle_eq_overflow hid (Array.getElem?_eq_getElem hlt) hfound
          (fun c hc => (hpaired.knows c (hchildren c hc)).1)
          (fun c hc => (hpaired.within c (hchildren c hc)).1) hlong
      rw [hs]
      exact bind_eq_error_iff.mpr (.inr ⟨s, rfl, bind_eq_error_iff.mpr (.inl hover)⟩)
    · rw [ih hvs.init htexts' hfront]
      rfl

/-! ## 5. The main result -/

/-- **Boundaries show in the statistics if and only if they are in the way.**  Fixed bottom-up along
the same edges, a forest and the forest without its boundaries come to scorers that have the same
statistics for all vertices if and only if in no edge that was used a boundary is in the way.  Only if
the text of such an edge is too long to be counted, the forest does not come to a scorer.  And whole
texts have the statistics of their content. -/
theorem same_statistics_iff (references : SentenceReferences) (smoothing : K) (f : Forest K)
    (hvs : f.InOrder a vs) :
    (∃ texts, f.SpelledBy a vs texts) ∧
    (∀ texts, f.SpelledBy a vs texts →
      ((∀ v ∈ vs, f.CountableAt a texts v) →
        ∃ s t, f.settleAll a (.start references smoothing f) vs = .ok s ∧
          f.bare.settleAll a (.start references smoothing f.bare) vs = .ok t ∧
          ((∀ v ∈ vs, Scorer.SameStatistics s t v) ↔ ∀ v ∈ vs, f.ClearAt a texts v)) ∧
      (¬ (∀ v ∈ vs, f.CountableAt a texts v) →
        f.settleAll a (.start references smoothing f) vs = .error .overflow)) ∧
    ∀ ws, references.statistics (content ws) = references.statistics ws := by
  refine ⟨exists_spelledBy hvs, fun texts htexts => ⟨fun hcount => ?_, ?_⟩,
    references.statistics_content⟩
  · obtain ⟨s, t, hs, ht, -, hiff⟩ := exists_settleAll references smoothing f hvs htexts hcount
    exact ⟨s, t, hs, ht, hiff⟩
  · exact settleAll_eq_overflow references smoothing f hvs htexts

namespace Sample

/-- The phrase, the empty text and the sentence. -/
def assignment : Assignment
  | 0 => some 0
  | 1 => none
  | _ => some 1

def spelled : VertexId → List WordId
  | 0 => [⟨2⟩, ⟨3⟩, ⟨2⟩]
  | 1 => []
  | _ => [⟨0⟩, ⟨3⟩, ⟨2⟩, ⟨3⟩, ⟨2⟩, ⟨2⟩, ⟨3⟩, ⟨2⟩, ⟨1⟩]

theorem assigns_forest : Scorer.Sample.forest.Assigns assignment where
  eq_none_iff := by
    rintro (_ | _ | _ | v) x hx
    · cases hx
      decide
    · cases hx
      decide
    · cases hx
      decide
    · cases hx
  edge := by
    rintro (_ | _ | _ | v) x id hx hid
    · cases hx
      cases hid
      exact ⟨List.mem_cons_self, _, rfl, by decide⟩
    · cases hid
    · cases hx
      cases hid
      exact ⟨List.mem_cons_self, _, rfl, by decide⟩
    · cases hx

end Sample

/-- The boundaries of a whole sentence are out of the way. -/
theorem same_statistics_sentence :
    Scorer.Sample.forest.InOrder Sample.assignment [0, 1, 2] ∧
    ∃ s t, Scorer.Sample.forest.settleAll Sample.assignment
        (.start (Scorer.Sample.corpus.sentence 0) 0 Scorer.Sample.forest) [0, 1, 2] = .ok s ∧
      Scorer.Sample.forest.bare.settleAll Sample.assignment
        (.start (Scorer.Sample.corpus.sentence 0) 0 Scorer.Sample.forest.bare) [0, 1, 2] = .ok t ∧
      ∀ v ∈ [0, 1, 2], Scorer.SameStatistics s t v := by
  have hvs : Scorer.Sample.forest.InOrder Sample.assignment [0, 1, 2] :=
    Sample.assigns_forest.inOrder
  refine ⟨hvs, ?_⟩
  obtain ⟨-, hruns, -⟩ := same_statistics_iff (Scorer.Sample.corpus.sentence 0) 0
    Scorer.Sample.forest hvs
  have hspelled : Scorer.Sample.forest.SpelledBy Sample.assignment [0, 1, 2] Sample.spelled := by
    unfold SpelledBy
    decide
  have hframed : ∀ v ∈ [0, 1, 2], Framed (Sample.spelled v) := by decide
  have hshort : ∀ v ∈ [0, 1, 2], (Sample.spelled v).length < Text.countBound := by decide
  obtain ⟨s, t, hs, ht, hiff⟩ := (hruns _ hspelled).1 fun v hv =>
    hspelled.countableAt_of_lt hv (hshort v hv)
  exact ⟨s, t, hs, ht, hiff.mpr fun v hv => hspelled.clearAt_of_framed hv (hframed v hv)⟩

/-! ## 6. A word in front of a boundary -/

namespace Sample

/-- The word x in front of a vertex with the text `<s> a`. -/
def prefixed : Forest Float :=
  ⟨2, 2, #[⟨[0], 0⟩, ⟨[1], 0⟩],
    #[.ofSlots [.word .sentenceStart, .word ⟨2⟩] .empty, .ofSlots [.word ⟨3⟩, .gap 0] .empty]⟩

/-- The edge that has the number of the vertex. -/
def sameNumber : Assignment := some

theorem assigns_prefixed : prefixed.Assigns sameNumber where
  eq_none_iff := by
    rintro (_ | _ | v) x hx
    · cases hx
      decide
    · cases hx
      decide
    · cases hx
  edge := by
    rintro (_ | _ | v) x id hx hid
    · cases hx
      cases hid
      exact ⟨List.mem_cons_self, _, rfl, by decide⟩
    · cases hx
      cases hid
      exact ⟨List.mem_cons_self, _, rfl, by decide⟩
    · cases hx

/-- The statistics of a vertex behind a run. -/
def statisticsBehind (run : Except SearchError (Scorer Float)) (v : VertexId) :
    Except SearchError Statistics := do
  let s ← run
  let found ← s.summary v
  return found.statistics

theorem exists_of_statisticsBehind {run : Except SearchError (Scorer Float)} {v : VertexId}
    {statistics : Statistics} (h : statisticsBehind run v = .ok statistics) :
    ∃ s found, run = .ok s ∧ s.summary v = .ok found ∧ found.statistics = statistics := by
  obtain ⟨s, hs, h⟩ := bind_eq_ok_iff.mp h
  obtain ⟨found, hfound, h⟩ := bind_eq_ok_iff.mp h
  exact ⟨s, found, hs, hfound, Except.ok.inj h⟩

end Sample

/-- **A boundary hides a bigram.**  In `x <s> a` the boundary takes the place of the first word of the
child, and the bigram of x and a ends on the second, so it seems to lie inside the child.  Without
the boundary it is counted. -/
theorem boundary_hides_bigram :
    Sample.prefixed.Assigns Sample.sameNumber ∧
    ∃ s t found found',
      Sample.prefixed.settleAll Sample.sameNumber (.start .empty 0 Sample.prefixed) [0, 1] = .ok s ∧
      Sample.prefixed.bare.settleAll Sample.sameNumber (.start .empty 0 Sample.prefixed.bare)
        [0, 1] = .ok t ∧
      s.summary 1 = .ok found ∧ found.statistics.total 2 = 0 ∧
      t.summary 1 = .ok found' ∧ found'.statistics.total 2 = 1 ∧
      ¬ Scorer.SameStatistics s t 1 := by
  have hrun : Sample.statisticsBehind (Sample.prefixed.settleAll Sample.sameNumber
      (.start .empty 0 Sample.prefixed) [0, 1]) 1 =
      .ok ⟨⟨0, 2⟩, ⟨0, 0⟩, ⟨0, 0⟩, ⟨0, 0⟩⟩ := by decide +kernel
  have hrun' : Sample.statisticsBehind (Sample.prefixed.bare.settleAll Sample.sameNumber
      (.start .empty 0 Sample.prefixed.bare) [0, 1]) 1 =
      .ok ⟨⟨0, 2⟩, ⟨0, 1⟩, ⟨0, 0⟩, ⟨0, 0⟩⟩ := by decide +kernel
  obtain ⟨s, found, hs, hfound, hstatistics⟩ := Sample.exists_of_statisticsBehind hrun
  obtain ⟨t, found', ht, hfound', hstatistics'⟩ := Sample.exists_of_statisticsBehind hrun'
  refine ⟨Sample.assigns_prefixed, s, t, found, found', hs, ht, hfound, ?_, hfound', ?_, ?_⟩
  · rw [hstatistics]
    rfl
  · rw [hstatistics']
    rfl
  · rintro ⟨u, u', hu, hu', heq⟩
    cases hfound.symm.trans hu
    cases hfound'.symm.trans hu'
    rw [hstatistics, hstatistics'] at heq
    exact absurd heq (by decide)

end Forest

end ForestRescoring
