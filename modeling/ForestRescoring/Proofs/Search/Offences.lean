/-
# When a search fails

A search needs a forest in bottom-up order: each edge of a vertex exists, and its children come
before the vertex.  Whatever is against that is an offence, and a forest has a row of them: vertex by
vertex, edge by edge, and at an edge that exists child by child (`Forest.offences`).

A search fails if there is no vertex, or if there is an offence, and then it reports the first one,
whatever the references are.  There is one thing else that can happen, and only with a BLEU term: a
sum of the scorer overflows.  Then the forest has a text of at least `2 ^ 64` words
(`Forest.Overlong`), which a short file can spell by doubling (`Forest.accepted_overflows`).

The scorer that is asked on the way could fail for other reasons too.  It does not, because it is in
step with the table (`Search.Sweep.Ready`): the vertices that were visited are fixed, each as the text
of a derivation that it has, the others are not, and an edge is scored and fixed only after each child
was found in the table.
-/
import Mathlib
import ForestRescoring.Proofs.Forest.Soundness
import ForestRescoring.Proofs.Scoring.Progress
import ForestRescoring.Proofs.Search.BestDerivation

namespace ForestRescoring

variable {K : Type}

/-! ## 1. Offences -/

namespace Forest

/-- What is wrong with an edge of the vertex `v`: that it does not exist, or else each child that
does not come before `v`. -/
def edgeOffences (f : Forest K) (v : VertexId) (id : EdgeId) : List SearchError :=
  match f.edge? id with
  | none => [.unknownEdge id]
  | some e => (e.children.filter fun c => v ≤ c).map (.notBottomUp v)

/-- What is wrong with the edges of a vertex. -/
def vertexOffences (f : Forest K) (v : VertexId) (x : Vertex) : List SearchError :=
  x.incoming.flatMap (f.edgeOffences v)

/-- What is wrong with the vertices of a forest. -/
def offences (f : Forest K) : List SearchError :=
  f.vertices.toList.zipIdx.flatMap fun p => f.vertexOffences p.2 p.1

/-- Every edge of a vertex exists, and uses earlier vertices only. -/
def BottomUp (f : Forest K) : Prop :=
  ∀ v x, f.vertex? v = some x → ∀ id ∈ x.incoming,
    ∃ e, f.edge? id = some e ∧ ∀ c ∈ e.children, c < v

variable {f : Forest K}

theorem edgeOffences_eq_nil_iff {v : VertexId} {id : EdgeId} :
    f.edgeOffences v id = [] ↔ ∃ e, f.edge? id = some e ∧ ∀ c ∈ e.children, c < v := by
  unfold edgeOffences
  cases f.edge? id with
  | none => simp
  | some e => simp

/-- **Bottom-up order is the absence of offences.** -/
theorem offences_eq_nil_iff : f.offences = [] ↔ f.BottomUp := by
  simp only [offences, vertexOffences, BottomUp, List.flatMap_eq_nil_iff, edgeOffences_eq_nil_iff,
    vertex?, ← Array.getElem?_toList, Prod.forall, List.mem_zipIdx_iff_getElem?]
  exact forall_comm

/-- Offences are of two kinds. -/
theorem of_mem_offences {cause : SearchError} (h : cause ∈ f.offences) :
    (∃ id, cause = .unknownEdge id) ∨ ∃ v c, cause = .notBottomUp v c := by
  simp only [offences, vertexOffences, List.mem_flatMap] at h
  obtain ⟨p, -, id, -, hcause⟩ := h
  unfold edgeOffences at hcause
  split at hcause
  · exact Or.inl ⟨id, List.mem_singleton.mp hcause⟩
  · obtain ⟨c, -, rfl⟩ := List.mem_map.mp hcause
    exact Or.inr ⟨p.2, c, rfl⟩

end Forest

/-! ## 2. Long texts -/

/-- Some edge with children has a text whose length no machine word holds. -/
def Forest.Overlong (f : Forest K) : Prop :=
  ∃ v id features target e, f.Derives v (.node id features target) ∧ f.edge? id = some e ∧
    e.children ≠ [] ∧ Text.countBound ≤ target.yield.length

/-- A number for each vertex that is at least the length of the texts that its edges make of texts
within the numbers of their children. -/
def Forest.Bounds (f : Forest K) (bound : VertexId → ℕ) : Prop :=
  ∀ v x, f.vertex? v = some x → ∀ id ∈ x.incoming, ∀ e, f.edge? id = some e →
    e.literalCount + (e.children.map bound).sum ≤ bound v

mutual

/-- **Texts stay within such numbers.** -/
theorem Forest.Derives.length_le {f : Forest K} {bound : VertexId → ℕ} (hb : f.Bounds bound)
    {v : VertexId} {d : Derivation K} (h : f.Derives v d) : d.yield.length ≤ bound v := by
  cases h with
  | leaf => exact Nat.zero_le _
  | @node _ x id e target hv hid he ht =>
    have hslots := ht.length_le hb
    rw [Edge.filterMap_child?_slots] at hslots
    exact hslots.trans (hb v x hv id hid e he)

theorem Forest.Fills.length_le {f : Forest K} {bound : VertexId → ℕ} (hb : f.Bounds bound)
    {slots : List Slot} {target : Target K} (h : f.Fills slots target) :
    target.yield.length ≤ slots.countP (fun slot => slot.child?.isNone) +
      ((slots.filterMap Slot.child?).map bound).sum := by
  cases h with
  | done => exact Nat.zero_le _
  | @word w slots rest h =>
    have hrest := h.length_le hb
    rw [Target.yield, List.length_cons, List.countP_cons_of_pos rfl, List.filterMap_cons_none rfl]
    omega
  | @part c inner slots rest hd h =>
    have hinner := hd.length_le hb
    have hrest := h.length_le hb
    rw [Target.yield, List.length_append, List.countP_cons_of_neg (by simp [Slot.child?]),
      List.filterMap_cons_some (f := Slot.child?) rfl, List.map_cons, List.sum_cons]
    omega

end

/-- Small numbers rule out long texts. -/
theorem Forest.Bounds.not_overlong {f : Forest K} {bound : VertexId → ℕ} (hb : f.Bounds bound)
    (hsmall : ∀ v, bound v < Text.countBound) : ¬ f.Overlong := by
  rintro ⟨v, id, features, target, e, hd, -, -, hlong⟩
  exact absurd (hlong.trans (hd.length_le hb)) (Nat.not_le.mpr (hsmall v))

/-- The text of a target side is that of its slots, when each gap has the text of its derivation. -/
theorem yield_fillSlots (pick : VertexId → Derivation K) (slots : List Slot) :
    (fillSlots pick slots).yield = slotsText (fun c => (pick c).yield) slots := by
  induction slots with
  | nil => rfl
  | cons slot slots ih =>
    cases slot with
    | word w => rw [fillSlots, Target.yield, ih, slotsText_word]
    | gap c => rw [fillSlots, Target.yield, ih, slotsText_gap]

namespace Search

/-! ## 3. A scorer in step -/

/-- The vertices before the `n`-th are fixed and no others, each as the text of the derivation that
follows an assignment. -/
structure InStep (f : Forest K) (a : Assignment) (n : ℕ) (scorer : Scorer K) : Prop where
  size : scorer.summaries.size = f.vertices.size
  fixed_iff : ∀ v, scorer.Fixed v ↔ v < n
  unfolds : ∀ v found, scorer.summary v = .ok found → ∃ d, f.Derives v d ∧ f.Unfolds a v d ∧
    found.Describes d.yield ∧ Scorer.WithinText found.statistics d.yield

variable {f : Forest K} {a : Assignment} {n : ℕ} {scorer t : Scorer K} {x : Vertex} {id : EdgeId}
  {e : Edge K}

/-- A scorer is in step before anything is fixed. -/
theorem inStep_start (references : SentenceReferences) (smoothing : K) (f : Forest K)
    (a : Assignment) : InStep f a 0 (.start references smoothing f) where
  size := Array.size_replicate
  fixed_iff := fun v => ⟨fun hv => absurd hv (Scorer.not_fixed_start _ _ _ v),
    fun hv => absurd hv (Nat.not_lt_zero v)⟩
  unfolds := fun v found hv => absurd ⟨found, hv⟩ (Scorer.not_fixed_start _ _ _ v)

/-- What later vertices are assigned does not matter. -/
theorem InStep.congr (h : InStep f a n scorer) {b : Assignment} (hab : ∀ v < n, b v = a v)
    (ha : ∀ v id e, a v = some id → f.edge? id = some e → ∀ c ∈ e.children, c < v) :
    InStep f b n scorer where
  size := h.size
  fixed_iff := h.fixed_iff
  unfolds := by
    intro v found hv
    obtain ⟨d, hd, hunfolds, hfound⟩ := h.unfolds v found hv
    exact ⟨d, hd, hunfolds.congr hab ha ((h.fixed_iff v).mp ⟨found, hv⟩), hfound⟩

/-- The next vertex is fixed as the text of a derivation. -/
theorem InStep.fix (h : InStep f a n scorer) {found : Summary} {d : Derivation K}
    (hd : f.Derives n d) (hunfolds : f.Unfolds a n d) (hdescribes : found.Describes d.yield)
    (hwithin : Scorer.WithinText found.statistics d.yield) (ht : scorer.fix n found = .ok t) :
    InStep f a (n + 1) t where
  size := (Scorer.size_fix ht).trans h.size
  fixed_iff := fun v => by
    rw [Scorer.fixed_fix_iff ht, h.fixed_iff, Nat.lt_succ_iff_lt_or_eq, or_comm]
  unfolds := by
    intro v found' hv
    rw [Scorer.summary_fix ht] at hv
    split at hv
    · next heq =>
      cases hv
      exact ⟨d, heq ▸ hd, heq ▸ hunfolds, hdescribes, hwithin⟩
    · exact h.unfolds v found' hv

/-- The children of an edge of the next vertex have derivations, which the scorer knows. -/
theorem InStep.exists_pick (h : InStep f a n scorer) (hchildren : ∀ c ∈ e.children, c < n) :
    ∃ pick : VertexId → Derivation K,
      (∀ c ∈ e.children, f.Derives c (pick c)) ∧ (∀ c ∈ e.children, f.Unfolds a c (pick c)) ∧
      (∀ c ∈ e.children, scorer.Knows (fun c => (pick c).yield) c) ∧
      ∀ c ∈ e.children, Scorer.WithinText (scorer.known c).statistics (pick c).yield := by
  have hderives : ∀ c ∈ e.children, ∃ d, f.Derives c d ∧ f.Unfolds a c d ∧
      (∃ found, scorer.summary c = .ok found ∧ found.Describes d.yield) ∧
      Scorer.WithinText (scorer.known c).statistics d.yield := by
    intro c hc
    obtain ⟨found, hfound⟩ := (h.fixed_iff c).mpr (hchildren c hc)
    obtain ⟨d, hd, hunfolds, hdescribes, hwithin⟩ := h.unfolds c found hfound
    rw [Scorer.known_eq hfound]
    exact ⟨d, hd, hunfolds, ⟨found, hfound, hdescribes⟩, hwithin⟩
  choose! pick hpick hunfolds hknows hwithin using hderives
  exact ⟨pick, hpick, hunfolds, hknows, hwithin⟩

section

variable [Scalar K]

/-- **Scoring an edge of the next vertex overflows at most**, and only where the edge has a text that
is too long. -/
theorem InStep.score_outcome (h : InStep f a n scorer) (hx : f.vertex? n = some x)
    (hid : id ∈ x.incoming) (he : f.edge? id = some e) (hchildren : ∀ c ∈ e.children, c < n)
    (covered : ℕ) : (∃ found, scorer.score e covered = .ok found) ∨
      f.Overlong ∧ scorer.score e covered = .error .overflow := by
  obtain ⟨pick, hpick, -, hknows, hwithin⟩ := h.exists_pick hchildren
  obtain ⟨hok, hover⟩ := Scorer.score_outcome hknows hwithin covered
  by_cases hcount : e.Countable fun c => (pick c).yield
  · obtain ⟨bleu, statistics, hscore⟩ := hok hcount
    exact .inl ⟨_, hscore⟩
  · obtain ⟨hparts, hlong⟩ := not_or.mp hcount
    have hfills := Forest.fills_fillSlots (Edge.forall_gap_iff.mpr hpick)
    refine .inr ⟨⟨n, id, _, _, e, .node hx hid he hfills, he, hparts, ?_⟩, hover hcount⟩
    rw [yield_fillSlots]
    exact Nat.le_of_not_lt hlong

/-- Fixing the next vertex by its edge, when that was scored, keeps in step. -/
theorem InStep.fixEdge (h : InStep f a n scorer) (hx : f.vertex? n = some x)
    (hid : id ∈ x.incoming) (he : f.edge? id = some e) (hn : a n = some id) {covered : ℕ}
    {bleu : K} {statistics : Statistics} (hscore : scorer.score e covered = .ok (bleu, statistics))
    (ht : scorer.fixEdge n e statistics = .ok t) : InStep f a (n + 1) t := by
  have hchildren : ∀ c ∈ e.children, c < n := fun c hc =>
    (h.fixed_iff c).mp (Scorer.fixed_of_score hscore c hc)
  obtain ⟨pick, hpick, hunfolds, hknows, hwithin⟩ := h.exists_pick hchildren
  obtain ⟨found, hfix, hdescribes, hstatistics⟩ := Scorer.exists_fix_of_fixEdge hknows ht
  have hyield : (Derivation.node id e.features (fillSlots pick e.slots)).yield =
      e.text fun c => (pick c).yield := yield_fillSlots pick e.slots
  refine h.fix (.node hx hid he (Forest.fills_fillSlots (Edge.forall_gap_iff.mpr hpick)))
    (.node hn he (Forest.unfoldsSlots_fillSlots (Edge.forall_gap_iff.mpr hunfolds))) ?_ ?_ hfix
  · rwa [hyield]
  · rw [hyield, hstatistics, Scorer.exactStatistics_of_score hscore]
    exact Scorer.withinText_exactStatistics hknows hwithin

/-- Fixing the next vertex by an edge that was scored succeeds. -/
theorem InStep.exists_fixEdge (h : InStep f a n scorer) (hn : n < f.vertices.size) {covered : ℕ}
    {found : K × Statistics} (hscore : scorer.score e covered = .ok found) (statistics : Statistics) :
    ∃ t, scorer.fixEdge n e statistics = .ok t := by
  obtain ⟨hfixed, hlength, -⟩ := Scorer.exists_score_iff.mp ⟨found, hscore⟩
  refine Scorer.exists_fixEdge_iff.mpr ⟨hfixed, hlength, ?_, ?_⟩
  · rwa [h.size]
  · rw [h.fixed_iff]
    exact Nat.lt_irrefl n

/-! ## 4. One visit -/

variable {o : Objective K} {references : SentenceReferences} {s s' : Sweep f}

/-- The scorer of a sweep, if there is one, is in step with the vertices that were visited; and there
is one only if the BLEU term has a weight. -/
def Sweep.Ready (o : Objective K) (s : Sweep f) : Prop :=
  ∀ scorer, s.scorer = some scorer →
    Scalar.isZero o.bleuWeight ≠ true ∧ InStep f s.table.chosen s.table.size scorer

/-- A search overflows at most with a BLEU term and a text that is too long. -/
def MayOverflow (o : Objective K) (f : Forest K) : Prop :=
  Scalar.isZero o.bleuWeight ≠ true ∧ f.Overlong

/-- Adding scores fails for the first child that was not visited. -/
theorem failure?_addScores (s : Sweep f) (score : K) (children : List VertexId) :
    failure? (s.addScores score children) =
      ((children.filter fun c => s.table.size ≤ c).map (.notBottomUp s.table.size)).head? := by
  induction children generalizing score with
  | nil => rfl
  | cons c rest ih =>
    unfold Sweep.addScores Sweep.child
    by_cases hc : s.table.size ≤ c
    · rw [Array.getElem?_eq_none hc, List.filter_cons_of_pos (by simpa using hc)]
      rfl
    · rw [Array.getElem?_eq_getElem (Nat.lt_of_not_le hc),
        List.filter_cons_of_neg (by simpa using hc)]
      exact ih _

/-- Rating an edge fails where the edge is not there, or else where adding the scores of its children
does, or else where scoring it does. -/
theorem failure?_candidate (o : Objective K) (s : Sweep f) (x : Vertex) (id : EdgeId) :
    failure? (candidate o s x id) = match f.edge? id with
      | none => some (.unknownEdge id)
      | some e => (failure? (modelScore o s e)).or
          (s.scorer.bind fun scorer => failure? (scorer.score e x.sourceCovered)) := by
  unfold candidate
  split
  · next he => simp only [he, failure?]
  · next e he =>
    simp only [he]
    split
    · next cause hscore => simp only [hscore, failure?, Option.some_or]
    · next score hscore =>
      simp only [hscore]
      cases s.scorer with
      | none => rfl
      | some scorer =>
        dsimp only
        rw [Option.bind_some]
        cases scorer.score e x.sourceCovered with
        | error cause => rfl
        | ok found => rfl

/-- **A candidate fails for the first offence of its edge.** -/
theorem failsFor_candidate (hs : s.Ready o) (hx : f.vertex? s.table.size = some x)
    (hid : id ∈ x.incoming) : FailsFor .overflow (MayOverflow o f) (candidate o s x id)
      (f.edgeOffences s.table.size id).head? := by
  have hcandidate := failure?_candidate o s x id
  rw [Forest.edgeOffences]
  cases he : f.edge? id with
  | none =>
    rw [he] at hcandidate
    exact .inl hcandidate
  | some e =>
    rw [he] at hcandidate
    dsimp only at hcandidate ⊢
    rw [← failure?_addScores s (e.score o.weights)]
    cases hscore : s.addScores (e.score o.weights) e.children with
    | error cause =>
      rw [modelScore, hscore] at hcandidate
      exact .inl hcandidate
    | ok score =>
      rw [modelScore, hscore] at hcandidate
      cases hscorer : s.scorer with
      | none =>
        rw [hscorer] at hcandidate
        exact .inl hcandidate
      | some scorer =>
        rw [hscorer] at hcandidate
        obtain ⟨hweight, hstep⟩ := hs scorer hscorer
        rcases hstep.score_outcome hx hid he (Sweep.lt_of_addScores hscore) x.sourceCovered with
          ⟨found, hfound⟩ | ⟨hlong, hover⟩
        · exact .inl (hcandidate.trans (failure?_eq_none_iff.mpr ⟨found, hfound⟩))
        · exact .inr ⟨⟨hweight, hlong⟩,
            failure?_eq_some_iff.mp (hcandidate.trans (failure?_eq_some_iff.mpr hover))⟩

/-- Settling a vertex with a candidate that was rated does not fail. -/
theorem exists_settle (hs : s.Ready o) (hsize : s.table.size < f.vertices.size) {c : Candidate s}
    (hc : candidate o s x id = .ok c) : ∃ s', settle s c = .ok s' := by
  obtain ⟨-, hrates⟩ := of_candidate_eq_ok hc
  cases hscorer : s.scorer with
  | none => exact ⟨_, bind_eq_ok_iff.mpr ⟨none, by rw [hscorer]; rfl, rfl⟩⟩
  | some scorer =>
    rw [hscorer] at hrates
    obtain ⟨bleu, hbleu, -⟩ := hrates
    obtain ⟨t, ht⟩ := (hs scorer hscorer).2.exists_fixEdge hsize hbleu c.statistics
    refine ⟨_, bind_eq_ok_iff.mpr ⟨some t, ?_, rfl⟩⟩
    rw [hscorer]
    exact optionMapM_eq_ok_iff.mpr (.some ht)

/-- Visiting a leaf does not fail. -/
theorem exists_visitLeaf (hs : s.Ready o) (hsize : s.table.size < f.vertices.size) :
    ∃ s', visitLeaf s = .ok s' := by
  cases hscorer : s.scorer with
  | none => exact ⟨_, bind_eq_ok_iff.mpr ⟨none, by rw [hscorer]; rfl, rfl⟩⟩
  | some scorer =>
    obtain ⟨-, htotal, hfixed, -⟩ := hs scorer hscorer
    have hfree : s.table.size < scorer.summaries.size ∧ ¬ scorer.Fixed s.table.size := by
      rw [htotal, hfixed]
      exact ⟨hsize, Nat.lt_irrefl _⟩
    obtain ⟨t, ht⟩ := Scorer.exists_fix_iff.mpr hfree
    refine ⟨_, bind_eq_ok_iff.mpr ⟨some t, ?_, rfl⟩⟩
    rw [hscorer]
    exact optionMapM_eq_ok_iff.mpr (.some ht)

/-- **A visit fails for the first offence of its vertex.** -/
theorem failsFor_visit (hs : s.Ready o) (hx : f.vertex? s.table.size = some x) :
    FailsFor .overflow (MayOverflow o f) (visit o s x)
      (f.vertexOffences s.table.size x).head? := by
  have hsize : s.table.size < f.vertices.size := (Array.getElem?_eq_some_iff.mp hx).1
  rw [Forest.vertexOffences, List.head?_flatMap, ← Option.or_none (o := List.findSome? _ _)]
  refine (FailsFor.mapM fun id hid => failsFor_candidate hs hx hid).bind fun cs hcs => .inl ?_
  rw [failure?_eq_none_iff]
  cases hw : winner Candidate.score cs with
  | none => exact exists_visitLeaf hs hsize
  | some c =>
    obtain ⟨id, -, hc⟩ := exists_mem_of_forall₂ (mapM_eq_ok_iff.mp hcs) (mem_of_winner_eq hw)
    exact exists_settle hs hsize hc

omit [Scalar K] in
/-- A scorer in step with the vertices that were visited is so when one more has an entry. -/
theorem Extends.inStep {entry : Entry K} (h : Extends s s' entry)
    (hstep : InStep f s.table.chosen s.table.size scorer) :
    InStep f s'.table.chosen s.table.size scorer :=
  hstep.congr (fun _ hv => h.chosen_of_lt hv) fun _ _ _ => Table.lt_of_chosen

/-- **A visit keeps the scorer in step.** -/
theorem Sweep.Ready.visit (hs : s.Ready o) (hx : f.vertex? s.table.size = some x)
    (h : visit o s x = .ok s') : s'.Ready o := by
  intro scorer hscorer
  rcases visit_cases h with ⟨hleaf, h⟩ | ⟨cs, c, hcs, hwon, h⟩
  · have hext : Extends s s' .leaf := extends_of_visitLeaf_eq_ok h
    obtain ⟨-, hrel⟩ := of_visitLeaf_eq_ok h
    rw [hscorer] at hrel
    generalize ha : s.scorer = a at hrel
    cases hrel with
    | some hfix =>
    obtain ⟨hweight, hstep⟩ := hs _ ha
    rw [hext.size]
    exact ⟨hweight, (hext.inStep hstep).fix (.leaf hx hleaf) (.leaf hext.chosen_size)
      Summary.describes_empty Scorer.withinText_zero hfix⟩
  · have hext : Extends s s' c.entry := extends_of_settle_eq_ok h
    obtain ⟨-, hrel⟩ := of_settle_eq_ok h
    obtain ⟨id, hid, hc⟩ := exists_mem_of_forall₂ hcs (mem_of_winner_eq hwon)
    obtain ⟨rfl, hrates⟩ := of_candidate_eq_ok hc
    rw [hscorer] at hrel
    generalize ha : s.scorer = a at hrel hrates
    cases hrel with
    | some hfix =>
    obtain ⟨hweight, hstep⟩ := hs _ ha
    obtain ⟨bleu, hbleu, -⟩ := hrates
    rw [hext.size]
    exact ⟨hweight, (hext.inStep hstep).fixEdge hx hid c.found hext.chosen_size hbleu hfix⟩

/-! ## 5. The whole sweep -/

theorem ready_start : (Sweep.start o references f).Ready o := by
  intro scorer hscorer
  unfold Sweep.start at hscorer
  dsimp only at hscorer
  split at hscorer
  · cases hscorer
  · next hweight =>
    cases hscorer
    exact ⟨hweight, inStep_start _ _ _ _⟩

/-- **A sweep fails for the first offence.** -/
theorem failsFor_sweep (o : Objective K) (references : SentenceReferences) (f : Forest K) :
    FailsFor .overflow (MayOverflow o f) (sweep o references f) f.offences.head? := by
  have hfold : ∀ (rest front : List Vertex) (s : Sweep f), f.vertices.toList = front ++ rest →
      s.Ready o → s.table.size = front.length →
      FailsFor .overflow (MayOverflow o f) (rest.foldlM (visit o) s)
        ((rest.zipIdx front.length).flatMap fun p => f.vertexOffences p.2 p.1).head? := by
    intro rest
    induction rest with
    | nil => exact fun front s _ _ _ => .inl rfl
    | cons x rest ih =>
      intro front s hall hs hsize
      have hx : f.vertex? s.table.size = some x := by
        rw [Forest.vertex?, ← Array.getElem?_toList, hall, hsize,
          List.getElem?_append_right (Nat.le_refl _), Nat.sub_self]
        rfl
      rw [List.foldlM_cons, List.zipIdx_cons, List.flatMap_cons, List.head?_append, ← hsize]
      refine (failsFor_visit hs hx).bind fun t ht => ?_
      have hrest := ih (front ++ [x]) t (by rw [hall]; simp) (hs.visit hx ht)
        (by rw [size_of_visit_eq_ok ht, hsize]; simp)
      simpa [hsize] using hrest
  exact hfold f.vertices.toList [] _ rfl ready_start rfl

/-- **A sweep with a scorer has counted all texts that were offered**: each edge with the texts of the
derivations that were chosen. -/
theorem countable_of_sweep_eq_ok (hweight : Scalar.isZero o.bleuWeight ≠ true)
    (h : sweep o references f = .ok s) {v : VertexId} (hx : f.vertex? v = some x)
    (hid : id ∈ x.incoming) (he : f.edge? id = some e) {texts : VertexId → List WordId}
    (htexts : ∀ c ∈ e.children, ∀ d, f.Unfolds s.table.chosen c d → texts c = d.yield) :
    e.Countable texts := by
  obtain ⟨hw, hsize⟩ := swept_of_sweep_eq_ok h
  obtain ⟨hready, -⟩ := of_sweep_eq_ok ready_start (fun hs hx hvisit => hs.visit hx hvisit) h
  have hscores := hw.scores
  rw [Scores, if_neg hweight] at hscores
  obtain ⟨scorer, hscorer, -⟩ := hscores
  obtain ⟨-, hstep⟩ := hready scorer hscorer
  rcases hw.settled_vertex hsize hx with ⟨hleaf, -⟩ | ⟨offers, -, hids, hoffers, -⟩
  · rw [hleaf] at hid
    cases hid
  · rw [← hids] at hid
    obtain ⟨offer, hoffer, rfl⟩ := List.mem_map.mp hid
    obtain ⟨e', statistics, he', hchildren, hrates⟩ := hoffers offer hoffer
    cases he.symm.trans he'
    rw [hscorer] at hrates
    obtain ⟨bleu, hbleu, -⟩ := hrates
    obtain ⟨hfixed, hlength, -⟩ := Scorer.exists_score_iff.mp ⟨_, hbleu⟩
    refine (Scorer.lengthFits_iff fun c hc => ?_).mp hlength
    obtain ⟨found, hfound⟩ := hfixed c hc
    obtain ⟨d, -, hd, hdescribes, -⟩ := hstep.unfolds c found hfound
    exact ⟨found, hfound, (htexts c hc d hd).symm ▸ hdescribes⟩

/-- Where sums cannot overflow, a forest is swept to its end if and only if it is in bottom-up
order. -/
theorem exists_sweep_iff (ho : ¬ MayOverflow o f) :
    (∃ s, sweep o references f = .ok s) ↔ f.BottomUp := by
  have hfails := failsFor_sweep o references f
  rw [← Forest.offences_eq_nil_iff, ← List.head?_eq_none_iff, ← failure?_eq_none_iff,
    hfails.resolve_right fun h => ho h.1]

/-- A forest that was swept to its end is in bottom-up order. -/
theorem bottomUp_of_sweep_eq_ok (h : sweep o references f = .ok s) : f.BottomUp := by
  rw [← Forest.offences_eq_nil_iff, ← List.head?_eq_none_iff]
  rcases failsFor_sweep o references f with hfails | ⟨-, hover⟩
  · rw [← hfails, h]
    rfl
  · cases h.symm.trans hover

end

end Search

/-! ## 6. The whole search -/

variable [Scalar K] {f : Forest K} {o : Objective K} {references : SentenceReferences}

/-- **A search fails for want of a vertex, or for the first offence**, if no sum overflows. -/
theorem Forest.failsFor_best (f : Forest K) (o : Objective K) (references : SentenceReferences) :
    FailsFor .overflow (Search.MayOverflow o f) (f.best o references)
      (if f.vertices = #[] then some .emptyForest else f.offences.head?) := by
  cases hroot : f.root? with
  | none =>
    rw [if_pos (Forest.root?_eq_none_iff.mp hroot), Forest.best, hroot]
    exact .inl rfl
  | some root =>
    have hne : f.vertices ≠ #[] := fun hnil => by
      rw [Forest.root?_eq_none_iff.mpr hnil] at hroot
      cases hroot
    have hsweep := Search.failsFor_sweep o references f
    rw [if_neg hne, Forest.best, hroot]
    rw [← Option.or_none (o := f.offences.head?)]
    refine hsweep.bind fun s hs => .inl ?_
    obtain ⟨d, hd, hbest⟩ := Forest.best_eq_of_sweep hroot hs
    rw [Forest.best, hroot] at hbest
    have hrest : Search.sweep o references f >>= _ = .ok _ := hbest
    rw [hs] at hrest
    exact failure?_eq_none_iff.mpr ⟨_, hrest⟩

/-- A failure is want of a vertex, or of one of the two kinds of offence, or an overflow. -/
theorem Forest.of_best_eq_error {cause : SearchError} (h : f.best o references = .error cause) :
    (cause = .emptyForest ∧ f.vertices = #[]) ∨ f.offences.head? = some cause ∨
      cause = .overflow ∧ Search.MayOverflow o f := by
  rcases Forest.failsFor_best f o references with hfails | ⟨hmay, hover⟩
  · rw [failure?_eq_some_iff.mpr h] at hfails
    split at hfails
    · next hnil => exact .inl ⟨Option.some.inj hfails, hnil⟩
    · exact .inr (.inl hfails.symm)
  · cases hover.symm.trans h
    exact .inr (.inr ⟨rfl, hmay⟩)

/-! ## 7. The main result -/

/-- A forest that was read is in bottom-up order. -/
theorem ForestReading.Accepts.bottomUp {x x' : Lexicon} {lines : List (Option String)}
    {f : Forest Float} (h : Accepts x lines f x') : f.BottomUp := by
  obtain ⟨counts, blocks, rest, -, -, haccounts⟩ := h.exists_blocks
  intro v vertex hv id hid
  have hlt : v < blocks.length := haccounts.size ▸ (Array.getElem?_eq_some_iff.mp hv).1
  obtain ⟨-, hmakes⟩ := haccounts.vertices v _ vertex (List.getElem?_eq_getElem hlt) hv
  obtain ⟨line, -, e, y, he, hsound, -⟩ := exists_mem_of_forall₂ hmakes.edges.flip hid
  exact ⟨e, he, hsound.children⟩

/-- **Exactly when and how a search fails.**  It fails without vertices, or with the first offence of
the forest, and succeeds with vertices in bottom-up order; unless a sum overflows, which takes a BLEU
term with a weight and a text of the forest that is too long to be counted.  It never fails for a
summary, and nothing else in the objective or the references is a reason to fail.  No place is looked
up that is not there: every gap finds its child by its number, and the table has an entry for each
vertex.  With a BLEU term it has counted the text of each edge, with the derivations that it chose in
the gaps.  So every forest that is read from a file, and has a vertex, has a best derivation, or a text
that is too long. -/
theorem Forest.best_outcome (f : Forest Float) (o : Objective Float)
    (references : SentenceReferences) :
    (f.best o references = .error .emptyForest ↔ f.vertices = #[]) ∧
    (f.vertices ≠ #[] → ∀ cause, f.best o references = .error cause →
      f.offences.head? = some cause ∨
        cause = .overflow ∧ Scalar.isZero o.bleuWeight ≠ true ∧ f.Overlong) ∧
    (f.vertices ≠ #[] → ∀ cause, f.offences.head? = some cause →
      f.best o references = .error cause ∨ f.best o references = .error .overflow) ∧
    ((∃ h, f.best o references = .ok h) → f.vertices ≠ #[] ∧ f.BottomUp) ∧
    (f.vertices ≠ #[] ∧ f.BottomUp →
      (∃ h, f.best o references = .ok h) ∨ f.best o references = .error .overflow) ∧
    (∀ v, f.best o references ≠ .error (.notFixed v) ∧
      f.best o references ≠ .error (.alreadyFixed v)) ∧
    (∀ o' references', f.best o references ≠ .error .overflow →
      f.best o' references' ≠ .error .overflow →
      failure? (f.best o' references') = failure? (f.best o references)) ∧
    (∀ e : Edge Float,
      e.target.map (NumberedSlot.resolve? e.children) = e.slots.map some) ∧
    (∀ s, Search.sweep o references f = .ok s → s.table.size = f.vertices.size ∧
      (Scalar.isZero o.bleuWeight ≠ true → ∀ v x id e texts, f.vertex? v = some x →
        id ∈ x.incoming → f.edge? id = some e →
        (∀ c ∈ e.children, ∀ d, f.Unfolds s.table.chosen c d → texts c = d.yield) →
        e.Countable texts)) ∧
    ∀ (x : Lexicon) (bytes : ByteArray), (ForestReading.ofBytes x bytes).outcome = .ok f →
      f.vertices ≠ #[] → (∃ h, f.best o references = .ok h) ∨
        f.best o references = .error .overflow ∧ Scalar.isZero o.bleuWeight ≠ true ∧
          f.Overlong := by
  have hexpected : ∀ o' references', f.best o' references' ≠ .error .overflow →
      failure? (f.best o' references') =
        if f.vertices = #[] then some .emptyForest else f.offences.head? :=
    fun o' references' hover =>
      (Forest.failsFor_best f o' references').resolve_right fun h => hover h.2
  have hkinds : ∀ cause, f.offences.head? = some cause →
      (∃ id, cause = .unknownEdge id) ∨ ∃ v c, cause = .notBottomUp v c :=
    fun cause h => Forest.of_mem_offences (List.mem_of_mem_head? h)
  have hok : f.vertices ≠ #[] ∧ f.BottomUp → (∃ h, f.best o references = .ok h) ∨
      f.best o references = .error .overflow ∧ Search.MayOverflow o f := by
    rintro ⟨hne, hup⟩
    rcases Forest.failsFor_best f o references with hnone | ⟨hmay, hover⟩
    · rw [if_neg hne, Forest.offences_eq_nil_iff.mpr hup, List.head?_nil,
        failure?_eq_none_iff] at hnone
      exact .inl hnone
    · exact .inr ⟨hover, hmay⟩
  refine ⟨⟨fun h => ?_, fun hnil => ?_⟩, fun hne cause h => ?_, fun hne cause hcause => ?_,
    fun ⟨h, hb⟩ => ?_, fun h => (hok h).imp_right And.left, fun v => ⟨fun h => ?_, fun h => ?_⟩,
    fun o' references' h h' => ?_, fun e => e.slots_spec.1,
    fun s hs => ⟨(Search.swept_of_sweep_eq_ok hs).2, fun hweight v x id e texts hx hid he =>
      Search.countable_of_sweep_eq_ok hweight hs hx hid he⟩, fun x bytes hread hne => hok ⟨hne, ?_⟩⟩
  · rcases Forest.of_best_eq_error h with ⟨-, hnil⟩ | hcause | ⟨⟨⟩, -⟩
    · exact hnil
    · rcases hkinds _ hcause with ⟨id, ⟨⟩⟩ | ⟨v, c, ⟨⟩⟩
  · rw [Forest.best, Forest.root?_eq_none_iff.mpr hnil]
  · rcases Forest.of_best_eq_error h with ⟨-, hnil⟩ | hcause | hover
    · exact absurd hnil hne
    · exact .inl hcause
    · exact .inr hover
  · by_cases hover : f.best o references = .error .overflow
    · exact .inr hover
    · refine .inl (failure?_eq_some_iff.mp ?_)
      rw [hexpected o references hover, if_neg hne, hcause]
  · obtain ⟨root, s, hroot, hs⟩ := Forest.of_best_eq_ok hb
    refine ⟨fun hnil => ?_, Search.bottomUp_of_sweep_eq_ok hs⟩
    rw [Forest.root?_eq_none_iff.mpr hnil] at hroot
    cases hroot
  · rcases Forest.of_best_eq_error h with ⟨⟨⟩, -⟩ | hcause | ⟨⟨⟩, -⟩
    rcases hkinds _ hcause with ⟨id, ⟨⟩⟩ | ⟨v, c, ⟨⟩⟩
  · rcases Forest.of_best_eq_error h with ⟨⟨⟩, -⟩ | hcause | ⟨⟨⟩, -⟩
    rcases hkinds _ hcause with ⟨id, ⟨⟩⟩ | ⟨v, c, ⟨⟩⟩
  · rw [hexpected o references h, hexpected o' references' h']
  · exact (ForestReading.ofLines_eq_ok_iff.mp ⟨hread, rfl⟩).bottomUp

/-- A phrase of two words, 64 vertices that each put the text of the one before twice, and a sentence
of one word that uses none of them. -/
def ForestReading.doublingFile : String :=
  "# target ||| features\n66 66\n1\na b\n" ++
    String.join ((List.range 64).map fun n =>
      "1\n[" ++ toString n ++ "] [" ++ toString n ++ "]\n") ++ "1\nc\n"

/-- **A forest that is read need not have a best derivation.**  The last of the doubled texts has
`2 ^ 65` words.  Without a BLEU term the same forest has one. -/
theorem Forest.accepted_overflows :
    (ForestReading.ofBytes .empty ForestReading.doublingFile.toUTF8).outcome.toOption.map
      (fun f => (f.vertices.size, failure? (f.best ⟨.empty, 1.0, 0.01⟩
        ((References.ofTexts .empty ["a\n"]).1.sentence 0)),
        failure? (f.best ⟨.empty, 0.0, 0.01⟩ ((References.ofTexts .empty ["a\n"]).1.sentence 0)))) =
      some (66, some .overflow, none) := by
  decide +kernel

/-- A forest whose last vertex has an edge of its own, one that is not there, and one that uses a
vertex ahead and its own; the first of these offences is reported. -/
example : Forest.offences (⟨2, 3, #[⟨[0], 0⟩, ⟨[0, 7, 1], 2⟩],
    #[.ofSlots [.word ⟨5⟩] .empty, .ofSlots [.gap 0, .gap 4, .gap 1] .empty]⟩ : Forest Float) =
      [.unknownEdge 7, .notBottomUp 1 4, .notBottomUp 1 1] := by
  decide

end ForestRescoring
