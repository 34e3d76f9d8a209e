/-
# What the sweep settles

The sweep visits every vertex once.  What it settles there is said by the finished table alone: each
edge of the vertex has a score that adds up from the scores of its children and, if there is a
scorer, from the BLEU that the finished scorer gives the edge (`Search.Offer`); and the entry of
the vertex is the last of the edges whose score is at least that of the best before it
(`Search.Settled`).

This holds when a vertex is visited, of the table and the scorer as they are then.  It stays true, as
a later visit adds an entry at the end of the table and fixes the summary of its own vertex, and
the edges here look only at vertices that come before (`Search.Offer.step`).
-/
import Mathlib
import ForestRescoring.Search
import ForestRescoring.Proofs.Scalar.Order
import ForestRescoring.Proofs.Scoring.Calls
import ForestRescoring.Proofs.Search.Assignment

namespace ForestRescoring

namespace Search

variable {K : Type} [Scalar K]

/-! ## 1. Scores of edges -/

/-- The score of an edge when those of the vertices are given: its own, and then those of its children
added from left to right. -/
def edgeScore (weights : FeatureVector K) (σ : VertexId → K) (e : Edge K) : K :=
  e.children.foldl (fun score c => score + σ c) (e.score weights)

/-- The score and the statistics of an edge, with the BLEU term if there is a scorer. -/
def Rates (o : Objective K) (scorer : Option (Scorer K)) (σ : VertexId → K) (covered : ℕ)
    (e : Edge K) (score : K) (statistics : Statistics) : Prop :=
  match scorer with
  | none => score = edgeScore o.weights σ e ∧ statistics = .zero
  | some scorer => ∃ bleu, scorer.score e covered = .ok (bleu, statistics) ∧
      score = edgeScore o.weights σ e + o.bleuWeight * bleu

theorem edgeScore_congr {weights : FeatureVector K} {σ τ : VertexId → K} {e : Edge K}
    (h : ∀ c ∈ e.children, τ c = σ c) : edgeScore weights τ e = edgeScore weights σ e := by
  refine List.foldl_ext _ _ _ fun score c hc => ?_
  rw [h c hc]

/-- **An edge is rated by its children.**  Nothing else in the scores and in the scorer matters. -/
theorem Rates.congr {o : Objective K} {a b : Option (Scorer K)} {σ τ : VertexId → K} {covered : ℕ}
    {e : Edge K} {score : K} {statistics : Statistics} (hσ : ∀ c ∈ e.children, τ c = σ c)
    (hab : Option.Rel (Scorer.AgreeOn e.children) a b)
    (h : Rates o a σ covered e score statistics) : Rates o b τ covered e score statistics := by
  cases hab with
  | none =>
    obtain ⟨hscore, hstat⟩ := h
    exact ⟨by rw [hscore, edgeScore_congr hσ], hstat⟩
  | some hagree =>
    obtain ⟨bleu, hbleu, hscore⟩ := h
    exact ⟨bleu, by rw [hagree.score_eq, hbleu], by rw [hscore, edgeScore_congr hσ]⟩

/-! ## 2. Winners -/

section Winners

variable {α β : Type} {score : α → K} {cs : List α} {c : α}

/-- Among alternatives there is a winner. -/
theorem exists_winner (score : α → K) (h : cs ≠ []) : ∃ c, winner score cs = some c := by
  have hfold : ∀ (cs : List α) (b : α), ∃ c, cs.foldl (prefer score) (some b) = some c := by
    intro cs
    induction cs with
    | nil => exact fun b => ⟨b, rfl⟩
    | cons c cs ih =>
      intro b
      rw [List.foldl_cons, prefer]
      split
      · exact ih c
      · exact ih b
  obtain ⟨c, cs, rfl⟩ := List.exists_cons_of_ne_nil h
  exact hfold cs c

/-- Only where there are no alternatives there is no winner. -/
theorem eq_nil_of_winner_eq (h : winner score cs = none) : cs = [] := by
  by_contra hne
  obtain ⟨c, hc⟩ := exists_winner score hne
  rw [hc] at h
  cases h

/-- The winner is one of the alternatives. -/
theorem mem_of_winner_eq (h : winner score cs = some c) : c ∈ cs := by
  have hfold : ∀ (cs : List α) (b : Option α),
      cs.foldl (prefer score) b = some c → b = some c ∨ c ∈ cs := by
    intro cs
    induction cs with
    | nil => exact fun b hb => Or.inl hb
    | cons d cs ih =>
      intro b hb
      rcases ih _ hb with hprefer | hmem
      · cases b with
        | none =>
          cases hprefer
          exact Or.inr List.mem_cons_self
        | some b =>
          rw [prefer] at hprefer
          split at hprefer
          · cases hprefer
            exact Or.inr List.mem_cons_self
          · exact Or.inl hprefer
      · exact Or.inr (List.mem_cons_of_mem d hmem)
  rcases hfold cs none h with hnone | hmem
  · cases hnone
  · exact hmem

/-- What else is known of the alternatives does not matter. -/
theorem winner_map (g : β → α) (score : α → K) (cs : List β) :
    winner score (cs.map g) = (winner (fun c => score (g c)) cs).map g := by
  have hfold : ∀ (b : Option β), (cs.map g).foldl (prefer score) (b.map g) =
      (cs.foldl (prefer fun c => score (g c)) b).map g := by
    induction cs with
    | nil => exact fun b => rfl
    | cons c cs ih =>
      intro b
      rw [List.map_cons, List.foldl_cons, List.foldl_cons, ← ih]
      cases b with
      | none => rfl
      | some b =>
        rw [Option.map_some, prefer, prefer]
        split
        · rfl
        · rfl
  exact hfold none

/-- Winners go together where the alternatives do, with the same scores. -/
theorem winner_rel {R : α → β → Prop} {score' : β → K} (hR : ∀ a b, R a b → score' b = score a)
    {as : List α} {bs : List β} (h : List.Forall₂ R as bs) :
    Option.Rel R (winner score as) (winner score' bs) := by
  have hfold : ∀ {p : Option α} {q : Option β}, Option.Rel R p q →
      Option.Rel R (as.foldl (prefer score) p) (bs.foldl (prefer score') q) := by
    induction h with
    | nil => exact fun hpq => hpq
    | @cons a b as bs hab _ ih =>
      intro p q hpq
      refine ih ?_
      cases hpq with
      | none => exact .some hab
      | @some c d hcd =>
        rw [prefer, prefer, hR a b hab, hR c d hcd]
        split
        · exact .some hab
        · exact .some hcd
  exact hfold .none

/-- No alternative is better. -/
def IsBest (score : α → K) (cs : List α) (c : α) : Prop :=
  ∀ b ∈ cs, Scalar.atLeast (score c) (score b) = true

/-- No alternative is better, and all those behind have a better one. -/
def IsLastBest (score : α → K) (cs : List α) (c : α) : Prop :=
  ∃ front rest, cs = front ++ c :: rest ∧ IsBest score cs c ∧ ∀ d ∈ rest, ¬ IsBest score cs d

variable [Scalar.Ordered K] {d : α}

/-- An alternative that is at least as good as the best in front of it is the last of the best. -/
theorem isLastBest_concat_of_atLeast (h : IsBest score cs c)
    (hdc : Scalar.atLeast (score d) (score c) = true) : IsLastBest score (cs ++ [d]) d := by
  have hd : Scalar.Comparable (score d) := (Scalar.Ordered.comparable_of_atLeast hdc).1
  have hfront : IsBest score cs d := fun a ha => Scalar.Ordered.trans hdc (h a ha)
  exact ⟨cs, [], rfl, List.forall_mem_append.mpr ⟨hfront, List.forall_mem_singleton.mpr hd⟩,
    List.forall_mem_nil _⟩

/-- An alternative that is not at least as good leaves the last of the best as it was. -/
theorem IsLastBest.concat (h : IsLastBest score cs c) (hd : Scalar.Comparable (score d))
    (hdc : ¬ Scalar.atLeast (score d) (score c) = true) : IsLastBest score (cs ++ [d]) c := by
  obtain ⟨front, rest, heq, hbest, hrest⟩ := h
  have hc : c ∈ cs := by simp [heq]
  have hcd := (Scalar.Ordered.total hd
    (Scalar.Ordered.comparable_of_atLeast (hbest c hc)).1).resolve_left hdc
  refine ⟨front, rest ++ [d], by rw [heq, List.append_assoc, List.cons_append],
    List.forall_mem_append.mpr ⟨hbest, List.forall_mem_singleton.mpr hcd⟩,
    List.forall_mem_append.mpr ⟨fun a ha hall => ?_, List.forall_mem_singleton.mpr fun hall => ?_⟩⟩
  · exact hrest a ha fun b hb => hall b (List.mem_append_left _ hb)
  · exact hdc (hall c (List.mem_append_left _ hc))

/-- **The winner is the last of the best**, if all alternatives can be compared. -/
theorem isLastBest_of_winner_eq (hall : ∀ b ∈ cs, Scalar.Comparable (score b))
    (h : winner score cs = some c) : IsLastBest score cs c := by
  induction cs using List.reverseRecOn generalizing c with
  | nil => cases h
  | append_singleton cs d ih =>
    obtain ⟨hcs, hd⟩ := List.forall_mem_append.mp hall
    have hd : Scalar.Comparable (score d) := hd d List.mem_cons_self
    rw [winner, List.foldl_append, List.foldl_cons, List.foldl_nil, ← winner] at h
    cases hw : winner score cs with
    | none =>
      rw [hw] at h
      cases h
      rw [eq_nil_of_winner_eq hw]
      exact ⟨[], [], rfl, List.forall_mem_singleton.mpr hd, List.forall_mem_nil _⟩
    | some b =>
      rw [hw, prefer] at h
      obtain hlast := ih hcs hw
      split at h
      · next hdb =>
        cases h
        obtain ⟨-, -, -, hbest, -⟩ := hlast
        exact isLastBest_concat_of_atLeast hbest hdb
      · next hdb =>
        cases h
        exact hlast.concat hd hdb

end Winners

variable {f : Forest K} {o : Objective K} {s s' : Sweep f} {x : Vertex} {v : VertexId} {id : EdgeId}

/-- An edge is offered to vertex `v` for a score. -/
def Offer (o : Objective K) (s : Sweep f) (v : VertexId) (x : Vertex) (id : EdgeId) (score : K) :
    Prop :=
  ∃ e statistics, f.edge? id = some e ∧ (∀ c ∈ e.children, c < v) ∧
    Rates o s.scorer s.table.score x.sourceCovered e score statistics

/-! ## 3. Candidates -/

/-- Adding scores adds those in the table. -/
theorem eq_of_addScores {score total : K} {children : List VertexId}
    (h : s.addScores score children = .ok total) :
    total = children.foldl (fun score c => score + s.table.score c) score := by
  induction children generalizing score with
  | nil =>
    cases h
    rfl
  | cons c rest ih =>
    obtain ⟨entry, hentry, h⟩ := bind_eq_ok_iff.mp h
    have hscore : s.table.score c = entry.score := by
      rw [Sweep.child] at hentry
      split at hentry
      · next hsome =>
        cases hentry
        rw [Table.score, hsome]
        rfl
      · cases hentry
    rw [List.foldl_cons, hscore]
    exact ih h

/-- A candidate is an edge of the forest with its score. -/
theorem of_candidate_eq_ok {c : Candidate s} (h : candidate o s x id = .ok c) :
    c.id = id ∧ Rates o s.scorer s.table.score x.sourceCovered c.edge c.score c.statistics := by
  unfold candidate at h
  split at h
  · cases h
  · next e he =>
    split at h
    · cases h
    · next score hscore =>
      have htotal := eq_of_addScores hscore
      dsimp only at h
      split at h
      · next hnone =>
        cases h
        rw [hnone]
        exact ⟨rfl, htotal, rfl⟩
      · next scorer hsome =>
        obtain ⟨found, hfound, h⟩ := bind_eq_ok_iff.mp h
        cases h
        rw [hsome]
        exact ⟨rfl, found.1, hfound, congrArg (· + o.bleuWeight * found.1) htotal⟩

/-! ## 4. One visit -/

/-- A visit to a leaf adds an entry without an edge. -/
theorem of_visitLeaf_eq_ok (h : visitLeaf s = .ok s') :
    s'.table.entries = s.table.entries.push .leaf ∧
      Option.Rel (fun a b => a.fixLeaf s.table.size = .ok b) s.scorer s'.scorer := by
  obtain ⟨scorer, hscorer, h⟩ := bind_eq_ok_iff.mp h
  cases h
  exact ⟨rfl, optionMapM_eq_ok_iff.mp hscorer⟩

omit [Scalar K] in
/-- Settling a vertex adds the entry of the winner. -/
theorem of_settle_eq_ok {c : Candidate s} (h : settle s c = .ok s') :
    s'.table.entries = s.table.entries.push c.entry ∧
      Option.Rel (fun a b => a.fixEdge s.table.size c.edge c.statistics = .ok b)
        s.scorer s'.scorer := by
  obtain ⟨scorer, hscorer, h⟩ := bind_eq_ok_iff.mp h
  cases h
  exact ⟨rfl, optionMapM_eq_ok_iff.mp hscorer⟩

/-- **A visit is to a leaf, or one of the candidates wins.** -/
theorem visit_cases (h : visit o s x = .ok s') :
    (x.incoming = [] ∧ visitLeaf s = .ok s') ∨
      ∃ cs c, List.Forall₂ (fun id c => candidate o s x id = .ok c) x.incoming cs ∧
        winner Candidate.score cs = some c ∧ settle s c = .ok s' := by
  obtain ⟨cs, hcs, h⟩ := bind_eq_ok_iff.mp h
  have hcs := mapM_eq_ok_iff.mp hcs
  cases hw : winner Candidate.score cs with
  | none =>
    rw [hw] at h
    rw [eq_nil_of_winner_eq hw] at hcs
    exact Or.inl ⟨List.forall₂_nil_right_iff.mp hcs, h⟩
  | some c =>
    rw [hw] at h
    exact Or.inr ⟨cs, c, hcs, hw, h⟩

/-! ## 5. What stays -/

/-- A visit adds an entry, and fixes the summary of its own vertex. -/
structure Extends (s s' : Sweep f) (entry : Entry K) : Prop where
  entries : s'.table.entries = s.table.entries.push entry
  scorer : Option.Rel (fun a b => ∃ found, a.fix s.table.size found = .ok b) s.scorer s'.scorer

/-- A visit to a leaf adds the entry of a leaf. -/
theorem extends_of_visitLeaf_eq_ok (h : visitLeaf s = .ok s') : Extends s s' .leaf := by
  obtain ⟨hentries, hscorer⟩ := of_visitLeaf_eq_ok h
  exact ⟨hentries, optionRel_imp hscorer fun a b hab => ⟨_, hab⟩⟩

variable {entry : Entry K}

section

omit [Scalar K]

/-- Fixing a vertex by the edge of the winner is fixing it. -/
theorem extends_of_settle_eq_ok {c : Candidate s} (h : settle s c = .ok s') :
    Extends s s' c.entry := by
  obtain ⟨hentries, hscorer⟩ := of_settle_eq_ok h
  refine ⟨hentries, optionRel_imp hscorer fun a b hab => ?_⟩
  obtain ⟨left, right, length, -, -, -, hfix⟩ := Scorer.fixEdge_eq_ok_iff.mp hab
  exact ⟨_, hfix⟩

theorem Extends.size (h : Extends s s' entry) : s'.table.size = s.table.size + 1 := by
  rw [Table.size, h.entries, Array.size_push]
  rfl

theorem Extends.getElem?_of_lt (h : Extends s s' entry) {c : VertexId} (hc : c < s.table.size) :
    s'.table.entries[c]? = s.table.entries[c]? := by
  rw [h.entries, Array.getElem?_push]
  exact if_neg (Nat.ne_of_lt hc)

theorem Extends.chosen_of_lt (h : Extends s s' entry) {c : VertexId} (hc : c < s.table.size) :
    s'.table.chosen c = s.table.chosen c := by
  rw [Table.chosen, h.getElem?_of_lt hc, Table.chosen]

theorem Extends.getElem?_size (h : Extends s s' entry) :
    s'.table.entries[s.table.size]? = some entry := by
  rw [h.entries, Array.getElem?_push]
  exact if_pos rfl

theorem Extends.chosen_size (h : Extends s s' entry) :
    s'.table.chosen s.table.size = entry.edge := by
  rw [Table.chosen, h.getElem?_size]
  rfl

end

/-- A visit adds one entry. -/
theorem size_of_visit_eq_ok (h : visit o s x = .ok s') : s'.table.size = s.table.size + 1 := by
  rcases visit_cases h with ⟨-, h⟩ | ⟨cs, c, -, -, h⟩
  · exact (extends_of_visitLeaf_eq_ok h).size
  · exact (extends_of_settle_eq_ok h).size

theorem Extends.score_of_lt (h : Extends s s' entry) {c : VertexId} (hc : c < s.table.size) :
    s'.table.score c = s.table.score c := by
  rw [Table.score, h.getElem?_of_lt hc, Table.score]

theorem Extends.score_size (h : Extends s s' entry) :
    s'.table.score s.table.size = entry.score := by
  rw [Table.score, h.getElem?_size]
  rfl

/-- **An offer stays** when later vertices are visited. -/
theorem Offer.step (h : Extends s s' entry) (hv : v ≤ s.table.size) {score : K}
    (ho : Offer o s v x id score) : Offer o s' v x id score := by
  obtain ⟨e, statistics, he, hchildren, hrates⟩ := ho
  refine ⟨e, statistics, he, hchildren, ?_⟩
  have hlt : ∀ c ∈ e.children, c < s.table.size := fun c hc => (hchildren c hc).trans_le hv
  refine hrates.congr (fun c hc => h.score_of_lt (hlt c hc)) ?_
  refine optionRel_imp h.scorer fun a b hfix => ?_
  obtain ⟨found, hfix⟩ := hfix
  exact Scorer.agreeOn_of_fix hfix fun hmem => Nat.lt_irrefl _ (hlt _ hmem)

/-! ## 6. The whole sweep -/

/-- What the sweep has settled for a vertex: a leaf has no edge and the score zero, and any other
vertex has the best of the offers of its edges. -/
def Settled (o : Objective K) (s : Sweep f) (v : VertexId) (x : Vertex) : Prop :=
  (x.incoming = [] ∧ s.table.chosen v = none ∧ s.table.score v = Scalar.zero) ∨
    ∃ offers won, offers.map Prod.fst = x.incoming ∧
      (∀ c ∈ offers, Offer o s v x c.1 c.2) ∧ winner Prod.snd offers = some won ∧
      s.table.chosen v = some won.1 ∧ s.table.score v = won.2

theorem Settled.step (h : Extends s s' entry) (hv : v < s.table.size) (hs : Settled o s v x) :
    Settled o s' v x := by
  rcases hs with ⟨hleaf, hedge, hscore⟩ | ⟨offers, won, hids, hoffers, hwon, hedge, hscore⟩
  · exact Or.inl ⟨hleaf, by rw [h.chosen_of_lt hv, hedge], by rw [h.score_of_lt hv, hscore]⟩
  · exact Or.inr ⟨offers, won, hids, fun c hc => (hoffers c hc).step h hv.le, hwon,
      by rw [h.chosen_of_lt hv, hedge], by rw [h.score_of_lt hv, hscore]⟩

/-- The scorer of a sweep: there is none if the BLEU term has no weight, and else it was fixed by the
edges in the table. -/
def Scores (o : Objective K) (references : SentenceReferences) (s : Sweep f) : Prop :=
  if Scalar.isZero o.bleuWeight then s.scorer = none
  else ∃ scorer, s.scorer = some scorer ∧
    f.FixedBy s.table.chosen (.start references o.smoothing f) s.table.size scorer

/-- All vertices that were visited are settled, and the scorer keeps up with them. -/
structure Swept (o : Objective K) (references : SentenceReferences) (s : Sweep f) : Prop where
  settled : ∀ v x, v < s.table.size → f.vertex? v = some x → Settled o s v x
  scores : Scores o references s

variable {references : SentenceReferences}

theorem swept_start : Swept o references (.start o references f) where
  settled := fun v x hv => absurd hv (Nat.not_lt_zero v)
  scores := by
    rw [Scores, Sweep.start]
    by_cases hzero : Scalar.isZero o.bleuWeight = true
    · rw [if_pos hzero, if_pos hzero]
    · rw [if_neg hzero, if_neg hzero]
      exact ⟨_, rfl, .start⟩

/-- A vertex that is settled joins those that were. -/
theorem Swept.extend (hw : Swept o references s) (h : Extends s s' entry)
    (hx : f.vertex? s.table.size = some x) (hs : Settled o s' s.table.size x)
    (hscores : Scores o references s') : Swept o references s' where
  scores := hscores
  settled := by
    intro v y hv hy
    rw [h.size] at hv
    rcases Nat.lt_succ_iff_lt_or_eq.mp hv with hv | rfl
    · exact (hw.settled v y hv hy).step h hv
    · rw [hx] at hy
      cases hy
      exact hs

/-- The scorer keeps up with a visit if it is fixed by the edge of the new entry. -/
theorem Scores.step (hs : Scores o references s) (h : Extends s s' entry)
    (hfix : ∀ a b, s.scorer = some a → s'.scorer = some b →
      f.FixedBy s'.table.chosen (.start references o.smoothing f) s.table.size a →
      f.FixedBy s'.table.chosen (.start references o.smoothing f) (s.table.size + 1) b) :
    Scores o references s' := by
  have hscorer := h.scorer
  rw [Scores] at hs ⊢
  by_cases hzero : Scalar.isZero o.bleuWeight = true
  · rw [if_pos hzero] at hs ⊢
    rw [hs] at hscorer
    generalize s'.scorer = b at hscorer
    cases hscorer
    rfl
  · rw [if_neg hzero] at hs ⊢
    obtain ⟨a, ha, hfixed⟩ := hs
    rw [ha] at hscorer
    generalize hb : s'.scorer = b at hscorer
    cases hscorer with
    | some hab =>
      refine ⟨_, rfl, ?_⟩
      rw [h.size]
      exact hfix _ _ ha hb (hfixed.congr fun v hv => h.chosen_of_lt hv)

/-- **A visit settles its vertex.** -/
theorem Swept.visit (hw : Swept o references s) (hx : f.vertex? s.table.size = some x)
    (h : visit o s x = .ok s') : Swept o references s' := by
  rcases visit_cases h with ⟨hleaf, h⟩ | ⟨cs, c, hcs, hwon, h⟩
  · have hext : Extends s s' .leaf := extends_of_visitLeaf_eq_ok h
    obtain ⟨-, hscorer⟩ := of_visitLeaf_eq_ok h
    refine hw.extend hext hx (Or.inl ⟨hleaf, hext.chosen_size, hext.score_size⟩) ?_
    refine hw.scores.step hext fun a b ha hb hfixed => ?_
    rw [ha, hb] at hscorer
    cases hscorer with
    | some hab => exact .leaf hfixed hext.chosen_size hab
  · have hext : Extends s s' c.entry := extends_of_settle_eq_ok h
    obtain ⟨-, hscorer⟩ := of_settle_eq_ok h
    have hrates : ∀ c ∈ cs, Rates o s.scorer s.table.score x.sourceCovered c.edge c.score
        c.statistics := by
      intro c hc
      obtain ⟨id, -, hid⟩ := exists_mem_of_forall₂ hcs hc
      exact (of_candidate_eq_ok hid).2
    have hids : (cs.map fun c => (c.id, c.score)).map Prod.fst = x.incoming := by
      rw [List.map_map]
      exact (map_eq_of_forall₂ hcs fun id c hc => (of_candidate_eq_ok hc).1).trans (List.map_id _)
    have hoffers : ∀ p ∈ cs.map fun c => (c.id, c.score), Offer o s' s.table.size x p.1 p.2 := by
      intro p hp
      obtain ⟨c, hc, rfl⟩ := List.mem_map.mp hp
      exact Offer.step hext (Nat.le_refl _)
        ⟨c.edge, c.statistics, c.found, c.visited, hrates c hc⟩
    refine hw.extend hext hx (Or.inr ⟨_, (c.id, c.score), hids, hoffers, ?_, hext.chosen_size,
      hext.score_size⟩) ?_
    · rw [winner_map]
      exact congrArg (Option.map _) hwon
    · refine hw.scores.step hext fun a b ha hb hfixed => ?_
      have hrated := hrates c (mem_of_winner_eq hwon)
      rw [ha, hb] at hscorer
      rw [ha] at hrated
      obtain ⟨bleu, hbleu, -⟩ := hrated
      cases hscorer with
      | some hab => exact .edge hfixed hx hext.chosen_size c.found hbleu hab

/-- **What each visit keeps, the sweep keeps**, which visits all vertices. -/
theorem of_sweep_eq_ok {p : Sweep f → Prop} (hstart : p (.start o references f))
    (hstep : ∀ {s s' : Sweep f} {x : Vertex}, p s → f.vertex? s.table.size = some x →
      visit o s x = .ok s' → p s') (h : sweep o references f = .ok s) :
    p s ∧ s.table.size = f.vertices.size := by
  have hfold : ∀ (rest front : List Vertex) (s : Sweep f), f.vertices.toList = front ++ rest →
      p s → s.table.size = front.length →
      ∀ s', rest.foldlM (visit o) s = .ok s' → p s' ∧ s'.table.size = f.vertices.size := by
    intro rest
    induction rest with
    | nil =>
      intro front s hall hp hsize s' hs'
      cases hs'
      rw [List.append_nil] at hall
      exact ⟨hp, by rw [hsize, ← hall, Array.length_toList]⟩
    | cons x rest ih =>
      intro front s hall hp hsize s' hs'
      rw [List.foldlM_cons] at hs'
      obtain ⟨t, ht, hs'⟩ := bind_eq_ok_iff.mp hs'
      have hx : f.vertex? s.table.size = some x := by
        rw [Forest.vertex?, ← Array.getElem?_toList, hall, hsize,
          List.getElem?_append_right (Nat.le_refl _), Nat.sub_self]
        rfl
      refine ih (front ++ [x]) t (by rw [hall, List.append_assoc]; rfl) (hstep hp hx ht) ?_ s' hs'
      rw [size_of_visit_eq_ok ht, hsize, List.length_append]
      rfl
  exact hfold f.vertices.toList [] _ rfl hstart rfl s h

/-- **The sweep settles all vertices.** -/
theorem swept_of_sweep_eq_ok (h : sweep o references f = .ok s) :
    Swept o references s ∧ s.table.size = f.vertices.size :=
  of_sweep_eq_ok swept_start (fun hw hx hvisit => hw.visit hx hvisit) h

end Search

end ForestRescoring
