/-
# Reading with another lexicon

What a forest file says does not depend on what the lexicon holds when it is read.  Read with two
lexicons, a file gives two forests that say the same (`Forest.Alike`): they have the same vertices,
and edges with the same features, the same gaps and, word by word, the same tokens.  If it is accepted
with the one lexicon, it is accepted with the other (`ForestReading.Accepts.alike`).

The two readings are followed line by line.  The words of a line may or may not be new, and both
lexicons grow differently; but each word has its token in its own lexicon when it is read, and keeps
it.
-/
import Mathlib
import ForestRescoring.Proofs.Forest.Acceptance
import ForestRescoring.Proofs.Forest.Soundness
import ForestRescoring.Proofs.Outcome

namespace ForestRescoring

open Text

variable {K : Type}

/-! ## 1. What says the same -/

/-- Slots with the same token or the same child. -/
inductive Slot.Alike (x y : Lexicon) : Slot → Slot → Prop where
  | word {w v : WordId} {t : String} (hw : x.word? w = some t) (hv : y.word? v = some t) :
      Alike x y (.word w) (.word v)
  | gap (c : VertexId) : Alike x y (.gap c) (.gap c)

/-- Edges with the same features, and with slots that say the same. -/
structure Edge.Alike (x y : Lexicon) (e e' : Edge K) : Prop where
  slots : List.Forall₂ (Slot.Alike x y) e.slots e'.slots
  features : e'.features = e.features

/-- Forests with the same vertices, and with edges that say the same. -/
structure Forest.Alike (x y : Lexicon) (f g : Forest K) : Prop where
  vertexCapacity : g.vertexCapacity = f.vertexCapacity
  edgeCapacity : g.edgeCapacity = f.edgeCapacity
  vertices : g.vertices = f.vertices
  edges : List.Forall₂ (Edge.Alike x y) f.edges.toList g.edges.toList

variable {x y x' y' : Lexicon}

theorem Slot.Alike.grow {s s' : Slot} (h : Slot.Alike x y s s') (hx : x.Grows x')
    (hy : y.Grows y') : Slot.Alike x' y' s s' := by
  cases h with
  | word hw hv => exact .word (hx _ _ hw) (hy _ _ hv)
  | gap c => exact .gap c

theorem Edge.Alike.grow {e e' : Edge K} (h : Edge.Alike x y e e') (hx : x.Grows x')
    (hy : y.Grows y') : Edge.Alike x' y' e e' :=
  ⟨h.slots.imp fun _ _ hs => hs.grow hx hy, h.features⟩

variable {f g : Forest K}

theorem Forest.Alike.grow (h : Forest.Alike x y f g) (hx : x.Grows x') (hy : y.Grows y') :
    Forest.Alike x' y' f g :=
  ⟨h.vertexCapacity, h.edgeCapacity, h.vertices, h.edges.imp fun _ _ he => he.grow hx hy⟩

theorem Forest.Alike.size_edges (h : Forest.Alike x y f g) : g.edges.size = f.edges.size := by
  rw [← Array.length_toList, ← h.edges.length_eq, Array.length_toList]

/-- Forests without vertices and edges say the same. -/
theorem Forest.alike_withCapacity (x y : Lexicon) (v e : ℕ) :
    Forest.Alike x y (.withCapacity v e : Forest K) (.withCapacity v e) := ⟨rfl, rfl, rfl, .nil⟩

/-- A vertex can be added to both or to neither. -/
theorem Forest.Alike.addVertex (h : Forest.Alike x y f g) {v : Vertex}
    {added : VertexId × Forest K} (hadded : f.addVertex v = .ok added) :
    ∃ g', g.addVertex v = .ok (added.1, g') ∧ Forest.Alike x y added.2 g' := by
  unfold Forest.addVertex at hadded ⊢
  rw [h.vertices, h.vertexCapacity]
  split at hadded
  · next hroom =>
    cases hadded
    rw [if_pos hroom]
    exact ⟨_, rfl, rfl, h.edgeCapacity, rfl, h.edges⟩
  · cases hadded

/-- And so can edges that say the same. -/
theorem Forest.Alike.addEdge (h : Forest.Alike x y f g) {e e' : Edge K} (he : Edge.Alike x y e e')
    {added : EdgeId × Forest K} (hadded : f.addEdge e = .ok added) :
    ∃ g', g.addEdge e' = .ok (added.1, g') ∧ Forest.Alike x y added.2 g' := by
  unfold Forest.addEdge at hadded ⊢
  rw [h.size_edges, h.edgeCapacity]
  split at hadded
  · next hroom =>
    cases hadded
    rw [if_pos hroom]
    refine ⟨_, rfl, h.vertexCapacity, rfl, h.vertices, ?_⟩
    simp only [Array.toList_push]
    exact List.rel_append h.edges (.cons he .nil)
  · cases hadded

/-! ## 2. Lines of edges -/

namespace EdgeLine

variable {head : VertexId} {ts : List (List Char)} {line : List Char}

/-- **Slots are read alike**, whatever the lexicon. -/
theorem readSlots_alike {slots : List Slot} (h : (readSlots head x ts).1 = .ok slots)
    (y : Lexicon) : ∃ slots', (readSlots head y ts).1 = .ok slots' ∧
      List.Forall₂ (Slot.Alike (readSlots head x ts).2 (readSlots head y ts).2) slots slots' := by
  induction ts generalizing x y slots with
  | nil =>
    cases h
    exact ⟨[], rfl, .nil⟩
  | cons t ts ih =>
    unfold readSlots at h ⊢
    cases ht : bracketed? t with
    | some inner =>
      simp only [ht] at h ⊢
      cases hgap : gap head t inner with
      | error e =>
        simp only [hgap] at h
        cases h
      | ok slot =>
        simp only [hgap] at h ⊢
        obtain ⟨rest, hrest, rfl⟩ := map_eq_ok_iff.mp h
        obtain ⟨rest', hrest', hall⟩ := ih hrest y
        obtain ⟨c, rfl, -⟩ := of_gap_eq_ok hgap
        exact ⟨.gap c :: rest', map_eq_ok_iff.mpr ⟨rest', hrest', rfl⟩, .cons (.gap c) hall⟩
    | none =>
      simp only [ht] at h ⊢
      obtain ⟨rest, hrest, rfl⟩ := map_eq_ok_iff.mp h
      obtain ⟨rest', hrest', hall⟩ := ih hrest (y.intern (String.ofList t)).2
      refine ⟨_, map_eq_ok_iff.mpr ⟨rest', hrest', rfl⟩, .cons ?_ hall⟩
      exact .word (grows_readSlots head _ ts _ _ (x.word?_intern _))
        (grows_readSlots head _ ts _ _ (y.word?_intern _))

/-- An edge is read alike, with the same coverage. -/
theorem read_alike {e : Edge Float} {n : ℕ} (h : (read head x line).1 = .ok (e, n)) (y : Lexicon) :
    ∃ e', (read head y line).1 = .ok (e', n) ∧
      Edge.Alike (read head x line).2 (read head y line).2 e e' := by
  unfold read at h ⊢
  split at h
  · cases h
  · next target features coverage hfields =>
    obtain ⟨slots, hslots, h⟩ := bind_eq_ok_iff.mp h
    obtain ⟨v, hv, h⟩ := bind_eq_ok_iff.mp h
    obtain ⟨m, hm, h⟩ := bind_eq_ok_iff.mp h
    cases h
    obtain ⟨slots', hslots', hall⟩ := readSlots_alike hslots y
    refine ⟨.ofSlots slots' v, ?_, ?_, ?_⟩
    · dsimp only
      rw [hslots', hv, hm]
      rfl
    · rw [Edge.slots_ofSlots, Edge.slots_ofSlots]
      exact hall
    · rw [Edge.features_ofSlots, Edge.features_ofSlots]

end EdgeLine

/-! ## 3. Drafts -/

namespace Draft

/-- Drafts with forests that say the same, and with the same open vertex. -/
structure Alike (x y : Lexicon) (d e : Draft) : Prop where
  forest : Forest.Alike x y d.forest e.forest
  current : e.current = d.current

variable {d d' e : Draft} {number : ℕ} {line : List Char} {f g : Forest Float}

theorem Alike.isComplete_eq (h : Alike x y d e) : e.isComplete = d.isComplete := by
  rw [isComplete, isComplete, h.current, h.forest.vertices, h.forest.vertexCapacity]

theorem settle_alike (h : Forest.Alike x y f g) {v : OpenVertex} (hd : settle f v = .ok d) :
    ∃ e, settle g v = .ok e ∧ Alike x y d e := by
  unfold settle at hd ⊢
  split at hd
  · next hzero =>
    rw [if_pos hzero]
    split at hd
    · cases hd
    · next added hadded =>
      cases hd
      obtain ⟨g', hg', halike⟩ := h.addVertex hadded
      rw [hg']
      exact ⟨_, rfl, halike, rfl⟩
  · next hzero =>
    cases hd
    rw [if_neg hzero]
    exact ⟨_, rfl, h, rfl⟩

theorem openVertex_alike (h : Forest.Alike x y f g) (hd : openVertex f number line = .ok d) :
    ∃ e, openVertex g number line = .ok e ∧ Alike x y d e := by
  unfold openVertex at hd ⊢
  split at hd
  · cases hd
  · exact settle_alike h hd

theorem addEdge_alike (h : Forest.Alike x y f g) {v : OpenVertex} {e e' : Edge Float}
    (he : Edge.Alike x y e e') {covered : ℕ} (hd : addEdge f v e covered = .ok d) :
    ∃ e, addEdge g v e' covered = .ok e ∧ Alike x y d e := by
  unfold addEdge at hd ⊢
  split at hd
  · cases hd
  · next added hadded =>
    obtain ⟨g', hg', halike⟩ := h.addEdge he hadded
    rw [hg']
    exact settle_alike halike hd

/-- **A line moves both drafts on.** -/
theorem Alike.step (h : Alike x y d e) (hd : d.step x number line = (.ok d', x')) :
    ∃ e' y', e.step y number line = (.ok e', y') ∧ Alike x' y' d' e' := by
  unfold Draft.step at hd ⊢
  rw [h.current]
  cases hcurrent : d.current with
  | none =>
    simp only [hcurrent] at hd ⊢
    obtain ⟨hopen, rfl⟩ := Prod.mk.inj hd
    obtain ⟨e', he', halike⟩ := openVertex_alike h.forest hopen
    exact ⟨e', y, by rw [he'], halike⟩
  | some v =>
    simp only [hcurrent] at hd ⊢
    split at hd
    · cases hd
    · next r hr =>
      obtain ⟨edge, n⟩ := r
      obtain ⟨hadd, rfl⟩ := Prod.mk.inj hd
      obtain ⟨edge', hread, hedge⟩ := EdgeLine.read_alike hr y
      have hgrown := h.forest.grow (EdgeLine.grows_read d.forest.vertices.size x line)
        (EdgeLine.grows_read d.forest.vertices.size y line)
      obtain ⟨e', he', halike⟩ := addEdge_alike hgrown hedge hadd
      rw [h.forest.vertices]
      simp only [hread]
      exact ⟨e', _, by rw [he'], halike⟩

/-- **A run with one lexicon is matched by a run with the other.** -/
theorem Run.alike {lines : List (List Char)} (hr : Run d x lines d' x') (h : Alike x y d e) :
    ∃ e' y', Run e y lines e' y' ∧ Alike x' y' d' e' := by
  induction hr generalizing e y with
  | done => exact ⟨e, y, .done, h⟩
  | line hd hs _ ih =>
    obtain ⟨e', y', he', halike⟩ := h.step (hs 0)
    obtain ⟨e'', y'', hrun, hlast⟩ := ih halike
    exact ⟨e'', y'', .line (h.isComplete_eq.trans hd) (step_number he') hrun, hlast⟩

end Draft

/-! ## 4. Files -/

/-- **A file that is accepted with one lexicon is accepted with any other**, and its forest says the
same. -/
theorem ForestReading.Accepts.alike {lines : List (Option String)} {f : Forest Float}
    (h : Accepts x lines f x') (y : Lexicon) :
    ∃ g y', Accepts y lines g y' ∧ Forest.Alike x' y' f g := by
  obtain ⟨header, counts, v, e, run, rest, d, hfirst, hheader, hcontents, hcounts, hrun, hfin⟩ := h
  obtain ⟨d', y', hrun', halike⟩ := hrun.alike (y := y) (e := ⟨.withCapacity v e, none⟩)
    ⟨Forest.alike_withCapacity x y v e, rfl⟩
  have hfin' : d'.Finishes d'.forest := by
    refine ⟨halike.isComplete_eq.trans hfin.isComplete, ?_, rfl⟩
    rw [halike.forest.size_edges, halike.forest.edgeCapacity, hfin.size]
  refine ⟨d'.forest, y', ⟨header, counts, v, e, run, rest, d', hfirst, hheader, hcontents, hcounts,
    hrun', hfin'⟩, ?_⟩
  rw [← hfin.forest]
  exact halike.forest

/-- So is what was opened, if it can be read. -/
theorem ForestReading.ofOpened_alike {opened : Opened} {f : Forest Float}
    (h : (ofOpened x opened).outcome = .ok f) (y : Lexicon) :
    ∃ g, (ofOpened y opened).outcome = .ok g ∧
      Forest.Alike (ofOpened x opened).lexicon (ofOpened y opened).lexicon f g := by
  unfold ofOpened at h ⊢
  cases hcontents : Files.contents opened with
  | error cause =>
    simp only [hcontents] at h
    cases h
  | ok bytes =>
    simp only [hcontents] at h ⊢
    obtain ⟨g, y', hg, halike⟩ := (ofLines_eq_ok_iff.mp ⟨h, rfl⟩).alike y
    obtain ⟨houtcome, hlexicon⟩ := ofLines_eq_ok_iff.mpr hg
    exact ⟨g, houtcome, hlexicon ▸ halike⟩

end ForestRescoring
