/-
# Assignments of edges to vertices

An assignment gives vertices at most one edge each.  Where every vertex but the leaves has one of its
own edges, and no edge leads ahead (`Forest.Assigns`), each vertex has one derivation that follows
the assignment, in which a vertex that is used several times is derived in the same way each time
(`Forest.Unfolds`).
-/
import Mathlib
import ForestRescoring.Scorer
import ForestRescoring.Proofs.Search.Derivation

namespace ForestRescoring

variable {K : Type}

/-! ## 1. Assignments and what they unfold to -/

/-- At most one edge for each vertex. -/
abbrev Assignment := VertexId → Option EdgeId

/-- The vertices without an edge are the leaves, and any other vertex has one of its own edges, which
uses only vertices in front of it. -/
structure Forest.Assigns (f : Forest K) (a : Assignment) : Prop where
  eq_none_iff : ∀ v x, f.vertex? v = some x → (a v = none ↔ x.incoming = [])
  edge : ∀ v x id, f.vertex? v = some x → a v = some id →
    id ∈ x.incoming ∧ ∃ e, f.edge? id = some e ∧ ∀ c ∈ e.children, c < v

mutual

/-- The derivation of a vertex that follows an assignment. -/
inductive Forest.Unfolds (f : Forest K) (a : Assignment) : VertexId → Derivation K → Prop where
  /-- There is no edge, so the text is empty. -/
  | leaf {v : VertexId} (h : a v = none) : f.Unfolds a v .leaf
  /-- The assigned edge is taken. -/
  | node {v : VertexId} {id : EdgeId} {e : Edge K} {target : Target K} (h : a v = some id)
      (he : f.edge? id = some e) (ht : f.UnfoldsSlots a e.slots target) :
      f.Unfolds a v (.node id e.features target)

/-- A target side with the words of a row of slots, and in its gaps the derivations that follow an
assignment. -/
inductive Forest.UnfoldsSlots (f : Forest K) (a : Assignment) : List Slot → Target K → Prop where
  /-- No slots. -/
  | done : f.UnfoldsSlots a [] .done
  /-- A word stands for itself. -/
  | word {w : WordId} {slots : List Slot} {rest : Target K} (h : f.UnfoldsSlots a slots rest) :
      f.UnfoldsSlots a (.word w :: slots) (.word w rest)
  /-- A gap is filled by the derivation of its vertex. -/
  | part {c : VertexId} {inner : Derivation K} {slots : List Slot} {rest : Target K}
      (hd : f.Unfolds a c inner) (h : f.UnfoldsSlots a slots rest) :
      f.UnfoldsSlots a (.gap c :: slots) (.part inner rest)

end

variable {f : Forest K} {a : Assignment}

mutual

/-- **There is one derivation that follows an assignment.** -/
theorem Forest.Unfolds.eq {v : VertexId} {d d' : Derivation K} (h : f.Unfolds a v d)
    (h' : f.Unfolds a v d') : d' = d := by
  cases h with
  | leaf hv =>
    cases h' with
    | leaf => rfl
    | node hv' => rw [hv] at hv'; cases hv'
  | node hv he ht =>
    cases h' with
    | leaf hv' => rw [hv] at hv'; cases hv'
    | node hv' he' ht' =>
      rw [hv] at hv'
      cases hv'
      rw [he] at he'
      cases he'
      rw [ht.eq ht']

theorem Forest.UnfoldsSlots.eq {slots : List Slot} {target target' : Target K}
    (h : f.UnfoldsSlots a slots target) (h' : f.UnfoldsSlots a slots target') :
    target' = target := by
  cases h with
  | done => cases h'; rfl
  | word h =>
    cases h' with
    | word h' => rw [h.eq h']
  | part hd h =>
    cases h' with
    | part hd' h' => rw [hd.eq hd', h.eq h']

end

/-- Slots unfold to what their gaps unfold to. -/
theorem Forest.unfoldsSlots_fillSlots {pick : VertexId → Derivation K} {slots : List Slot}
    (h : ∀ c ∈ slots.filterMap Slot.child?, f.Unfolds a c (pick c)) :
    f.UnfoldsSlots a slots (fillSlots pick slots) := by
  induction slots with
  | nil => exact .done
  | cons slot slots ih =>
    cases slot with
    | word w => exact .word (ih h)
    | gap c =>
      exact .part (h c List.mem_cons_self) (ih fun d hd => h d (List.mem_cons_of_mem c hd))

/-- **Every vertex has a derivation that follows the assignment**, since no edge leads ahead. -/
theorem Forest.Assigns.exists_unfolds (ha : f.Assigns a) {v : VertexId}
    (hv : v < f.vertices.size) : ∃ d, f.Unfolds a v d := by
  induction v using Nat.strongRecOn with
  | ind v ih =>
    cases hedge : a v with
    | none => exact ⟨.leaf, .leaf hedge⟩
    | some id =>
      obtain ⟨-, e, he, hchildren⟩ := ha.edge v _ id (Array.getElem?_eq_getElem hv) hedge
      have hinner : ∀ c ∈ e.children, ∃ d, f.Unfolds a c d := fun c hc =>
        ih c (hchildren c hc) ((hchildren c hc).trans hv)
      choose! pick hpick using hinner
      exact ⟨_, .node hedge he (Forest.unfoldsSlots_fillSlots (Edge.forall_gap_iff.mpr hpick))⟩

mutual

/-- What follows an assignment is a derivation. -/
theorem Forest.Unfolds.derives (ha : f.Assigns a) {v : VertexId} {d : Derivation K}
    (hv : v < f.vertices.size) (h : f.Unfolds a v d) : f.Derives v d := by
  have hx : f.vertex? v = some f.vertices[v] := Array.getElem?_eq_getElem hv
  cases h with
  | leaf hnone => exact .leaf hx ((ha.eq_none_iff v _ hx).mp hnone)
  | node hedge he ht =>
    obtain ⟨hmem, e', he', hchildren⟩ := ha.edge v _ _ hx hedge
    rw [he] at he'
    cases he'
    exact .node hx hmem he
      (ht.fills ha (Edge.forall_gap_iff.mpr fun c hc => (hchildren c hc).trans hv))

theorem Forest.UnfoldsSlots.fills (ha : f.Assigns a) {slots : List Slot} {target : Target K}
    (hv : ∀ c ∈ slots.filterMap Slot.child?, c < f.vertices.size)
    (h : f.UnfoldsSlots a slots target) : f.Fills slots target := by
  cases h with
  | done => exact .done
  | word h => exact .word (h.fills ha hv)
  | @part c inner slots rest hd h =>
    exact .part (hd.derives ha (hv c List.mem_cons_self))
      (h.fills ha fun b hb => hv b (List.mem_cons_of_mem c hb))

end

mutual

/-- **Only the edges of earlier vertices matter** for a vertex, where no edge leads ahead. -/
theorem Forest.Unfolds.congr {b : Assignment} {n : ℕ} (hab : ∀ v < n, b v = a v)
    (ha : ∀ v id e, a v = some id → f.edge? id = some e → ∀ c ∈ e.children, c < v) {v : VertexId}
    {d : Derivation K} (hv : v < n) (h : f.Unfolds a v d) : f.Unfolds b v d := by
  cases h with
  | leaf hnone => exact .leaf ((hab v hv).trans hnone)
  | node hedge he ht =>
    exact .node ((hab v hv).trans hedge) he
      (ht.congr hab ha (Edge.forall_gap_iff.mpr fun c hc => (ha v _ _ hedge he c hc).trans hv))

theorem Forest.UnfoldsSlots.congr {b : Assignment} {n : ℕ} (hab : ∀ v < n, b v = a v)
    (ha : ∀ v id e, a v = some id → f.edge? id = some e → ∀ c ∈ e.children, c < v)
    {slots : List Slot} {target : Target K} (hs : ∀ c ∈ slots.filterMap Slot.child?, c < n)
    (h : f.UnfoldsSlots a slots target) : f.UnfoldsSlots b slots target := by
  cases h with
  | done => exact .done
  | word h => exact .word (h.congr hab ha hs)
  | @part c inner slots rest hd h =>
    exact .part (hd.congr hab ha (hs c List.mem_cons_self))
      (h.congr hab ha fun d hmem => hs d (List.mem_cons_of_mem c hmem))

end

/-! ## 2. Scorers that follow an assignment -/

variable [Scalar K]

/-- The scorer after the first `n` vertices were fixed as assigned, each with the statistics that
its edge was scored with. -/
inductive Forest.FixedBy (f : Forest K) (a : Assignment) (start : Scorer K) :
    ℕ → Scorer K → Prop where
  | start : f.FixedBy a start 0 start
  | leaf {v : VertexId} {s t : Scorer K} (hs : f.FixedBy a start v s) (hv : a v = none)
      (ht : s.fixLeaf v = .ok t) : f.FixedBy a start (v + 1) t
  | edge {v : VertexId} {x : Vertex} {id : EdgeId} {e : Edge K} {s t : Scorer K} {bleu : K}
      {statistics : Statistics} (hs : f.FixedBy a start v s) (hx : f.vertex? v = some x)
      (hv : a v = some id) (he : f.edge? id = some e)
      (hscore : s.score e x.sourceCovered = .ok (bleu, statistics))
      (ht : s.fixEdge v e statistics = .ok t) : f.FixedBy a start (v + 1) t

/-- Only the edges of the first `n` vertices matter. -/
theorem Forest.FixedBy.congr {b : Assignment} {start s : Scorer K} {n : ℕ}
    (h : f.FixedBy a start n s) (hab : ∀ v < n, b v = a v) : f.FixedBy b start n s := by
  induction h with
  | start => exact .start
  | @leaf v s t hs hv ht ih =>
    have hb := hab v (Nat.lt_succ_self v)
    exact .leaf (ih fun w hw => hab w (hw.trans (Nat.lt_succ_self v))) (hb.trans hv) ht
  | @edge v x id e s t bleu statistics hs hx hv he hscore ht ih =>
    have hb := hab v (Nat.lt_succ_self v)
    exact .edge (ih fun w hw => hab w (hw.trans (Nat.lt_succ_self v))) hx (hb.trans hv) he hscore ht

end ForestRescoring
