/-
# Derivations

A derivation says how a text is built all the way down: an edge for the vertex at the top, and in
each of its gaps a derivation of the gap's vertex.  It has a text (`yield`), the features of
all its edges (`features`), and a score under a model (`modelScore`).

One vertex may be derived in different ways at different places of one derivation.  The search
never does that, but a statement about the best derivation has to range over all of them.
-/
import ForestRescoring.Forest.Basic

namespace ForestRescoring

/-! ## 1. Shapes -/

mutual

/-- How the text of a vertex is built. -/
inductive Derivation (K : Type) where
  /-- The empty text of a leaf. -/
  | leaf
  /-- An edge, its features, and its target side filled in. -/
  | node (edge : EdgeId) (features : FeatureVector K) (target : Target K)

/-- A target side whose gaps are filled in. -/
inductive Target (K : Type) where
  /-- The right end. -/
  | done
  /-- A word. -/
  | word (w : WordId) (rest : Target K)
  /-- A gap with the derivation that fills it. -/
  | part (inner : Derivation K) (rest : Target K)

end

variable {K : Type}

instance : Inhabited (Derivation K) := ⟨.leaf⟩

/-! ## 2. Derivations of a forest -/

mutual

/-- A derivation of the text of a vertex of a forest: a leaf has the empty one, and any other vertex
those by one of its edges, every gap being filled by a derivation of the gap's vertex. -/
inductive Forest.Derives (f : Forest K) : VertexId → Derivation K → Prop where
  /-- There is no edge, so the text is empty. -/
  | leaf {v : VertexId} {x : Vertex} (hv : f.vertex? v = some x) (hx : x.incoming = []) :
      f.Derives v .leaf
  /-- An edge of the vertex is taken, with its features as they are. -/
  | node {v : VertexId} {x : Vertex} {id : EdgeId} {e : Edge K} {target : Target K}
      (hv : f.vertex? v = some x) (hid : id ∈ x.incoming) (he : f.edge? id = some e)
      (ht : f.Fills e.slots target) : f.Derives v (.node id e.features target)

/-- A target side with the words of a row of slots and derivations in its gaps. -/
inductive Forest.Fills (f : Forest K) : List Slot → Target K → Prop where
  /-- No slots. -/
  | done : f.Fills [] .done
  /-- A word stands for itself. -/
  | word {w : WordId} {slots : List Slot} {rest : Target K} (h : f.Fills slots rest) :
      f.Fills (.word w :: slots) (.word w rest)
  /-- A gap is filled by a derivation of its vertex. -/
  | part {c : VertexId} {inner : Derivation K} {slots : List Slot} {rest : Target K}
      (hd : f.Derives c inner) (h : f.Fills slots rest) :
      f.Fills (.gap c :: slots) (.part inner rest)

end

/-- A target side in which each vertex is derived in the same way at all gaps. -/
def fillSlots (pick : VertexId → Derivation K) : List Slot → Target K
  | [] => .done
  | .word w :: rest => .word w (fillSlots pick rest)
  | .gap c :: rest => .part (pick c) (fillSlots pick rest)

theorem Forest.fills_fillSlots {f : Forest K} {pick : VertexId → Derivation K} {slots : List Slot}
    (h : ∀ c ∈ slots.filterMap Slot.child?, f.Derives c (pick c)) :
    f.Fills slots (fillSlots pick slots) := by
  induction slots with
  | nil => exact .done
  | cons slot slots ih =>
    cases slot with
    | word w => exact .word (ih h)
    | gap c =>
      exact .part (h c List.mem_cons_self) (ih fun d hd => h d (List.mem_cons_of_mem c hd))

/-! ## 3. The text of a derivation -/

mutual

/-- The words of a derivation. -/
def Derivation.yield : Derivation K → List WordId
  | .leaf => []
  | .node _ _ target => target.yield

/-- The words of a target side. -/
def Target.yield : Target K → List WordId
  | .done => []
  | .word w rest => w :: rest.yield
  | .part inner rest => inner.yield ++ rest.yield

end

variable [Scalar K]

/-! ## 4. Features and score -/

mutual

/-- Adds the features of the edges of a derivation, an edge before those in its gaps and the gaps
from left to right. -/
def Derivation.addFeatures (v : FeatureVector K) : Derivation K → FeatureVector K
  | .leaf => v
  | .node _ features target => target.addFeatures (v.add features)

/-- Adds the features of the edges in the gaps of a target side. -/
def Target.addFeatures (v : FeatureVector K) : Target K → FeatureVector K
  | .done => v
  | .word _ rest => rest.addFeatures v
  | .part inner rest => rest.addFeatures (inner.addFeatures v)

end

/-- The features of all edges of a derivation. -/
def Derivation.features (d : Derivation K) : FeatureVector K := d.addFeatures .empty

mutual

/-- The score of a derivation under a model: that of its edge, and then those of the derivations in
its gaps added from left to right. -/
def Derivation.modelScore (weights : FeatureVector K) : Derivation K → K
  | .leaf => Scalar.zero
  | .node _ features target => target.addScores weights (features.dot weights)

/-- Adds the scores of the derivations in the gaps of a target side. -/
def Target.addScores (weights : FeatureVector K) (score : K) : Target K → K
  | .done => score
  | .word _ rest => rest.addScores weights score
  | .part inner rest => rest.addScores weights (score + inner.modelScore weights)

end

end ForestRescoring
